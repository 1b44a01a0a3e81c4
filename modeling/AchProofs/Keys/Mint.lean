import AchProofs.Foundation.Run

namespace AchProofs.Keys

inductive Table where
  | personal
  | environment
deriving DecidableEq, Repr

/-- How a key is issued: a `pk_` at login, an `ek_` that its owner creates, or an `ek_` by exchange
for a service account. -/
inductive Kind where
  | pk
  | manual
  | exchange (requester : ℕ)
deriving DecidableEq, Repr

def Kind.table : Kind → Table
  | .pk => .personal
  | _ => .environment

inductive Status where
  | active
  | suspended
  | expired
  | revoked
deriving DecidableEq, Repr

/-- A row of `personal_keys` or `environment_keys`. -/
structure Row where
  kind : Kind
  keyID : ℕ
  owner : ℕ
  environment : ℕ
  status : Status
  userID : ℕ
  litellmToken : ℕ
deriving DecidableEq, Repr

def Row.key (r : Row) : Table × ℕ := (r.kind.table, r.keyID)

def Row.live (r : Row) : Bool := r.status ≠ .revoked

/-- A virtual key in LiteLLM, with the metadata ACH stamps at the mint. -/
structure LiteKey where
  token : ℕ
  userID : ℕ
  createdAt : ℕ
  achKeyID : Option (Table × ℕ)
  achIssuer : Option ℕ
deriving DecidableEq, Repr

/-- Where a mint stands. The gate is the allowance check of a create request; the LiteLLM key in
hand goes with its creation time. -/
inductive Stage where
  | gate
  | prepare
  | generate
  | sealing (token created : ℕ)
  | insert (token created : ℕ) (retried : Bool)
  | compensate (token : ℕ)
  | over
deriving DecidableEq, Repr

structure Mint where
  kind : Kind
  owner : ℕ
  environment : ℕ
  userID : ℕ
  keyID : ℕ
  stage : Stage
deriving DecidableEq, Repr

def Mint.key (m : Mint) : Table × ℕ := (m.kind.table, m.keyID)

/-- The two stores and the mints under way, with every LiteLLM key ever created by its token. -/
structure State where
  now : ℕ
  rows : List Row
  litellm : List LiteKey
  born : ℕ → Option LiteKey
  mints : List Mint

/-- A call works, fails without effect, or has its effect while the reply is lost. -/
inductive Answer where
  | ok
  | fail
  | lost
deriving DecidableEq, Repr

/-- The status changes of a row. A revoked row stays revoked. -/
inductive Flip where
  | suspend
  | resume
  | expire
  | revoke
deriving DecidableEq, Repr

def Flip.apply : Flip → Status → Status
  | .suspend, .active => .suspended
  | .resume, .suspended => .active
  | .expire, .active => .expired
  | .revoke, _ => .revoked
  | _, status => status

theorem Flip.apply_ne_revoked {op : Flip} {status : Status} (h : op.apply status ≠ .revoked) :
    status ≠ .revoked := by
  rintro rfl
  cases op <;> exact h rfl

inductive Act where
  | wait (d : ℕ)
  | begin (kind : Kind) (owner environment userID keyID : ℕ)
  | go (i : ℕ) (answer : Answer) (fresh : ℕ)
  | flip (key : Table × ℕ) (op : Flip)
  | drain (environment : ℕ)
  | remove (token : ℕ)
  | foreign (key : LiteKey)
deriving DecidableEq, Repr

/-- What is fixed in a run: the issuer stamp of this deployment and each owner's key ceiling. -/
structure Config where
  issuer : ℕ
  maxKeys : ℕ → ℕ

/-- The keys that `UserKeyAllowance` counts for an owner. -/
def Row.counts (owner : ℕ) (r : Row) : Bool :=
  r.owner = owner ∧ r.kind = .manual ∧ r.live

def used (s : State) (owner : ℕ) : ℕ := s.rows.countP (Row.counts owner)

namespace State

def setMint (s : State) (i : ℕ) (m : Mint) : State := { s with mints := s.mints.set i m }

def removeKey (s : State) (token : ℕ) : State :=
  { s with litellm := s.litellm.filter (fun k => k.token ≠ token) }

def addKey (s : State) (k : LiteKey) : State :=
  { s with litellm := s.litellm ++ [k], born := Function.update s.born k.token (some k) }

def addRow (s : State) (r : Row) : State := { s with rows := s.rows ++ [r] }

def mapRows (s : State) (f : Row → Row) : State := { s with rows := s.rows.map f }

end State

def Mint.row (m : Mint) (token : ℕ) : Row :=
  ⟨m.kind, m.keyID, m.owner, m.environment, .active, m.userID, token⟩

/-- The key in LiteLLM carries the key id that was drawn first. -/
def Mint.liteKey (cfg : Config) (m : Mint) (now token : ℕ) : LiteKey :=
  ⟨token, m.userID, now, some m.key, some cfg.issuer⟩

def generateStep (cfg : Config) (s : State) (i : ℕ) (m : Mint) (answer : Answer) (token : ℕ) :
    Option State :=
  match answer with
  | .fail => some (s.setMint i { m with stage := .over })
  | .ok =>
    if (s.born token).isSome then none
    else some
      ((s.addKey (m.liteKey cfg s.now token)).setMint i { m with stage := .sealing token s.now })
  | .lost =>
    if (s.born token).isSome then none
    else some ((s.addKey (m.liteKey cfg s.now token)).setMint i { m with stage := .over })

/-- The partial unique index: one live exchange key for an owner, environment and requester. -/
def tupleTaken (s : State) (m : Mint) : Bool :=
  match m.kind with
  | .exchange requester => s.rows.any (fun r => r.kind = .exchange requester ∧ r.owner = m.owner
      ∧ r.environment = m.environment ∧ r.live)
  | _ => false

def keyTaken (s : State) (m : Mint) : Bool := s.rows.any (fun r => r.key = m.key)

/-- The `INSERT`. A key id that is taken is drawn anew once for an `ek_`, while the LiteLLM key is
kept. -/
def insertStep (s : State) (i : ℕ) (m : Mint) (token created : ℕ) (retried : Bool) (answer : Answer)
    (fresh : ℕ) : State :=
  match answer with
  | .fail => s.setMint i { m with stage := .compensate token }
  | answer =>
    if keyTaken s m then
      if m.kind ≠ .pk ∧ ¬ retried ∧ answer = .ok then
        s.setMint i { m with keyID := fresh, stage := .insert token created true }
      else s.setMint i { m with stage := .compensate token }
    else if tupleTaken s m then s.setMint i { m with stage := .compensate token }
    else if answer = .ok then (s.addRow (m.row token)).setMint i { m with stage := .over }
    else (s.addRow (m.row token)).setMint i { m with stage := .compensate token }

def mintStep (cfg : Config) (s : State) (i : ℕ) (m : Mint) (answer : Answer) (fresh : ℕ) :
    Option State :=
  match m.stage with
  | .gate =>
    if answer = .ok ∧ used s m.owner < cfg.maxKeys m.owner then
      some (s.setMint i { m with stage := .prepare })
    else some (s.setMint i { m with stage := .over })
  | .prepare =>
    if answer = .ok then some (s.setMint i { m with stage := .generate })
    else some (s.setMint i { m with stage := .over })
  | .generate => generateStep cfg s i m answer fresh
  | .sealing token created =>
    if answer = .ok then some (s.setMint i { m with stage := .insert token created false })
    else some (s.setMint i { m with stage := .compensate token })
  | .insert token created retried => some (insertStep s i m token created retried answer fresh)
  | .compensate token =>
    if answer = .fail then some (s.setMint i { m with stage := .over })
    else some ((s.removeKey token).setMint i { m with stage := .over })
  | .over => none

def firstStage : Kind → Stage
  | .manual => .gate
  | _ => .prepare

def step (cfg : Config) (s : State) : Act → Option State
  | .wait d => some { s with now := s.now + d }
  | .begin kind owner environment userID keyID =>
    some { s with mints := s.mints ++ [⟨kind, owner, environment, userID, keyID, firstStage kind⟩] }
  | .go i answer fresh => (s.mints[i]?).bind (fun m => mintStep cfg s i m answer fresh)
  | .flip key op =>
    some (s.mapRows (fun r => if r.key = key then { r with status := op.apply r.status } else r))
  | .drain environment =>
    some (s.mapRows (fun r => if r.kind.table = .environment ∧ r.environment = environment then
      { r with status := .revoked } else r))
  | .remove token => some (s.removeKey token)
  | .foreign key => if (s.born key.token).isSome then none else some (s.addKey key)

end AchProofs.Keys
