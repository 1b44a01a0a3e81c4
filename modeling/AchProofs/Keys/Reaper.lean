import AchProofs.Keys.Mint

namespace AchProofs.Keys.Reaper

/-- A key is an orphan only when it is older than ten minutes, in seconds. -/
def orphanAgeFloor : ℕ := 600

def defaultMaxRevoke : ℕ := 10

structure ReaperConfig extends Config where
  dryRun : Bool
  maxRevoke : Int

def ReaperConfig.cap (cfg : ReaperConfig) : ℕ :=
  if cfg.maxRevoke ≤ 0 then defaultMaxRevoke else cfg.maxRevoke.toNat

structure OrphanCandidate where
  userID : ℕ
  token : ℕ
  achID : Table × ℕ
deriving DecidableEq, Repr

/-- Where a pass of `TickOnce` stands, with what it has read, and until it reads the clock the
number of rows that there were when it read the managed set. -/
inductive Tick where
  | idle
  | listUsers
  | listKeyIDs (userIDs : List ℕ)
  | clock (userIDs : List ℕ) (achKeySet : List (Table × ℕ)) (listed : ℕ)
  | scan (userIDs : List ℕ) (achKeySet : List (Table × ℕ)) (now : ℕ)
      (candidates : List OrphanCandidate)
  | revoke (achKeySet : List (Table × ℕ)) (candidates : List OrphanCandidate)

/-- A `RevokeKey` of the reaper: the pass it belongs to, whether the token was that of a non-revoked
row at that moment, the key's metadata, and the size of the managed set. -/
structure RevokeCall where
  tick : ℕ
  token : ℕ
  live : Bool
  achKeyID : Option (Table × ℕ)
  achIssuer : Option ℕ
  managed : ℕ
deriving DecidableEq, Repr

/-- The keys, the pass under way, and what has happened: the number of passes, those of them in
which a list call failed, and the `RevokeKey` calls. -/
structure RState where
  keys : State
  tick : Tick
  ticks : ℕ
  failed : List ℕ
  calls : List RevokeCall

inductive RAct where
  | keys (act : Act)
  | tick
  | go (answer : Answer)
deriving DecidableEq, Repr

/-- `ListACHManagedLitellmUsers`: the users of all rows, whatever their status. -/
def listUsers (rows : List Row) : List ℕ := (rows.map Row.userID).dedup

/-- `ListManagedACHKeyIDs`: the key ids of the rows that are not revoked. -/
def listManaged (rows : List Row) : List (Table × ℕ) := ((rows.filter Row.live).map Row.key).dedup

def candidateOf (cfg : ReaperConfig) (achKeySet : List (Table × ℕ)) (now userID : ℕ) (k : LiteKey) :
    Option OrphanCandidate :=
  if k.createdAt + orphanAgeFloor < now then
    match k.achKeyID with
    | none => none
    | some achID =>
      if k.achIssuer ≠ some cfg.issuer then none
      else if achID ∈ achKeySet then none
      else some ⟨userID, k.token, achID⟩
  else none

def listUserKeys (s : State) (userID : ℕ) : List LiteKey :=
  s.litellm.filter (fun k => k.userID = userID)

/-- After the scan: nothing to do, the guards, the dry run, or the revocation. -/
def afterScan (cfg : ReaperConfig) (achKeySet : List (Table × ℕ))
    (candidates : List OrphanCandidate) :
    Tick :=
  if candidates = [] then .idle
  else if achKeySet = [] then .idle
  else if cfg.cap < candidates.length then .idle
  else if cfg.dryRun then .idle
  else .revoke achKeySet candidates

def liveToken (s : State) (token : ℕ) : Bool :=
  s.rows.any (fun r => r.litellmToken = token ∧ r.live)

def revokeCall (s : RState) (achKeySet : List (Table × ℕ)) (c : OrphanCandidate) : RevokeCall where
  tick := s.ticks
  token := c.token
  live := liveToken s.keys c.token
  achKeyID := (s.keys.born c.token).bind LiteKey.achKeyID
  achIssuer := (s.keys.born c.token).bind LiteKey.achIssuer
  managed := achKeySet.length

def abort (s : RState) : RState := { s with tick := .idle, failed := s.ticks :: s.failed }

def goStep (cfg : ReaperConfig) (s : RState) (answer : Answer) : Option RState :=
  match s.tick with
  | .idle => none
  | .listUsers =>
    if answer ≠ .ok then some (abort s)
    else
      match listUsers s.keys.rows with
      | [] => some { s with tick := .idle }
      | userIDs => some { s with tick := .listKeyIDs userIDs }
  | .listKeyIDs userIDs =>
    if answer ≠ .ok then some (abort s)
    else some { s with
      tick := .clock userIDs (listManaged s.keys.rows) s.keys.rows.length }
  | .clock userIDs achKeySet _ => some { s with tick := .scan userIDs achKeySet s.keys.now [] }
  | .scan [] achKeySet _ candidates => some { s with tick := afterScan cfg achKeySet candidates }
  | .scan (uid :: userIDs) achKeySet now candidates =>
    if answer ≠ .ok then some (abort s)
    else some { s with
      tick := .scan userIDs achKeySet now
        (candidates ++ (listUserKeys s.keys uid).filterMap (candidateOf cfg achKeySet now uid)) }
  | .revoke _ [] => some { s with tick := .idle }
  | .revoke achKeySet (c :: candidates) =>
    some { s with
      tick := .revoke achKeySet candidates
      calls := revokeCall s achKeySet c :: s.calls
      keys := if answer = .fail then s.keys else s.keys.removeKey c.token }

def step (cfg : ReaperConfig) (s : RState) : RAct → Option RState
  | .keys act => (Keys.step cfg.toConfig s.keys act).map (fun keys => { s with keys := keys })
  | .tick =>
    match s.tick with
    | .idle => some { s with tick := .listUsers, ticks := s.ticks + 1 }
    | _ => none
  | .go answer => goStep cfg s answer

def start : RState := ⟨⟨0, [], [], fun _ => none, []⟩, .idle, 0, [], []⟩

end AchProofs.Keys.Reaper
