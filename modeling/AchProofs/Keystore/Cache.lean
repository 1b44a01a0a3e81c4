import AchProofs.Foundation.Run

namespace AchProofs.Keystore

/-- Times are in milliseconds, on one clock. -/
def defaultTTL : ℕ := 60000

def sfLeaderTimeout : ℕ := 10000

/-- The one bearer all calls present: a `pk_` or `ek_` key, an OAuth token or an exchange token. A
token has an expiry of its own. -/
inductive Bearer
  | key
  | oauth (exp : ℕ)
  | exchange (exp : ℕ)
  deriving DecidableEq, Repr

inductive Status
  | active
  | suspended
  | revoked
  deriving DecidableEq, Repr

/-- The key row the bearer leads to. -/
structure Row where
  status : Status
  expiresAt : Option ℕ
  deriving DecidableEq, Repr

def Row.live (row : Row) (now : ℕ) : Prop :=
  row.status = .active ∧ ∀ x ∈ row.expiresAt, now < x

instance (row : Row) (now : ℕ) : Decidable (row.live now) :=
  inferInstanceAs (Decidable (_ ∧ ∀ x ∈ row.expiresAt, now < x))

/-- A resolution: the `ExpiresAt` of the `KeyInfo`, and when its row was read. -/
structure Found where
  expiresAt : Option ℕ
  readAt : ℕ
  deriving DecidableEq, Repr

/-- A cached resolution and the time at which Redis drops it. -/
structure Entry where
  found : Found
  until_ : ℕ
  deriving DecidableEq, Repr

/-- Where the function of a single flight stands. The anchor is the time it started at. -/
inductive FlightStage
  | starting
  | verify (anchor : ℕ)
  | lookup (anchor : ℕ)
  | grants (anchor : ℕ) (found : Found)
  | returning (anchor : ℕ) (result : Option Found)
  | done (anchor : ℕ) (result : Option Found)
  | failed
  deriving DecidableEq, Repr

structure Flight where
  proc : ℕ
  stage : FlightStage
  deriving DecidableEq, Repr

/-- The time to live of a `SET`, with the anchor it is measured from and the clock it is measured
with. -/
structure Remaining where
  anchor : ℕ
  clock : ℕ
  ttl : ℕ
  deriving DecidableEq, Repr

/-- Where a call of `Resolve` stands: the operation it does next. -/
inductive Stage
  | get
  | hit (found : Found)
  | miss
  | waiting (flight : ℕ)
  | filled (anchor : ℕ) (found : Found)
  | timed (remaining : Remaining) (found : Found)
  | capped (remaining : Remaining) (found : Found)
  | setting (remaining : Remaining) (found : Found)
  | answer (found : Found)
  deriving DecidableEq, Repr

structure Call where
  proc : ℕ
  callAt : ℕ
  stage : Stage
  deriving DecidableEq, Repr

/-- A `KeyInfo` that was returned: the times of the call and of the return, and the expiry of the
presented credential at that time. -/
structure Answer where
  callAt : ℕ
  returnAt : ℕ
  expiry : Option ℕ
  deriving DecidableEq, Repr

/-- The clock, the row, and the times of the lookups that succeeded so far. -/
structure View where
  now : ℕ
  row : Row
  lookups : List ℕ

/-- With the grant of an exchange key, the Redis entry of the bearer, the flights of each process,
the calls under way, and the answers so far. -/
structure State extends View where
  granted : Bool
  cache : Option Entry
  group : ℕ → Option ℕ
  flights : ℕ → Option Flight
  calls : ℕ → Option Call
  answers : List Answer

inductive Act
  | wait (d : ℕ)
  | commit (row : Row) (granted : Bool)
  | del
  | call (i proc : ℕ)
  | enter (i flight : ℕ)
  | fly (g : ℕ) (ok : Bool)
  | go (i : ℕ) (ok : Bool)
  | cancel (i : ℕ)
  deriving DecidableEq, Repr

def Bearer.expiry (bearer : Bearer) (row : Row) : Option ℕ :=
  match bearer with
  | .key => row.expiresAt
  | .oauth exp => some exp
  | .exchange exp => some exp

/-- What the resolvers below the cache make of a row that is live. -/
def Bearer.found (bearer : Bearer) (row : Row) (now : ℕ) : Found :=
  match bearer with
  | .key => ⟨row.expiresAt, now⟩
  | .oauth _ => ⟨row.expiresAt, now⟩
  | .exchange exp =>
    match row.expiresAt with
    | none => ⟨some exp, now⟩
    | some x => if exp < x then ⟨some exp, now⟩ else ⟨some x, now⟩

def notEarlier : Option ℕ → Option ℕ → Bool
  | none, none => true
  | some x, some y => decide (x ≤ y)
  | _, _ => false

def Bearer.commits (bearer : Bearer) (row row' : Row) : Prop :=
  bearer = .key → notEarlier row.expiresAt row'.expiresAt = true

instance (bearer : Bearer) (row row' : Row) : Decidable (bearer.commits row row') :=
  inferInstanceAs (Decidable (_ → _))

def Found.expired (f : Found) (now : ℕ) : Prop := ∃ x ∈ f.expiresAt, x ≤ now

instance (f : Found) (now : ℕ) : Decidable (f.expired now) :=
  decidable_of_iff (f.expiresAt.any (· ≤ now)) (by simp [Found.expired, Option.any_eq_true])

namespace State

def setFlight (s : State) (g : ℕ) (fl : Flight) : State :=
  { s with flights := Function.update s.flights g (some fl) }

def setCall (s : State) (i : ℕ) (c : Option Call) : State :=
  { s with calls := Function.update s.calls i c }

def land (s : State) (g : ℕ) (fl : Flight) : State :=
  { s.setFlight g fl with group := Function.update s.group fl.proc none }

end State

def Call.at (c : Call) (stage : Stage) : Call := { c with stage }

/-- The next step of a flight's function; `ok` is that the database answers. -/
def flyStep (bearer : Bearer) (s : State) (g : ℕ) (fl : Flight) (ok : Bool) : Option State :=
  match fl.stage with
  | .starting =>
    match bearer with
    | .key => some (s.setFlight g ⟨fl.proc, .lookup s.now⟩)
    | _ => some (s.setFlight g ⟨fl.proc, .verify s.now⟩)
  | .verify a =>
    match bearer.expiry s.row with
    | none => none
    | some exp =>
      if s.now < exp then some (s.setFlight g ⟨fl.proc, .lookup a⟩)
      else some (s.setFlight g ⟨fl.proc, .returning a none⟩)
  | .lookup a =>
    if !ok then some (s.land g ⟨fl.proc, .failed⟩)
    else if s.row.live s.now then
      match bearer with
      | .exchange _ => some (s.setFlight g ⟨fl.proc, .grants a (bearer.found s.row s.now)⟩)
      | _ => some { s.setFlight g ⟨fl.proc, .returning a (some (bearer.found s.row s.now))⟩ with
          lookups := s.now :: s.lookups }
    else some (s.setFlight g ⟨fl.proc, .returning a none⟩)
  | .grants a f =>
    if !ok then some (s.land g ⟨fl.proc, .failed⟩)
    else if s.granted then
      some { s.setFlight g ⟨fl.proc, .returning a (some f)⟩ with lookups := f.readAt :: s.lookups }
    else some (s.setFlight g ⟨fl.proc, .returning a none⟩)
  | .returning a r => some (s.land g ⟨fl.proc, .done a r⟩)
  | .done _ _ => none
  | .failed => none

/-- The next operation of a call; `ok` is that Redis answers. -/
def goStep (bearer : Bearer) (s : State) (i : ℕ) (c : Call) (ok : Bool) : Option State :=
  match c.stage with
  | .get =>
    match s.cache with
    | some e =>
      if ok ∧ s.now < e.until_ then some (s.setCall i (c.at (.hit e.found)))
      else some (s.setCall i (c.at .miss))
    | none => some (s.setCall i (c.at .miss))
  | .hit f =>
    if f.expired s.now then some (s.setCall i none) else some (s.setCall i (c.at (.answer f)))
  | .miss => none
  | .waiting g =>
    match s.flights g with
    | some ⟨_, .done a (some f)⟩ => some (s.setCall i (c.at (.filled a f)))
    | some ⟨_, .done _ none⟩ => some (s.setCall i none)
    | some ⟨_, .failed⟩ => some (s.setCall i none)
    | _ => none
  | .filled a f =>
    match f.expiresAt with
    | none => some (s.setCall i (c.at (.setting ⟨a, s.now, defaultTTL - (s.now - a)⟩ f)))
    | some _ => some (s.setCall i (c.at (.timed ⟨a, s.now, defaultTTL - (s.now - a)⟩ f)))
  | .timed r f =>
    match f.expiresAt with
    | none => none
    | some x => some (s.setCall i (c.at (.capped { r with ttl := min r.ttl (x - s.now) } f)))
  | .capped r f =>
    if f.expired s.now then some (s.setCall i none) else some (s.setCall i (c.at (.setting r f)))
  | .setting r f =>
    if ok ∧ 0 < r.ttl then
      some { s.setCall i (c.at (.answer f)) with cache := some ⟨f, s.now + r.ttl⟩ }
    else some (s.setCall i (c.at (.answer f)))
  | .answer _ =>
    some { s.setCall i none with
      answers := ⟨c.callAt, s.now, bearer.expiry s.row⟩ :: s.answers }

/-- `sfdetach.Do`: joins the flight of the call's process, or starts one. -/
def enterStep (s : State) (i g : ℕ) (c : Call) : Option State :=
  match c.stage with
  | .miss =>
    match s.group c.proc with
    | some g' => some (s.setCall i (c.at (.waiting g')))
    | none =>
      if s.flights g = none then
        some { (s.setFlight g ⟨c.proc, .starting⟩).setCall i (c.at (.waiting g)) with
          group := Function.update s.group c.proc (some g) }
      else none
  | _ => none

def step (bearer : Bearer) (s : State) : Act → Option State
  | .wait d => some { s with now := s.now + d }
  | .commit row granted => if bearer.commits s.row row then some { s with row, granted } else none
  | .del => some { s with cache := none }
  | .call i proc =>
    if s.calls i = none then some (s.setCall i (some ⟨proc, s.now, .get⟩)) else none
  | .enter i g => (s.calls i).bind (enterStep s i g)
  | .fly g ok => (s.flights g).bind (fun fl => flyStep bearer s g fl ok)
  | .go i ok => (s.calls i).bind (fun c => goStep bearer s i c ok)
  | .cancel i => some (s.setCall i none)

def start (row : Row) (granted : Bool) : State :=
  ⟨⟨0, row, []⟩, granted, none, fun _ => none, fun _ => none, fun _ => none, []⟩

end AchProofs.Keystore
