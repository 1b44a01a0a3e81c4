import AchProofs.Foundation.Run

namespace AchProofs.Litellm.ReadCache

inductive Method where
  | get
  | post
  | put
  | patch
  | delete
deriving DecidableEq

structure Req (D : Type) where
  method : Method
  path : String
  body : D

def readOnlyPOST (path : String) : Bool := path == "/tag/info"

def Req.writes {D : Type} (req : Req D) : Bool :=
  req.method ≠ .get ∧ ¬ readOnlyPOST req.path

/-- LiteLLM: what a write does to its state, and the body it answers a `GET` with. -/
structure Server (S D B : Type) where
  apply : Req D → S → S
  serve : String → S → B

/-- A body, with the call that fetched it, the number of writes the server had applied when it made
it, and the time. -/
structure Fetched (B : Type) where
  body : B
  version : ℕ
  madeAt : ℕ
  caller : ℕ

structure CachedBody (B : Type) where
  fetched : Fetched B
  storedAt : ℕ

/-- Where a `makeRequest` call stands. A `GET` looks into the cache, asks the server with the
generation it saw, has a body to store, and leaves; a write is under way, is to drop the cache, and
leaves, with the writes's number if it was applied before the drop. -/
inductive Stage (B : Type) where
  | look
  | asking (gen : ℕ)
  | got (gen : ℕ) (f : Fetched B)
  | leaving (f : Option (Fetched B))
  | sending
  | dropping (ok : Bool)
  | closing (ok : Bool) (applied : Option ℕ)
  | over (time : ℕ)

/-- A write that returned after it was applied: its number, whether it was applied before its call
dropped the cache, and whether the call succeeded. -/
structure Ack where
  version : ℕ
  beforeDrop : Bool
  ok : Bool
deriving DecidableEq

/-- A call, with the writes that had returned when it started. -/
structure Call (D B : Type) where
  req : Req D
  start : ℕ
  seen : List Ack
  applied : Option ℕ
  stage : Stage B

/-- What a `GET` returned. -/
structure Answer (B : Type) where
  start : ℕ
  seen : List Ack
  fetched : Fetched B

structure State (S D B : Type) where
  now : ℕ
  srv : S
  version : ℕ
  gen : ℕ
  cache : String → Option (CachedBody B)
  calls : List (Call D B)
  returned : List Ack
  answers : List (Answer B)

inductive Act (S D : Type) where
  | wait (d : ℕ)
  | outside (srv : S)
  | call (req : Req D)
  | look (i : ℕ)
  | serve (i : ℕ)
  | apply (i : ℕ)
  | reply (i : ℕ)
  | fail (i : ℕ)
  | put (i : ℕ)
  | drop (i : ℕ)
  | ret (i : ℕ)

variable {S D B : Type}

def State.setStage (s : State S D B) (i : ℕ) (c : Call D B) (stage : Stage B) : State S D B :=
  { s with calls := s.calls.set i { c with stage := stage } }

def State.land (s : State S D B) (i : ℕ) (c : Call D B) (srv' : S) : State S D B :=
  { s with
    srv := srv'
    version := s.version + 1
    calls := s.calls.set i { c with applied := some (s.version + 1) } }

def firstStage (req : Req D) : Stage B :=
  match req.method with
  | .get => .look
  | _ => .sending

/-- `readCache.get`. -/
def lookStep (ttl : ℕ) (s : State S D B) (i : ℕ) (c : Call D B) : State S D B :=
  match s.cache c.req.path with
  | some e =>
    if s.now - e.storedAt < ttl then s.setStage i c (.leaving (some e.fetched))
    else s.setStage i c (.asking s.gen)
  | none => s.setStage i c (.asking s.gen)

/-- `readCache.put`. -/
def putStep (s : State S D B) (i : ℕ) (c : Call D B) (gen : ℕ) (f : Fetched B) : State S D B :=
  let s := if gen = s.gen then
      { s with cache := Function.update s.cache c.req.path (some ⟨f, s.now⟩) }
    else s
  s.setStage i c (.leaving (some f))

/-- `readCache.drop`. -/
def dropStep (s : State S D B) (i : ℕ) (c : Call D B) (ok : Bool) : State S D B :=
  { s with gen := s.gen + 1, cache := fun _ => none }.setStage i c (.closing ok c.applied)

def retStep (s : State S D B) (i : ℕ) (c : Call D B) : Option (State S D B) :=
  match c.stage with
  | .leaving (some f) =>
    some ({ s with answers := ⟨c.start, c.seen, f⟩ :: s.answers }.setStage i c (.over s.now))
  | .leaving none => some (s.setStage i c (.over s.now))
  | .closing ok atDrop =>
    let acks := (c.applied.map (fun v => Ack.mk v atDrop.isSome ok)).toList
    some ({ s with returned := acks ++ s.returned }.setStage i c (.over s.now))
  | _ => none

def callStep (srv : Server S D B) (ttl : ℕ) (s : State S D B) (i : ℕ) (c : Call D B) :
    Act S D → Option (State S D B)
  | .look _ =>
    match c.stage with
    | .look => some (lookStep ttl s i c)
    | _ => none
  | .serve _ =>
    match c.stage with
    | .asking gen => some (s.setStage i c
        (.got gen ⟨srv.serve c.req.path s.srv, s.version, s.now, i⟩))
    | _ => none
  | .apply _ =>
    -- a write can land as long as it has not, also after its call failed and even returned
    if c.req.writes ∧ c.applied = none then
      some (s.land i c (srv.apply c.req s.srv))
    else none
  | .reply _ =>
    match c.stage with
    | .sending =>
      if c.req.writes then
        if c.applied.isSome then some (s.setStage i c (.dropping true)) else none
      else some (s.setStage i c (.leaving none))
    | _ => none
  | .fail _ =>
    match c.stage with
    | .asking _ => some (s.setStage i c (.leaving none))
    | .got _ _ => some (s.setStage i c (.leaving none))
    | .sending =>
      if c.req.writes then some (s.setStage i c (.dropping false))
      else some (s.setStage i c (.leaving none))
    | _ => none
  | .put _ =>
    match c.stage with
    | .got gen f => some (putStep s i c gen f)
    | _ => none
  | .drop _ =>
    match c.stage with
    | .dropping ok => some (dropStep s i c ok)
    | _ => none
  | .ret _ => retStep s i c
  | _ => none

def Act.of : Act S D → Option ℕ
  | .wait _ => none
  | .outside _ => none
  | .call _ => none
  | .look i => some i
  | .serve i => some i
  | .apply i => some i
  | .reply i => some i
  | .fail i => some i
  | .put i => some i
  | .drop i => some i
  | .ret i => some i

def step (srv : Server S D B) (ttl : ℕ) (s : State S D B) (act : Act S D) : Option (State S D B) :=
  match act with
  | .wait d => some { s with now := s.now + d }
  -- LiteLLM has other clients
  | .outside srv' => some { s with srv := srv' }
  | .call req =>
      some { s with calls := s.calls ++ [⟨req, s.now, s.returned, none, firstStage req⟩] }
  | act => act.of.bind (fun i => (s.calls[i]?).bind (fun c => callStep srv ttl s i c act))

def start (srv₀ : S) : State S D B := ⟨0, srv₀, 0, 0, fun _ => none, [], [], []⟩

end AchProofs.Litellm.ReadCache
