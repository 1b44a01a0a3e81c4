import AchProofs.Foundation.Run

/-!
The life of one environment key: suspend, resume and revoke requests and the drains of its
environment's finalizer, interleaved. A request reads the row, decides on what it read, asks other
services, runs one conditional update and, if that matched no row, reads again.
-/

namespace AchProofs.Keys.Lifecycle

inductive Status where
  | active
  | suspended
  | revoked
deriving DecidableEq, Repr

structure Row where
  status : Status
  expiresAt : Option ℕ
deriving DecidableEq, Repr

def Row.expired (row : Row) (now : ℕ) : Bool :=
  match row.expiresAt with
  | none => false
  | some t => !decide (now < t)

inductive Op where
  | suspend
  | resume
  | revoke
deriving DecidableEq, Repr

/-- The conditional update of an operation, nothing if it matches no row. -/
def update (op : Op) (row : Row) (now : ℕ) : Option Row :=
  match op with
  | .suspend => if row.status = .active then some { row with status := .suspended } else none
  | .resume =>
    if row.status = .suspended ∧ row.expiresAt.all (fun t => now < t) then
      some { row with status := .active }
    else none
  | .revoke => if row.status ≠ .revoked then some { row with status := .revoked } else none

def drain (row : Row) : Row := if row.status ≠ .revoked then { row with status := .revoked }
    else row

inductive Reply where
  | noContent
  | error (status : ℕ) (code message : String)
deriving DecidableEq, Repr

def internalError : Reply := .error 500 "internal_error" "internal error"

/-- Who asks: the credential they come with, and whether they own the key or are an admin. -/
structure Caller where
  personalKey : Bool
  owner : Bool
  admin : Bool

inductive Stage where
  | load
  | judge (row : Row)
  | environment
  | teams
  | litellm
  | update
  | updated
  | reread
  | rejudge (row : Row)
  | reply (r : Reply)
deriving DecidableEq, Repr

/-- How an operation on another service ends: it works, fails, is carried out but reported as
failed, finds nothing, or is rejected. -/
inductive Outcome where
  | ok
  | fail
  | lost
  | absent
  | rejected
deriving DecidableEq, Repr

/-- `loadOwnedEk`, for the row of a key. -/
def loadStage (caller : Caller) (row : Row) (outcome : Outcome) : Stage :=
  if !caller.personalKey then
    .reply (.error 401 "invalid_key_type" "ek_ may not manage env-keys")
  else if outcome ≠ .ok then .reply internalError
  else if !caller.owner && !caller.admin then
    .reply (.error 403 "not_key_owner" "caller does not own this key")
  else .judge row

def judgeStage (op : Op) (row : Row) (now : ℕ) : Stage :=
  match op with
  | .suspend =>
    if row.status = .revoked then
      .reply (.error 409 "key_revoked" "a revoked key cannot be suspended")
    else if row.expired now then
      .reply (.error 409 "key_expired" "an expired key cannot be suspended")
    else if row.status = .suspended then .reply .noContent
    else .update
  | .resume =>
    if row.status = .revoked then
      .reply (.error 409 "key_revoked" "a revoked key cannot be resumed")
    else if row.expired now then
      .reply (.error 409 "key_expired" "an expired key cannot be resumed")
    else if row.status = .active then .reply .noContent
    else .environment
  | .revoke => if row.status = .revoked then .reply .noContent else .litellm

/-- `conflictFor` on the row it has read. -/
def conflictReply (row : Row) (now : ℕ) : Reply :=
  if row.status = .revoked then .error 409 "key_revoked" "key was revoked"
  else if row.expired now then .error 409 "key_expired" "key has expired"
  else .noContent

/-- The row after the update of a request, and how the request goes on. A revocation does not look
whether its update has matched. -/
def updateStage (op : Op) (row : Row) (now : ℕ) (outcome : Outcome) : Row × Stage :=
  match outcome with
  | .ok =>
    match update op row now with
    | some row' => (row', .updated)
    | none => (row, if op = .revoke then .updated else .reread)
  | .lost => ((update op row now).getD row, .reply internalError)
  | _ => (row, .reply internalError)

def requestStep (op : Op) (caller : Caller) (row : Row) (now : ℕ) (outcome : Outcome) :
    Stage → Option (Row × Stage)
  | .load => some (row, loadStage caller row outcome)
  | .judge seen => some (row, judgeStage op seen now)
  | .environment =>
    match outcome with
    | .ok => some (row, .teams)
    | .absent => some (row, .reply (.error 403 "unauthorized_team" "environment is not available"))
    | _ => some (row, .reply internalError)
  | .teams =>
    match outcome with
    | .ok => some (row, .update)
    | .absent =>
      some (row,
        .reply (.error 403 "unauthorized_team" "owner no longer has access to this environment"))
    | _ => some (row, .reply (.error 503 "litellm_unreachable" "upstream LiteLLM unreachable"))
  | .litellm =>
    match outcome with
    | .ok => some (row, .update)
    | .absent => some (row, .update)
    | .rejected => some (row, .reply (.error 502 "litellm_rejected" "litellm rejected the request"))
    | _ => some (row, .reply (.error 503 "litellm_unreachable" "litellm unreachable"))
  | .update => some (updateStage op row now outcome)
  | .updated => some (row, .reply .noContent)
  | .reread => if outcome = .ok then some (row, .rejudge row) else some (row, .reply internalError)
  | .rejudge seen => some (row, .reply (conflictReply seen now))
  | .reply _ => none

/-- The row at an instant. -/
structure Snapshot where
  now : ℕ
  row : Row

/-- A request under way, with the row at every instant since it started. -/
structure Request where
  op : Op
  caller : Caller
  stage : Stage
  seen : List Snapshot

/-- A request that has been answered, with the row at every instant from its start to its answer,
and at its answer. -/
structure Answered where
  op : Op
  reply : Reply
  seen : List Snapshot
  last : Snapshot

structure World where
  now : ℕ
  row : Row
  requests : List Request
  answers : List Answered

def World.current (s : World) : Snapshot := ⟨s.now, s.row⟩

inductive Act where
  | start (op : Op) (caller : Caller)
  | go (i : ℕ) (outcome : Outcome)
  | drain
  | wait (d : ℕ)

def Request.see (x : Snapshot) (q : Request) : Request := { q with seen := x :: q.seen }

def World.see (s : World) : World := { s with requests := s.requests.map (Request.see s.current) }

def step (s : World) : Act → Option World
  | .start op caller =>
      some (World.see { s with requests := s.requests ++ [⟨op, caller, .load, []⟩] })
  | .go i outcome =>
    match s.requests[i]? with
    | none => none
    | some q =>
      match q.stage with
      | .reply r =>
        some { s with
          requests := s.requests.eraseIdx i,
          answers := s.answers ++ [⟨q.op, r, q.seen, s.current⟩] }
      | stage =>
        (requestStep q.op q.caller s.row s.now outcome stage).map fun next =>
          World.see { s with
            row := next.1
            requests := s.requests.set i { q with stage := next.2 } }
  | .drain => some (World.see { s with row := Lifecycle.drain s.row })
  | .wait d => some (World.see { s with now := s.now + d })

end AchProofs.Keys.Lifecycle
