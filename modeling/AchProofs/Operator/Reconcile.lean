import AchProofs.Foundation.Run

namespace AchProofs.Operator

/-- Durations and times are in nanoseconds. -/
structure Refresh where
  interval : Option ℕ
  maxStaleness : ℕ
deriving DecidableEq

def hour : ℕ := 3600000000000

def requeueDurationFromRefresh (r : Refresh) : ℕ :=
  match r.interval with
  | some (n + 1) => n + 1
  | _ => if 0 < r.maxStaleness then r.maxStaleness / 2 else hour

def shouldSkipFetch (refresh : Refresh) (lastRefresh : Option ℕ) (observedGen generation : ℕ)
    (forceRefresh : Bool) (forceRequestedAt : Option ℕ) (now : ℕ) : Bool :=
  match lastRefresh with
  | none => false
  | some last =>
    observedGen = generation ∧ forceRefresh = false ∧
      (∀ at_ ∈ forceRequestedAt, at_ ≤ last) ∧ now < last + requeueDurationFromRefresh refresh

/-- The parts of a spec the driver reads: what is fetched and how it is narrowed, and the refresh
block. -/
structure Spec (σ : Type) where
  source : σ
  refresh : Refresh

structure ExternalRef (ρ : Type) where
  upstreamRev : ρ
  forceRequestedAt : Option ℕ

/-- How far a reconcile has come. -/
inductive Stage (ρ β : Type) where
  | checking
  | staged (rev : ρ) (body : β)
  | renamed (rev : ρ)
  | materialized (rev : ρ)
  | projected (rev : ρ) (refreshedAt : ℕ)
  | failing

/-- A reconcile under way, with what it read when it started. -/
structure Job (σ ρ β : Type) where
  spec : Spec σ
  generation : ℕ
  priorRev : Option ρ
  forced : Bool
  skip : ℕ → Bool
  stage : Stage ρ β

structure Status where
  observedGeneration : ℕ
  lastSuccessfulRefresh : Option ℕ
  synced : Bool
deriving DecidableEq

/-- One content resource, its status and row, the file at its published path and the world around
it. At most one reconcile of a resource is under way. -/
structure State (σ ρ β : Type) where
  spec : Spec σ
  generation : ℕ
  forceRefresh : Bool
  status : Status
  row : Option (ExternalRef ρ)
  file : Option β
  upstream : σ → ρ
  now : ℕ
  job : Option (Job σ ρ β)

inductive Action (σ ρ : Type) where
  | edit (spec : Spec σ)
  | move (upstream : σ → ρ)
  | annotate (force : Bool)
  | requestRefresh
  | wait (d : ℕ)
  | start
  | skip
  | fetch
  | fail
  | rename
  | upsert
  | project
  | conflict
  | writeStatus
  | dropStatus
  | restart

variable {σ ρ β : Type} [DecidableEq ρ]

def priorRevision (s : State σ ρ β) : Option ρ :=
  if s.status.observedGeneration = s.generation then s.row.map ExternalRef.upstreamRev else none

def startJob (s : State σ ρ β) : Job σ ρ β where
  spec := s.spec
  generation := s.generation
  priorRev := priorRevision s
  forced := s.forceRefresh
  skip := shouldSkipFetch s.spec.refresh s.status.lastSuccessfulRefresh s.status.observedGeneration
    s.generation s.forceRefresh (s.row.bind ExternalRef.forceRequestedAt)
  stage := .checking

def State.at (s : State σ ρ β) (j : Job σ ρ β) (stage : Stage ρ β) : State σ ρ β :=
  { s with job := some { j with stage } }

/-- The fetch step. The fetcher answers that nothing changed exactly when the upstream revision is
the prior one; a full fetch yields the body of the spec at the upstream revision after the filter
and wrap step of the kind, if that body is acceptable at all. -/
def fetchStep (content : σ → ρ → Option β) (s : State σ ρ β) (j : Job σ ρ β) : State σ ρ β :=
  let rev := s.upstream j.spec.source
  if j.priorRev = some rev then s.at j (.materialized rev)
  else match content j.spec.source rev with
    | some body => s.at j (.staged rev body)
    | none => s.at j .failing

def jobStep (content : σ → ρ → Option β) (s : State σ ρ β) (j : Job σ ρ β) (a : Action σ ρ) :
    Option (State σ ρ β) :=
  match j.stage, a with
  | .checking, .skip => if j.skip s.now then some { s with job := none } else none
  | .checking, .fetch => if j.skip s.now then none else some (fetchStep content s j)
  | .checking, .fail => if j.skip s.now then none else some (s.at j .failing)
  | .staged _ _, .fail => some (s.at j .failing)
  | .staged rev body, .rename => some { s.at j (.renamed rev) with file := some body }
  | .renamed _, .fail => some (s.at j .failing)
  | .renamed rev, .upsert => some { s.at j (.materialized rev) with row := some ⟨rev, none⟩ }
  | .materialized rev, .project => some (s.at j (.projected rev s.now))
  | .materialized _, .fail => some { s with job := none }
  | .materialized _, .conflict =>
    some { s with job := none, status := ⟨j.generation, some s.now, false⟩ }
  | .projected _ refreshedAt, .writeStatus =>
    some { s with
      job := none
      status := ⟨j.generation, some refreshedAt, true⟩
      forceRefresh := s.forceRefresh && !j.forced }
  | .projected _ _, .dropStatus => some { s with job := none }
  | .failing, .writeStatus =>
    some { s with
      job := none
      status := { s.status with observedGeneration := j.generation, synced := false } }
  | .failing, .dropStatus => some { s with job := none }
  | _, _ => none

def step (content : σ → ρ → Option β) (s : State σ ρ β) : Action σ ρ → Option (State σ ρ β)
  | .edit spec => some { s with spec, generation := s.generation + 1 }
  | .move upstream => some { s with upstream }
  | .annotate force => some { s with forceRefresh := force }
  | .requestRefresh =>
    some { s with row := s.row.map (fun r => { r with forceRequestedAt := some s.now }) }
  | .wait d => some { s with now := s.now + d }
  | .restart => some { s with job := none }
  | .start =>
    match s.job with
    | none => some { s with job := some (startJob s) }
    | some _ => none
  | a => s.job.bind (fun j => jobStep content s j a)

end AchProofs.Operator
