import AchProofs.Operator.Reconcile

namespace AchProofs.Operator

open Foundation.Run

variable {σ ρ β : Type} {content : σ → ρ → Option β}

def Publishes (content : σ → ρ → Option β) (s : State σ ρ β) (source : σ) (rev : ρ) : Prop :=
  ∃ body, content source rev = some body ∧ s.file = some body

/-- What a reconcile may rely on at each stage. -/
def StageOk (content : σ → ρ → Option β) (s : State σ ρ β) (j : Job σ ρ β) : Prop :=
  match j.stage with
  | .checking =>
    (∀ t, j.skip t → s.status.observedGeneration = j.generation ∧ s.row ≠ none) ∧
      ∀ rev, j.priorRev = some rev →
        s.status.observedGeneration = j.generation ∧ s.row.map ExternalRef.upstreamRev = some rev
  | .staged rev body => content j.spec.source rev = some body
  | .renamed rev => Publishes content s j.spec.source rev
  | .materialized rev => s.row.map ExternalRef.upstreamRev = some rev ∧
      Publishes content s j.spec.source rev
  | .projected rev _ => s.row.map ExternalRef.upstreamRev = some rev ∧
      Publishes content s j.spec.source rev
  | .failing => True

def Job.isRenamed (j : Job σ ρ β) : Prop := ∃ rev, j.stage = .renamed rev

/-- The file is that of the recorded revision under the spec whose generation is recorded. -/
def RowMade (content : σ → ρ → Option β) (s : State σ ρ β) : Prop :=
  ∀ rw, s.row = some rw →
    (s.status.observedGeneration = s.generation →
      Publishes content s s.spec.source rw.upstreamRev) ∧
    ∀ j, s.job = some j → s.status.observedGeneration = j.generation →
      Publishes content s j.spec.source rw.upstreamRev

structure Inv (content : σ → ρ → Option β) (s : State σ ρ β) : Prop where
  observed_le : s.status.observedGeneration ≤ s.generation
  refreshed : s.status.lastSuccessfulRefresh ≠ none → s.row ≠ none
  job_spec : ∀ j, s.job = some j → j.generation ≤ s.generation ∧
    (j.generation = s.generation → j.spec = s.spec) ∧
    s.status.observedGeneration ≤ j.generation ∧ StageOk content s j
  made : (∀ j, s.job = some j → ¬ j.isRenamed) → RowMade content s

/-- A failing reconcile records its generation only over no row or over that same generation, and a
reconcile stops between its rename and its row only if there is no row or its generation is not
recorded. -/
def SafeStep (s : State σ ρ β) : Action σ ρ → Prop
  | .writeStatus => ∀ j, s.job = some j → j.stage = .failing →
      s.row = none ∨ s.status.observedGeneration = j.generation
  | .fail => ∀ j, s.job = some j → j.isRenamed →
      s.row = none ∨ s.status.observedGeneration ≠ j.generation
  | .restart => ∀ j, s.job = some j → j.isRenamed →
      s.row = none ∨ s.status.observedGeneration ≠ j.generation
  | _ => True

variable {j : Job σ ρ β} {s : State σ ρ β} {rev : ρ}

theorem not_renamed_of_stage (hj : s.job = some j) (h : ∀ rev, j.stage ≠ .renamed rev) :
    ∀ j', s.job = some j' → ¬ j'.isRenamed := by
  rintro j' hj' ⟨rev, hr⟩
  cases hj.symm.trans hj'
  exact h rev hr

theorem shouldSkipFetch_spec {r : Refresh} {last : Option ℕ} {og g : ℕ} {ann : Bool}
    {force : Option ℕ} {now : ℕ} (h : shouldSkipFetch r last og g ann force now = true) :
    og = g ∧ last ≠ none := by
  unfold shouldSkipFetch at h
  split at h
  · simp at h
  · simp at h
    exact ⟨h.1, by simp⟩

theorem RowMade.of_map (hm : RowMade content s)
    (hrev : s.row.map ExternalRef.upstreamRev = some rev) (hj : s.job = some j)
    (hobs : s.status.observedGeneration = j.generation) :
    Publishes content s j.spec.source rev := by
  obtain ⟨rw, hrow, rfl⟩ := Option.map_eq_some_iff.mp hrev
  exact (hm rw hrow).2 j hj hobs

/-- After the rename the file is already the new one: it agrees with the row only if there is none,
or if nothing will be read under the recorded generation. -/
theorem rowMade_of_renamed (hi : Inv content s) (hj : s.job = some j)
    (hsafe : s.row = none ∨ s.status.observedGeneration ≠ j.generation) : RowMade content s := by
  intro rw hrow
  obtain hnone | hne := hsafe
  · cases hnone.symm.trans hrow
  · obtain ⟨hle, -, hobs, -⟩ := hi.job_spec j hj
    refine ⟨fun h => by omega, fun j' hj' h => ?_⟩
    cases hj.symm.trans hj'
    exact absurd h hne

theorem inv_at {stage : Stage ρ β} (hi : Inv content s) (hj : s.job = some j)
    (hm : (∀ rev, stage ≠ .renamed rev) → RowMade content s)
    (hst : StageOk content s { j with stage }) : Inv content (s.at j stage) where
  observed_le := hi.observed_le
  refreshed := hi.refreshed
  job_spec := by
    rintro j' ⟨⟩
    obtain ⟨hle, hspec, hobs, -⟩ := hi.job_spec j hj
    exact ⟨hle, hspec, hobs, hst⟩
  made := by
    intro hr rw hrow
    have hne : ∀ rev, stage ≠ .renamed rev := fun rev h => hr _ rfl ⟨rev, h⟩
    obtain ⟨hspec, hjob⟩ := hm hne rw hrow
    refine ⟨hspec, ?_⟩
    rintro j' ⟨⟩
    exact hjob j hj

theorem inv_idle (hi : Inv content s) (hm : RowMade content s) :
    Inv content { s with job := none } where
  observed_le := hi.observed_le
  refreshed := hi.refreshed
  job_spec := by simp
  made := by
    intro _ rw hrow
    exact ⟨(hm rw hrow).1, by simp⟩

theorem inv_done (hi : Inv content s) (hj : s.job = some j)
    (hrev : s.row.map ExternalRef.upstreamRev = some rev)
    (hpub : Publishes content s j.spec.source rev) (t : ℕ) (synced force : Bool) :
    Inv content { s with
      job := none, status := ⟨j.generation, some t, synced⟩, forceRefresh := force } where
  observed_le := (hi.job_spec j hj).1
  refreshed := by
    intro _ hnone
    rw [show s.row = none from hnone] at hrev
    cases hrev
  job_spec := by simp
  made := by
    intro _ rw hrow
    obtain ⟨hle, hspec, -, -⟩ := hi.job_spec j hj
    rw [show s.row = some rw from hrow] at hrev
    cases hrev
    exact ⟨fun h => hspec h ▸ hpub, by simp⟩

theorem inv_failed (hi : Inv content s) (hj : s.job = some j) (hm : RowMade content s)
    (hsafe : s.row = none ∨ s.status.observedGeneration = j.generation) :
    Inv content { s with
      job := none
      status := { s.status with observedGeneration := j.generation, synced := false } } where
  observed_le := (hi.job_spec j hj).1
  refreshed := hi.refreshed
  job_spec := by simp
  made := by
    intro _ rw hrow
    obtain hnone | hobs := hsafe
    · cases hnone.symm.trans hrow
    · exact ⟨fun h => (hm rw hrow).1 (hobs.trans h), by simp⟩

theorem inv_start [DecidableEq ρ] (hi : Inv content s) (hj : s.job = none) :
    Inv content { s with job := some (startJob s) } where
  observed_le := hi.observed_le
  refreshed := hi.refreshed
  job_spec := by
    rintro j' ⟨⟩
    refine ⟨Nat.le_refl _, fun _ => rfl, hi.observed_le, ?_, ?_⟩
    · intro t ht
      obtain ⟨hobs, hlast⟩ := shouldSkipFetch_spec ht
      exact ⟨hobs, hi.refreshed hlast⟩
    · intro rev hrev
      have hp : priorRevision s = some rev := hrev
      unfold priorRevision at hp
      split at hp
      · next hobs => exact ⟨hobs, hp⟩
      · cases hp
  made := by
    intro _ rw hrow
    obtain ⟨hspec, -⟩ := hi.made (by simp [hj]) rw hrow
    refine ⟨hspec, ?_⟩
    rintro j' ⟨⟩
    exact hspec

theorem inv_edit (hi : Inv content s) (spec : Spec σ) :
    Inv content { s with spec, generation := s.generation + 1 } where
  observed_le := Nat.le_succ_of_le hi.observed_le
  refreshed := hi.refreshed
  job_spec := by
    intro j hj
    obtain ⟨hle, -, hobs, hst⟩ := hi.job_spec j hj
    exact ⟨Nat.le_succ_of_le hle, fun h => by simp only at h; omega, hobs, hst⟩
  made := by
    intro hr rw hrow
    have hle := hi.observed_le
    exact ⟨fun h => by simp only at h; omega, (hi.made hr rw hrow).2⟩

def mark (s : State σ ρ β) : State σ ρ β :=
  { s with row := s.row.map (fun r => { r with forceRequestedAt := some s.now }) }

theorem mark_rev (s : State σ ρ β) :
    (mark s).row.map ExternalRef.upstreamRev = s.row.map ExternalRef.upstreamRev := by
  cases h : s.row <;> simp [mark, h]

theorem mark_row_ne_none (h : s.row ≠ none) : (mark s).row ≠ none := by
  simpa [mark] using h

theorem stageOk_mark (h : StageOk content s j) : StageOk content (mark s) j := by
  unfold StageOk at h ⊢
  cases hs : j.stage with
  | checking =>
    rw [hs] at h
    refine ⟨fun t ht => ⟨(h.1 t ht).1, mark_row_ne_none (h.1 t ht).2⟩, fun rev hrev => ?_⟩
    rw [mark_rev]
    exact h.2 rev hrev
  | staged rev body =>
    rw [hs] at h
    exact h
  | renamed rev =>
    rw [hs] at h
    exact h
  | materialized rev =>
    simp only [hs] at h ⊢
    rw [mark_rev]
    exact h
  | projected rev t =>
    simp only [hs] at h ⊢
    rw [mark_rev]
    exact h
  | failing => trivial

theorem inv_mark (hi : Inv content s) : Inv content (mark s) where
  observed_le := hi.observed_le
  refreshed := fun h => mark_row_ne_none (hi.refreshed h)
  job_spec := by
    intro j hj
    obtain ⟨hle, hspec, hobs, hst⟩ := hi.job_spec j hj
    exact ⟨hle, hspec, hobs, stageOk_mark hst⟩
  made := by
    intro hr rw hrow
    obtain ⟨old, hold, rfl⟩ := Option.map_eq_some_iff.mp hrow
    exact hi.made hr old hold

theorem inv_congr {s' : State σ ρ β} (hi : Inv content s)
    (h : (s'.spec, s'.generation, s'.status, s'.row, s'.file, s'.job) =
      (s.spec, s.generation, s.status, s.row, s.file, s.job)) :
    Inv content s' := by
  obtain ⟨spec, gen, force, status, row, file, up, now, job⟩ := s'
  simp only [Prod.mk.injEq] at h
  obtain ⟨rfl, rfl, rfl, rfl, rfl, rfl⟩ := h
  exact ⟨hi.observed_le, hi.refreshed, hi.job_spec, hi.made⟩

theorem inv_rename {body : β} (hi : Inv content s) (hj : s.job = some j)
    (hbody : content j.spec.source rev = some body) :
    Inv content { s.at j (.renamed rev) with file := some body } where
  observed_le := hi.observed_le
  refreshed := hi.refreshed
  job_spec := by
    rintro j' ⟨⟩
    obtain ⟨hle, hspec, hobs, -⟩ := hi.job_spec j hj
    exact ⟨hle, hspec, hobs, body, hbody, rfl⟩
  made := fun hr => absurd ⟨rev, rfl⟩ (hr _ rfl)

theorem inv_upsert (hi : Inv content s) (hj : s.job = some j)
    (hpub : Publishes content s j.spec.source rev) :
    Inv content { s.at j (.materialized rev) with row := some ⟨rev, none⟩ } where
  observed_le := hi.observed_le
  refreshed := fun _ => by simp
  job_spec := by
    rintro j' ⟨⟩
    obtain ⟨hle, hspec, hobs, -⟩ := hi.job_spec j hj
    exact ⟨hle, hspec, hobs, rfl, hpub⟩
  made := by
    rintro - rw ⟨⟩
    obtain ⟨hle, hspec, hobs, -⟩ := hi.job_spec j hj
    refine ⟨fun h => hspec (Nat.le_antisymm hle (h ▸ hobs)) ▸ hpub, ?_⟩
    rintro j' ⟨⟩
    exact fun _ => hpub

theorem inv_restart (hi : Inv content s) (hsafe : SafeStep s .restart) :
    Inv content { s with job := none } := by
  by_cases hr : ∃ j, s.job = some j ∧ j.isRenamed
  · obtain ⟨j, hj, hren⟩ := hr
    exact inv_idle hi (rowMade_of_renamed hi hj (hsafe j hj hren))
  · exact inv_idle hi (hi.made (fun j hj hren => hr ⟨j, hj, hren⟩))

section Steps

variable [DecidableEq ρ]

theorem inv_fetch {s : State σ ρ β} {j : Job σ ρ β} (hi : Inv content s) (hj : s.job = some j)
    (hs : j.stage = .checking) : Inv content (fetchStep content s j) := by
  have hst := (hi.job_spec j hj).2.2.2
  have hm : RowMade content s := hi.made (not_renamed_of_stage hj (by simp [hs]))
  rw [StageOk, hs] at hst
  unfold fetchStep
  dsimp only
  split
  · next hprior =>
    obtain ⟨hobs, hrev⟩ := hst.2 _ hprior
    have hpub := hm.of_map hrev hj hobs
    exact inv_at hi hj (fun _ => hm) ⟨hrev, hpub⟩
  · split
    · next body hbody => exact inv_at hi hj (fun _ => hm) hbody
    · exact inv_at hi hj (fun _ => hm) trivial

theorem inv_jobStep {s s' : State σ ρ β} {j : Job σ ρ β} {a : Action σ ρ} (hi : Inv content s)
    (hj : s.job = some j) (hsafe : SafeStep s a) (h : jobStep content s j a = some s') :
    Inv content s' := by
  have hst := (hi.job_spec j hj).2.2.2
  have hm : (∀ rev, j.stage ≠ .renamed rev) → RowMade content s :=
    fun hne => hi.made (not_renamed_of_stage hj hne)
  cases hs : j.stage with
  | checking =>
    have hmade := hm (by simp [hs])
    cases a <;> simp only [jobStep, hs, reduceCtorEq] at h
    case skip =>
      split at h <;> cases h
      exact inv_idle hi hmade
    case fetch =>
      split at h <;> cases h
      exact inv_fetch hi hj hs
    case fail =>
      split at h <;> cases h
      exact inv_at hi hj (fun _ => hmade) trivial
  | staged rev body =>
    rw [StageOk, hs] at hst
    cases a <;> simp only [jobStep, hs, reduceCtorEq] at h
    case fail =>
      cases h
      exact inv_at hi hj (fun _ => hm (by simp [hs])) trivial
    case rename =>
      cases h
      exact inv_rename hi hj hst
  | renamed rev =>
    rw [StageOk, hs] at hst
    cases a <;> simp only [jobStep, hs, reduceCtorEq] at h
    case fail =>
      cases h
      exact inv_at hi hj (fun _ => rowMade_of_renamed hi hj (hsafe j hj ⟨rev, hs⟩)) trivial
    case upsert =>
      cases h
      exact inv_upsert hi hj hst
  | materialized rev =>
    have hmade := hm (by simp [hs])
    rw [StageOk, hs] at hst
    cases a <;> simp only [jobStep, hs, reduceCtorEq] at h
    case project =>
      cases h
      exact inv_at hi hj (fun _ => hmade) hst
    case fail =>
      cases h
      exact inv_idle hi hmade
    case conflict =>
      cases h
      exact inv_done hi hj hst.1 hst.2 _ _ _
  | projected rev t =>
    rw [StageOk, hs] at hst
    cases a <;> simp only [jobStep, hs, reduceCtorEq] at h
    case writeStatus =>
      cases h
      exact inv_done hi hj hst.1 hst.2 _ _ _
    case dropStatus =>
      cases h
      exact inv_idle hi (hm (by simp [hs]))
  | failing =>
    have hmade := hm (by simp [hs])
    cases a <;> simp only [jobStep, hs, reduceCtorEq] at h
    case writeStatus =>
      cases h
      exact inv_failed hi hj hmade (hsafe j hj hs)
    case dropStatus =>
      cases h
      exact inv_idle hi hmade

theorem inv_step (s : State σ ρ β) (a : Action σ ρ) (s' : State σ ρ β) (hi : Inv content s)
    (hsafe : SafeStep s a) (h : step content s a = some s') : Inv content s' := by
  cases a
  case edit spec =>
    cases h
    exact inv_edit hi spec
  case move upstream =>
    cases h
    exact inv_congr hi rfl
  case annotate force =>
    cases h
    exact inv_congr hi rfl
  case requestRefresh =>
    cases h
    exact inv_mark hi
  case wait d =>
    cases h
    exact inv_congr hi rfl
  case restart =>
    cases h
    exact inv_restart hi hsafe
  case start =>
    simp only [step] at h
    split at h <;> cases h
    next hj => exact inv_start hi hj
  all_goals
    obtain ⟨j, hj, hstep⟩ := Option.bind_eq_some_iff.mp h
    exact inv_jobStep hi hj hsafe hstep

end Steps

end AchProofs.Operator
