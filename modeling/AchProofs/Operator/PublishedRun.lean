import AchProofs.Operator.Published

namespace AchProofs.Operator

open Foundation.Run

variable {σ ρ β : Type} {content : σ → ρ → Option β}

def Fresh (s : State σ ρ β) : Prop :=
  s.job = none ∧ s.row = none ∧ s.status = ⟨0, none, false⟩

def EndsCurrent (s : State σ ρ β) (a : Action σ ρ) (j : Job σ ρ β) : Prop :=
  s.job = some j ∧ (a = .skip ∨ a = .writeStatus ∧ ∃ rev t, j.stage = .projected rev t)

def FollowsSpec (content : σ → ρ → Option β) (s : State σ ρ β) (spec : Spec σ) : Prop :=
  ∃ rw, s.row = some rw ∧ Publishes content s spec.source rw.upstreamRev

theorem inv_of_fresh {s : State σ ρ β} (h : Fresh s) : Inv content s := by
  obtain ⟨hj, hrow, hst⟩ := h
  refine ⟨?_, ?_, ?_, ?_⟩
  · rw [hst]
    exact Nat.zero_le _
  · rw [hst]
    exact fun hne => absurd rfl hne
  · intro j hj'
    cases hj.symm.trans hj'
  · intro _ rw hrw
    cases hrow.symm.trans hrw

theorem follows_of_map {s : State σ ρ β} {spec : Spec σ} {rev : ρ}
    (hrev : s.row.map ExternalRef.upstreamRev = some rev)
    (hpub : Publishes content s spec.source rev) : FollowsSpec content s spec := by
  obtain ⟨rw, hrow, rfl⟩ := Option.map_eq_some_iff.mp hrev
  exact ⟨rw, hrow, hpub⟩

variable [DecidableEq ρ]

theorem follows_of_skip {s s' : State σ ρ β} {j : Job σ ρ β} (hi : Inv content s)
    (hj : s.job = some j) (h : step content s .skip = some s') : FollowsSpec content s' j.spec := by
  obtain ⟨j', hj', hstep⟩ := Option.bind_eq_some_iff.mp h
  cases hj.symm.trans hj'
  have hst := (hi.job_spec j hj).2.2.2
  cases hs : j.stage <;> simp only [jobStep, hs, reduceCtorEq] at hstep
  split at hstep <;> cases hstep
  next hskip =>
    rw [StageOk, hs] at hst
    obtain ⟨hobs, hne⟩ := hst.1 s.now hskip
    obtain ⟨rw, hrow⟩ := Option.ne_none_iff_exists'.mp hne
    have hm := hi.made (not_renamed_of_stage hj (by simp [hs]))
    exact ⟨rw, hrow, (hm rw hrow).2 j hj hobs⟩

theorem follows_of_synced {s s' : State σ ρ β} {j : Job σ ρ β} {rev : ρ} {t : ℕ}
    (hi : Inv content s) (hj : s.job = some j) (hs : j.stage = .projected rev t)
    (h : step content s .writeStatus = some s') : FollowsSpec content s' j.spec := by
  obtain ⟨j', hj', hstep⟩ := Option.bind_eq_some_iff.mp h
  cases hj.symm.trans hj'
  have hst := (hi.job_spec j hj).2.2.2
  rw [StageOk, hs] at hst
  simp only [jobStep, hs] at hstep
  cases hstep
  exact follows_of_map hst.1 hst.2

/-- In every run whose steps are safe, whenever a reconcile is skipped or ends synced, the file is
the full fetch of the spec of its generation at the recorded revision. -/
theorem published_follows_spec {s₀ s s' : State σ ρ β} {as : List (Action σ ρ)} {a : Action σ ρ}
    {j : Job σ ρ β} (h₀ : Fresh s₀) (hsafe : Along (step content) SafeStep s₀ as)
    (hrun : run (step content) s₀ as = some s) (hstep : step content s a = some s')
    (hend : EndsCurrent s a j) : FollowsSpec content s' j.spec := by
  have hi : Inv content s := run_preserves inv_step (inv_of_fresh h₀) hsafe hrun
  obtain ⟨hj, rfl | ⟨rfl, rev, t, hs⟩⟩ := hend
  · exact follows_of_skip hi hj hstep
  · exact follows_of_synced hi hj hs hstep

/-- A spec with no filter: the source is the path, and the body at a path is the path itself. -/
def pathSpec (path : Bool) : Spec Bool := ⟨path, ⟨none, 0⟩⟩

def pathContent : Bool → Unit → Option Bool := fun path _ => some path

def created : State Bool Unit Bool where
  spec := pathSpec false
  generation := 1
  forceRefresh := false
  status := ⟨0, none, false⟩
  row := none
  file := none
  upstream := fun _ => ()
  now := 0
  job := none

def fullReconcile : List (Action Bool Unit) := [.start, .fetch, .rename, .upsert, .project]

theorem published_after_edit : ∃ s s' j,
    run (step pathContent) created (fullReconcile ++ [.writeStatus, .edit (pathSpec true)] ++
      fullReconcile) = some s ∧ step pathContent s .writeStatus = some s' ∧
      EndsCurrent s .writeStatus j ∧ j.spec.source = true ∧ FollowsSpec pathContent s' j.spec := by
  have hsafe : Along (step pathContent) SafeStep created
      (fullReconcile ++ [.writeStatus, .edit (pathSpec true)] ++ fullReconcile) := by
    iterate 5 refine along_cons rfl trivial ?_
    refine along_cons rfl ?_ ?_
    · rintro j ⟨⟩ hs
      cases hs
    iterate 6 refine along_cons rfl trivial ?_
    trivial
  have hfollows := fun s s' j hrun hstep => published_follows_spec (s := s) (a := .writeStatus)
    (j := j) ⟨rfl, rfl, rfl⟩ hsafe hrun (hstep : _ = some s')
  have hend := fun (s : State Bool Unit Bool) j (hj : s.job = some j)
    (hs : j.stage = .projected () 0) => (⟨hj, .inr ⟨rfl, (), 0, hs⟩⟩ : EndsCurrent s .writeStatus j)
  exact ⟨_, _, _, rfl, rfl, hend _ _ rfl rfl, rfl, hfollows _ _ _ rfl rfl (hend _ _ rfl rfl)⟩

/-- The path is edited while the commit stands, the fetch of the new path fails, and the failure
records the new generation: the next reconcile is skipped over the file of the old path. -/
theorem skipped_over_old_path : ¬ ∀ (as : List (Action Bool Unit)) s s' a j,
    run (step pathContent) created as = some s → step pathContent s a = some s' →
      EndsCurrent s a j → FollowsSpec pathContent s' j.spec := by
  intro h
  have hf := h (fullReconcile ++ [.writeStatus, .edit (pathSpec true), .start, .fail, .writeStatus,
    .start]) _ _ .skip _ rfl rfl ⟨rfl, .inl rfl⟩
  obtain ⟨rw, hrow, body, hbody, hfile⟩ := hf
  cases hbody
  cases hfile

/-- The same failure, seen by the conditional fetch after the interval: the commit is the recorded
one, so the resource ends synced with the file of the old path. -/
example : ∃ s s', run (step pathContent) created (fullReconcile ++ [.writeStatus,
    .edit (pathSpec true), .start, .fail, .writeStatus, .wait hour, .start, .fetch, .project]) =
      some s ∧ step pathContent s .writeStatus = some s' ∧ s'.status = ⟨2, some hour, true⟩ ∧
      s'.file = some false :=
  ⟨_, _, rfl, rfl, rfl, rfl⟩

end AchProofs.Operator
