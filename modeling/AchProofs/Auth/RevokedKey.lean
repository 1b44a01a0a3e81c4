import AchProofs.Auth.RevokeInv

namespace AchProofs.Auth

open Foundation Foundation.Run

variable {cfg : Config} {s s' : State} {n : ℕ}

theorem Stale.calls (h : Stale s) {a : Action} (hc : Calls s a s') : Stale s' := by
  refine ⟨hc.moves ▸ h.pos, fun id cell hcell => ?_, fun t ht => ?_⟩ <;> rw [hc.moves]
  · exact h.cells id cell (hc.store id cell hcell)
  · obtain hold | ⟨harr, -⟩ := hc.threads t ht
    · exact h.threads t hold
    · obtain hu | ⟨id, cell, hcell, hu⟩ := harr.user <;> rw [hu]
      · exact h.pos
      · exact h.cells id cell hcell

/-- The steps of a run from the start of a revoke on, in which no login arrives. When the revoke is
answered, no broker callback finds its chain any more: the probe mints without a check. -/
def SafeRevokeStep (cfg : Config) (n : ℕ) (s : State) (a : Action) : Prop :=
  SafeStep cfg s a ∧
    match a with
    | .login _ => False
    | .brokerCallback id => n < s.revoked → ∀ cell clientID, s.get id = some cell →
        cell.body ≠ .chain clientID
    | .go i answer => ∀ th, s.threads[i]? = some th → SafeRevoke s th answer
    | _ => True

theorem RevokeInv.calls (h : RevokeInv n s) {a : Action} (hsafe : SafeRevokeStep cfg n s a)
    (hc : Calls s a s') : RevokeInv n s' := by
  refine ⟨fun t ht tail hl => ?_, fun t ht hr => ?_, fun t ht hr => ?_, fun hlt => ?_⟩
  · obtain hold | ⟨harr, -⟩ := hc.threads t ht
    · exact h.noLogin t hold tail hl
    · cases harr.login tail hl
      exact hsafe.2
  · obtain hold | ⟨harr, -⟩ := hc.threads t ht
    · exact (h.moved t hold hr).calls hc
    · exact absurd hr.2 harr.stage.1
  · obtain hold | ⟨harr, -⟩ := hc.threads t ht
    · exact ⟨(h.ended t hold hr).1.calls hc, hc.dex.trans (h.ended t hold hr).2⟩
    · exact absurd hr.2 harr.stage.2
  · rw [hc.revoked] at hlt
    obtain ⟨⟨hs, hd⟩, hrow, hm⟩ := h.done hlt
    refine ⟨⟨hs.calls hc, hc.dex.trans hd⟩, hc.row hrow, fun t ht => ?_⟩
    obtain hold | ⟨harr, -⟩ := hc.threads t ht
    · exact hm t hold
    · by_contra hmints
      obtain ⟨id, cell, clientID, rfl, hget, hb⟩ := harr.mints (by simpa using hmints)
      exact hsafe.2 hlt cell clientID hget hb

theorem step_revokeInv (s : State) (a : Action) (s' : State) (h : Inv cfg s ∧ RevokeInv n s)
    (hsafe : SafeRevokeStep cfg n s a) (hs : step cfg s a = some s') :
    Inv cfg s' ∧ RevokeInv n s' := by
  refine ⟨step_inv s a s' h.1 hsafe.1 hs, ?_⟩
  obtain ⟨hi, hr⟩ := h
  by_cases hgo : ∃ i ans, a = .go i ans
  · obtain ⟨i, ans, rfl⟩ := hgo
    simp only [step] at hs
    split at hs
    · next th hth =>
      obtain ⟨e, he, rfl⟩ := Option.map_eq_some_iff.mp hs
      exact go_revokeInv hi hr (List.mem_of_getElem? hth) (hsafe.2 th hth) he
    · cases hs
  · exact hr.calls hsafe (calls_step hs (fun i ans heq => hgo ⟨i, ans, heq⟩))

def Quiet (s : State) : Prop :=
  ∀ th ∈ s.threads, (∀ tail, th.caller ≠ .login tail) ∧ ∀ key, th.caller ≠ .endSessions key

theorem revokeInv_of_quiet (h : Quiet s) : RevokeInv s.revoked s where
  noLogin := fun th hth => (h th hth).1
  moved := fun th hth ⟨⟨_, hc⟩, _⟩ => absurd hc ((h th hth).2 _)
  ended := fun th hth ⟨⟨_, hc⟩, _⟩ => absurd hc ((h th hth).2 _)
  done := fun hlt => absurd hlt (Nat.lt_irrefl _)

/-- From any state reached with no login and no revoke under way: once a revoke is answered, the
user has no oauth row in any state reached before the next login arrives. -/
theorem revoke_is_final {s₀ s₁ s : State} {as₀ as : List Action} (h₀ : Initial s₀)
    (hsafe₀ : Along (step cfg) (SafeStep cfg) s₀ as₀) (hrun₀ : run (step cfg) s₀ as₀ = some s₁)
    (hquiet : Quiet s₁) (hsafe : Along (step cfg) (SafeRevokeStep cfg s₁.revoked) s₁ as)
    (hrun : run (step cfg) s₁ as = some s) (hdone : s₁.revoked < s.revoked) : s.oauthPK = none := by
  have hi : Inv cfg s₁ := run_preserves step_inv (inv_of_initial h₀) hsafe₀ hrun₀
  have hr : Inv cfg s ∧ RevokeInv s₁.revoked s :=
    run_preserves step_revokeInv ⟨hi, revokeInv_of_quiet hquiet⟩ hsafe hrun
  exact (hr.2.done hdone).2.1

/-- A refresh grant waits for Dex while the row is revoked, and is then refused. -/
def revokeRun : List Action :=
  .present 2 7 :: goes [0, 0] ++ .endSessions (some 10) ::
    [.go 1 (.ok 0), .go 1 (.ok 0), .go 1 (.ok 0), .go 0 (.ok 0)]

theorem safeRevokeStep_go {th : Thread} {i fresh : ℕ} (hth : s.threads[i]? = some th)
    (h : SafeThread cfg s th) (hr : SafeRevoke s th (.ok fresh)) :
    SafeRevokeStep cfg n s (.go i (.ok fresh)) := by
  refine ⟨⟨trivial, fun th' hth' => ?_⟩, fun th' hth' => ?_⟩ <;> cases hth.symm.trans hth'
  · exact h
  · exact hr

theorem revoke_is_final_at_dex : ∃ s₁ s, run (step hourly) nobody loggedIn = some s₁ ∧
    run (step hourly) s₁ revokeRun = some s ∧ s₁.oauthPK.isSome ∧ s.threads = [] ∧
    s.oauthPK = none := by
  have hsafe₀ : Along (step hourly) (SafeStep hourly) nobody loggedIn := by
    iterate 9
      refine along_cons rfl ?_ ?_
      · first | exact ⟨trivial, trivial⟩ | exact safeStep_of_stage rfl nofun nofun
    trivial
  have hsafe : ∀ s₁, run (step hourly) nobody loggedIn = some s₁ →
      Along (step hourly) (SafeRevokeStep hourly s₁.revoked) s₁ revokeRun := by
    rintro _ ⟨⟩
    refine along_cons rfl ⟨⟨trivial, trivial⟩, trivial⟩ ?_
    refine along_cons rfl (safeRevokeStep_go rfl ⟨fun _ => by decide, nofun⟩ nofun) ?_
    refine along_cons rfl (safeRevokeStep_go rfl ⟨nofun, nofun⟩ nofun) ?_
    refine along_cons rfl ⟨⟨trivial, trivial⟩, trivial⟩ ?_
    iterate 2
      refine along_cons rfl (safeRevokeStep_go rfl ⟨nofun, nofun⟩ ?_) ?_
      · exact fun _ _ => ⟨fun _ => nofun, nofun⟩
    refine along_cons rfl (safeRevokeStep_go rfl ⟨nofun, nofun⟩ ?_) ?_
    · rintro _ ⟨⟩
      refine ⟨fun _ => nofun, fun _ _ => ⟨?_, by decide⟩⟩
      rintro _ ⟨⟩
      rfl
    exact along_cons rfl (safeRevokeStep_go rfl ⟨nofun, nofun⟩ nofun) trivial
  have hfinal := fun s₁ s hrun₀ hquiet hrun => revoke_is_final (s := s) ⟨rfl, fun _ => rfl⟩ hsafe₀
    hrun₀ hquiet (hsafe s₁ hrun₀) hrun
  exact ⟨_, _, rfl, rfl, rfl, rfl, hfinal _ _ rfl (by rintro th ⟨⟩) rfl (by decide)⟩

/-- The grant has passed its last check when the sessions are ended: it mints a row anew after the
revoke was answered. -/
def remintRun : List Action :=
  .present 2 7 :: goes [0, 0, 0, 0] ++ .endSessions (some 10) ::
    [.go 1 (.ok 0), .go 1 (.ok 0), .go 1 (.ok 0), .go 0 (.ok 0), .go 0 (.ok 11)]

theorem grant_in_flight_remints : ¬ ∀ (as₀ as : List Action) (s₁ s : State),
    run (step hourly) nobody as₀ = some s₁ → Quiet s₁ → (∀ tail, .login tail ∉ as) →
      run (step hourly) s₁ as = some s → s₁.revoked < s.revoked → s.oauthPK = none := by
  intro h
  have hf := h loggedIn remintRun _ _ rfl (by rintro th ⟨⟩) (by simp [remintRun, goes]) rfl
    (by decide)
  cases hf

end AchProofs.Auth
