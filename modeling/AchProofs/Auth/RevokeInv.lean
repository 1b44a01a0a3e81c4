import AchProofs.Auth.EndedSessions

namespace AchProofs.Auth

open Foundation

variable {cfg : Config} {s s' : State} {th : Thread} {n i : ℕ} {e : Effect}

/-- Every stamp there is was read before the counter last moved. -/
structure Stale (s : State) : Prop where
  pos : 0 < s.counter.moves
  cells : ∀ id cell, s.store id = some cell → cell.user.moves < s.counter.moves
  threads : ∀ th ∈ s.threads, th.user.moves < s.counter.moves

def revokes (th : Thread) (stage : Stage) : Prop :=
  (∃ keyID, th.caller = .endSessions (some keyID)) ∧ th.stage = stage

/-- How far a revoke has come, and what it has settled by then. -/
structure RevokeInv (n : ℕ) (s : State) : Prop where
  noLogin : ∀ th ∈ s.threads, ∀ tail, th.caller ≠ .login tail
  moved : ∀ th ∈ s.threads, revokes th .moved → Stale s
  ended : ∀ th ∈ s.threads, revokes th .ended → Stale s ∧ s.dexRefresh = none
  done : n < s.revoked → (Stale s ∧ s.dexRefresh = none) ∧ s.oauthPK = none ∧
    ∀ th ∈ s.threads, th.stage.mints = false

def State.flips (s : State) (keyID : ℕ) : Prop :=
  s.oauthPK.any (fun row => row.keyID = keyID) ∨ keyID ∈ s.otherPKs

/-- What a step of a revoke asks for: its two Redis operations work, and at the row flip the
user's oauth row, if any, is the one flipped and no request is past its last check. -/
def SafeRevoke (s : State) (th : Thread) (a : Answer) : Prop :=
  ∀ keyID, th.caller = .endSessions (some keyID) →
    (th.stage = .ending ∨ th.stage = .moved → a ≠ .fail) ∧
    (th.stage = .ended → s.flips keyID →
      (∀ row, s.oauthPK = some row → row.keyID = keyID) ∧
        ∀ t ∈ s.threads, t.stage.mints = false)

variable {t : Thread} {a : Answer}

theorem stale_settle (h : Stale s) (hth : th ∈ s.threads) (hf : UserFrame th.user s e.1)
    (hn : ∀ t, e.2 = some t → t.user = th.user) : Stale (s.settle i e) := by
  obtain ⟨hc, hst, -, -, -, -⟩ := settle_fields s i e
  refine ⟨?_, ?_, ?_⟩
  · rw [hc]
    exact Nat.lt_of_lt_of_le h.pos hf.moves_le
  · rw [hc, hst]
    intro id cell hcell
    obtain hold | hu := hf.users id cell hcell
    · exact Nat.lt_of_lt_of_le (h.cells id cell hold) hf.moves_le
    · rw [hu]
      exact Nat.lt_of_lt_of_le (h.threads th hth) hf.moves_le
  · rw [hc]
    intro t ht
    obtain hold | hnew := mem_settle ht
    · exact Nat.lt_of_lt_of_le (h.threads t hold) hf.moves_le
    · rw [hn t hnew]
      exact Nat.lt_of_lt_of_le (h.threads th hth) hf.moves_le

theorem stale_bump (h : Inv cfg s) (hth : th ∈ s.threads) (stage : Stage) :
    Stale (s.settle i (s.bump cfg, some (th.at stage))) := by
  refine ⟨Nat.succ_pos _, fun id cell hc => ?_, fun t ht => ?_⟩
  · exact Nat.lt_succ_of_le (h.cells id cell hc).moves_le
  · obtain hold | hnew := mem_settle ht
    · exact Nat.lt_succ_of_le (h.threads t hold).moves_le
    · cases hnew
      exact Nat.lt_succ_of_le (h.threads th hth).moves_le

/-- Once every stamp is left behind and the Dex token is gone, no request passes its last check. -/
theorem not_passesCheck (h : Inv cfg s) (hth : th ∈ s.threads) (hst : Stale s)
    (hdex : s.dexRefresh = none) (hm : th.stage.mints = false) (hstored : th.stage ≠ .stored) :
    ¬ PassesCheck s th := by
  have hok := h.threads th hth
  rintro (hmints | hs | ⟨hs, hr⟩ | ⟨-, hd⟩)
  · rw [hm] at hmints
    cases hmints
  · exact hstored hs
  · have hstage := hok.stage
    rw [StageOk, hs] at hstage
    obtain ⟨⟨clientID, presented, hc, -⟩, hlt⟩ := hstage
    have hn : s.counter.now < th.goodUntil :=
      Nat.lt_of_le_of_lt (hok.timed (by rw [hc]; rfl)) hlt
    have hcur := (hok.covered hn).current hr
    have := hst.threads th hth
    omega
  · simp [State.hasDexRefresh, hdex] at hd

theorem moved_of_step (h : Inv cfg s) (hth : th ∈ s.threads) (hsafe : SafeRevoke s th a)
    (he : threadStep cfg s th a = some e) (ht : e.2 = some t) (hn : Next s th t)
    (hr : revokes t .moved) : Stale (s.settle i e) := by
  obtain ⟨⟨keyID, hc⟩, hs⟩ := hr
  have hstage := hn.moved hs
  have hne := (hsafe keyID (hn.caller ▸ hc)).1 (.inl hstage)
  cases a <;> simp only [threadStep, hstage, reduceCtorEq] at he
  · cases he
    exact stale_bump h hth .moved
  · exact absurd rfl hne

theorem ended_of_step (hr₀ : RevokeInv n s) (hth : th ∈ s.threads) (hsafe : SafeRevoke s th a)
    (he : threadStep cfg s th a = some e) (hn : Next s th t) (hr : revokes t .ended) :
    Stale s ∧ e.1.dexRefresh = none := by
  obtain ⟨⟨keyID, hc⟩, hs⟩ := hr
  have hstage := hn.ended hs
  have hcaller : th.caller = .endSessions (some keyID) := hn.caller ▸ hc
  have hne := (hsafe keyID hcaller).1 (.inr hstage)
  refine ⟨hr₀.moved th hth ⟨⟨keyID, hcaller⟩, hstage⟩, ?_⟩
  cases a <;> simp only [threadStep, hstage, reduceCtorEq] at he
  · cases he
    rfl
  · exact absurd rfl hne

theorem flipStep_of_not_flips {keyID : ℕ} (h : ¬ s.flips keyID) : flipStep s keyID = s := by
  unfold State.flips at h
  rw [not_or] at h
  rw [flipStep, if_neg h.1, if_neg h.2]

theorem flipStep_oauthPK {keyID : ℕ} (h : ∀ row, s.oauthPK = some row → row.keyID = keyID) :
    (flipStep s keyID).oauthPK = none := by
  unfold flipStep
  cases hrow : s.oauthPK with
  | none =>
    simp only [Option.any_none, Bool.false_eq_true, if_false]
    split
    · rfl
    · exact hrow
  | some row => simp [State.revokeOAuthPK, hrow, h row hrow]

theorem done_of_ended (hr : RevokeInv n s) (hth : th ∈ s.threads) (hs : th.stage = .ended)
    (hsafe : SafeRevoke s th a) (he : threadStep cfg s th a = some e) (hrev : n < e.1.revoked) :
    (Stale s ∧ s.dexRefresh = none) ∧ e.1.oauthPK = none ∧
      ∀ t ∈ s.threads, t.stage.mints = false := by
  cases a <;> simp only [threadStep, hs, reduceCtorEq] at he
  · split at he
    · next keyID hc =>
      cases he
      by_cases hf : s.flips keyID
      · obtain ⟨hrow, hm⟩ := (hsafe keyID hc).2 hs hf
        exact ⟨hr.ended th hth ⟨⟨keyID, hc⟩, hs⟩, flipStep_oauthPK hrow, hm⟩
      · rw [flipStep_of_not_flips hf] at hrev ⊢
        exact hr.done hrev
    · cases he
      exact hr.done hrev
  · cases he
    exact hr.done hrev

/-- No request is a login, so none is where only logins are. -/
theorem RevokeInv.stage_ne (h : Inv cfg s) (hr : RevokeInv n s) (hth : th ∈ s.threads) :
    th.stage ≠ .arrived ∧ th.stage ≠ .stored := by
  have hst := (h.threads th hth).stage
  refine ⟨fun hs => ?_, fun hs => ?_⟩ <;>
  · rw [StageOk, hs] at hst
    obtain ⟨tail, hc⟩ := hst
    exact hr.noLogin th hth tail hc

theorem done_of_step (h : Inv cfg s) (hr : RevokeInv n s) (hth : th ∈ s.threads)
    (hsafe : SafeRevoke s th a) (he : threadStep cfg s th a = some e) (hrev : n < e.1.revoked) :
    (Stale s ∧ s.dexRefresh = none) ∧ e.1.oauthPK = none ∧
      ∀ t ∈ s.threads, t.stage.mints = false := by
  by_cases hended : th.stage = .ended
  · exact done_of_ended hr hth hended hsafe he hrev
  by_cases hmint : th.stage = .mint
  · have hsame : e.1.revoked = s.revoked := by
      cases a <;> simp only [threadStep, hmint, reduceCtorEq] at he <;> cases he
      · unfold mintStep
        split
        · exact (frame_giveUp s th).revoked
        · rfl
      · exact (frame_giveUp s th).revoked
    have hm := (hr.done (hsame ▸ hrev)).2.2 th hth
    rw [hmint] at hm
    cases hm
  · have hf := threadStep_frame he (hr.stage_ne h hth).1 hmint hended
    obtain ⟨hstale, hrow, hm⟩ := hr.done (hf.revoked ▸ hrev)
    exact ⟨hstale, hf.row hrow, hm⟩

theorem go_revokeInv (h : Inv cfg s) (hr : RevokeInv n s) (hth : th ∈ s.threads)
    (hsafe : SafeRevoke s th a) (he : threadStep cfg s th a = some e) :
    RevokeInv n (s.settle i e) := by
  obtain ⟨harrived, hstored⟩ := hr.stage_ne h hth
  have hf := threadStep_userFrame he
  have hfdex := threadStep_dex he harrived
  have hnext := threadStep_next he
  have huser : ∀ t, e.2 = some t → t.user = th.user := by
    intro t ht
    obtain hu | ⟨hs, -⟩ := (hnext t ht).user
    · exact hu
    · exact absurd hs hstored
  have hstale : Stale s → Stale (s.settle i e) := fun hs => stale_settle hs hth hf huser
  obtain ⟨-, -, hdex, hrow, hrev, -⟩ := settle_fields s i e
  refine ⟨?_, ?_, ?_, ?_⟩
  · intro t ht tail
    obtain hold | hnew := mem_settle ht
    · exact hr.noLogin t hold tail
    · rw [(hnext t hnew).caller]
      exact hr.noLogin th hth tail
  · intro t ht hm
    obtain hold | hnew := mem_settle ht
    · exact hstale (hr.moved t hold hm)
    · exact moved_of_step h hth hsafe he hnew (hnext t hnew) hm
  · intro t ht hm
    rw [hdex]
    obtain hold | hnew := mem_settle ht
    · obtain ⟨hs, hd⟩ := hr.ended t hold hm
      exact ⟨hstale hs, hfdex hd⟩
    · obtain ⟨hs, hd⟩ := ended_of_step hr hth hsafe he (hnext t hnew) hm
      exact ⟨hstale hs, hd⟩
  · rw [hrev, hdex, hrow]
    intro hlt
    obtain ⟨⟨hs, hd⟩, hnone, hm⟩ := done_of_step h hr hth hsafe he hlt
    refine ⟨⟨hstale hs, hfdex hd⟩, hnone, fun t ht => ?_⟩
    obtain hold | hnew := mem_settle ht
    · exact hm t hold
    · have hnot := not_passesCheck h hth hs hd (hm th hth) hstored
      exact Bool.eq_false_iff.mpr (fun hmints => hnot ((hnext t hnew).mints hmints))

end AchProofs.Auth
