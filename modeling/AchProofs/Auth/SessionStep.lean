import AchProofs.Auth.SessionInv

namespace AchProofs.Auth

open Foundation

variable {cfg : Config} {s : State} {th : Thread}

/-- What a step of one request leaves behind. -/
structure EffectOk (cfg : Config) (ts : List Thread) (e : Effect) : Prop where
  inv : Inv cfg e.1
  threads : e.1.threads = ts
  next : ∀ t, e.2 = some t → ThreadOk cfg e.1.counter t

theorem EffectOk.done {s' : State} (h : Inv cfg s') (ht : s'.threads = s.threads) :
    EffectOk cfg s.threads (s', none) := ⟨h, ht, by simp⟩

theorem EffectOk.goes {s' : State} {t : Thread} (h : Inv cfg s') (ht : s'.threads = s.threads)
    (hok : ThreadOk cfg s'.counter t) : EffectOk cfg s.threads (s', some t) :=
  ⟨h, ht, by rintro _ ⟨⟩; exact hok⟩

theorem refuse_ok (h : Inv cfg s) (th : Thread) : EffectOk cfg s.threads (refuse s th) := by
  unfold refuse
  split
  · exact .done h.del rfl
  · exact .done h rfl

theorem giveUp_ok (h : Inv cfg s) (ht : ThreadOk cfg s.counter th)
    (hp : ∀ clientID id, th.caller = .token clientID (some id) →
      th.started + rotatingTTL + cfg.refreshTTL ≤ th.goodUntil)
    (hl : ∀ tail, th.caller = .login tail → th.Fresh cfg) :
        EffectOk cfg s.threads (giveUp s th) := by
  unfold giveUp
  split
  · next clientID id hc => exact .goes h rfl (ht.at (hp clientID id hc))
  · next hc =>
    split
    · exact .done h rfl
    · exact .goes h rfl (ht.at (hl _ hc).lasting)
  · exact .done h rfl

theorem giveUp_ok_of_lasting (h : Inv cfg s) (ht : ThreadOk cfg s.counter th)
    (hf : th.Lasting cfg) :
    EffectOk cfg s.threads (giveUp s th) :=
  giveUp_ok h ht (fun _ _ hc => (hf.fresh (by simp [hc])).1) (fun _ hc => hf.fresh (by simp [hc]))

theorem heldStep_ok (h : Inv cfg s) (ht : ThreadOk cfg s.counter th) (hn : s.now < th.goodUntil) :
    EffectOk cfg s.threads (heldStep cfg s th) := by
  unfold heldStep
  split
  · next hr =>
    have hgo : EffectOk cfg s.threads (s.slide cfg, some (th.passed cfg .dexGet)) :=
      .goes h.slide rfl (ht.passed hn hr (fun hf _ => hf))
    split
    · split
      · exact .done h.slide rfl
      · exact hgo
    · exact hgo
  · exact refuse_ok h.slide th

theorem dexAskStep_ok (h : Inv cfg s) (ht : ThreadOk cfg s.counter th)
    (hf : th.caller ≠ .recheck → th.Fresh cfg) : EffectOk cfg s.threads (dexAskStep cfg s th) := by
  have hs : Inv cfg { s with dexRefresh := some (s.now + cfg.refreshTTL) } := h.congr rfl
  unfold dexAskStep
  split
  · dsimp only
    split
    · next clientID presented hc =>
      obtain ⟨hext, -⟩ := hf (by simp [hc])
      refine .goes hs rfl (ht.at ⟨⟨clientID, presented, hc, fun _ => hext⟩, ?_⟩)
      have := cfg.hour_le
      simp only [Thread.at]
      omega
    · next hc => exact .goes hs rfl (ht.at (hf (by simp [hc])).lasting)
    · exact .done hs rfl
  · exact refuse_ok h th

theorem issueStep_ok (h : Inv cfg s) (ht : ThreadOk cfg s.counter th)
    (hst : StageOk cfg (th.at .issue)) : EffectOk cfg s.threads (issueStep cfg s th) := by
  obtain ⟨⟨clientID, presented, hc, hext⟩, hlt⟩ := hst
  have hn : s.now < th.goodUntil :=
    Nat.lt_of_le_of_lt (ht.timed (by rw [show th.caller = _ from hc]; rfl)) hlt
  unfold issueStep
  split
  · next hr => exact .goes h.slide rfl (ht.passed hn hr Thread.Fresh.lasting)
  · refine giveUp_ok h.slide ht.slide (fun clientID' id hc' => hext ?_) (fun tail hc' => ?_)
    · cases hc.symm.trans hc'
      simp
    · cases hc.symm.trans hc'

theorem lookupStep_ok (h : Inv cfg s) (ht : ThreadOk cfg s.counter th) (hf : th.Lasting cfg) :
    EffectOk cfg s.threads (lookupStep s th) := by
  unfold lookupStep
  split
  · exact .goes h rfl (ht.at hf)
  · exact .goes h rfl (ht.at hf)

theorem mintStep_ok (h : Inv cfg s) (ht : ThreadOk cfg s.counter th) (hf : th.Lasting cfg)
    (fresh : ℕ) : EffectOk cfg s.threads (mintStep s th fresh) := by
  unfold mintStep
  split
  · exact giveUp_ok_of_lasting h ht hf
  · exact .goes (h.congr rfl) rfl (ht.at hf)

theorem afterStamp_cases (caller : Caller) :
    afterStamp caller = .lookup ∨ afterStamp caller = .answer := by
  unfold afterStamp
  split <;> simp

theorem stampStep_ok (h : Inv cfg s) (ht : ThreadOk cfg s.counter th) :
    EffectOk cfg s.threads (stampStep cfg s th) := by
  refine .goes h.slide rfl ⟨ht.slide.since_le, ht.slide.started_le, ht.slide.timed, ?_, ht.web, ?_,
    ?_⟩
  · exact Nat.le_of_eq GenCounter.slide_moves.symm
  · have hle := ht.started_le
    refine fun _ => GenCounter.covers_stamp (sessionGenTTL_pos cfg) ?_
    simp only [Thread.passed, Config.sessionGenTTL]
    omega
  · have hf : ∀ stage, Thread.Lasting cfg
        ({ th with user := ⟨s.counter.stamp, th.serial⟩ }.passed cfg stage) :=
      fun _ => (fresh_passed ht.since_le).lasting
    obtain hst | hst := afterStamp_cases th.caller <;> rw [hst] <;> exact hf _

theorem cellOk_of_thread (ht : ThreadOk cfg s.counter th) {body : Body} {ttl : ℕ}
    (hle : s.now + ttl + body.slack ≤ th.goodUntil)
    (hw : ∀ r x, body = .websession r x → x ≤ s.now + cfg.refreshTTL) :
    CellOk cfg s.counter ⟨body, th.user, s.now + ttl⟩ where
  moves_le := ht.moves_le
  covered := fun hn => (ht.covered (Nat.lt_of_lt_of_le hn hle)).mono hle
  web := hw

theorem Inv.put_thread (h : Inv cfg s) (ht : ThreadOk cfg s.counter th) (hf : th.Fresh cfg)
    (htimed : th.caller.timed) (id : ℕ) {body : Body} {ttl : ℕ}
    (hle : ttl + body.slack ≤ cfg.refreshTTL)
    (hw : ∀ r x, body = .websession r x → x ≤ s.now + cfg.refreshTTL) :
    Inv cfg (s.put id body th.user ttl) := by
  refine h.put (cellOk_of_thread ht ?_ hw)
  have := ht.timed htimed
  have := hf.1
  unfold State.now
  omega

theorem answerStep_inv (h : Inv cfg s) (ht : ThreadOk cfg s.counter th)
    (hst : StageOk cfg (th.at .answer)) (fresh : ℕ) : Inv cfg (answerStep cfg s th fresh) := by
  have hhour := cfg.hour_le
  have hlasting : th.Lasting cfg := hst
  have hfresh : (∀ clientID, th.caller ≠ .broker clientID) → th.Fresh cfg := hlasting.fresh
  unfold answerStep
  split
  · next hc =>
    exact h.put_thread ht (hfresh (by simp [hc])) (by rw [hc]; rfl) _ (Nat.le_refl _) nofun
  · next sid r x hc =>
    have hx := ht.web sid r x hc
    have hle := ht.started_le
    refine h.put_thread ht (hfresh (by simp [hc])) (by rw [hc]; rfl) _ ?_ ?_
    · simp only [Body.slack]
      omega
    · rintro _ _ ⟨⟩
      unfold State.now
      omega
  · next hc =>
    refine h.put_thread ht (hfresh (by simp [hc])) (by rw [hc]; rfl) _ (Nat.le_refl _) ?_
    rintro _ _ ⟨⟩
    exact Nat.le_refl _
  · next hc =>
    split
    · exact h
    · refine h.put_thread ht (hfresh (by simp [hc])) (by rw [hc]; rfl) _ ?_ nofun
      exact Nat.le_trans (show deviceTTL + rotatingTTL ≤ 3600 by decide) hhour
  · next hc =>
    refine h.put_thread ht (hfresh (by simp [hc])) (by rw [hc]; rfl) _ ?_ nofun
    have hle : oauthChainTTL + (rotatingTTL + oauthCodeTTL + rotatingTTL) ≤ 3600 := by decide
    exact Nat.le_trans hle hhour
  · next hc =>
    refine h.put_thread ht (hfresh (by simp [hc])) (by rw [hc]; rfl) _ ?_ nofun
    exact Nat.le_trans (show oauthCodeTTL + rotatingTTL ≤ 3600 by decide) hhour
  · next hc =>
    have hbound : th.started + rotatingTTL + oauthCodeTTL + rotatingTTL ≤ th.goodUntil := by
      simpa only [Thread.Lasting, hc] using hlasting
    refine h.put (cellOk_of_thread ht ?_ nofun)
    have := ht.timed (by rw [hc]; rfl)
    simp only [Body.slack, State.now]
    omega
  · exact h

@[simp] theorem answerStep_threads (s : State) (th : Thread) (fresh : ℕ) :
    (answerStep cfg s th fresh).threads = s.threads := by
  unfold answerStep
  split <;> try rfl
  split <;> rfl

@[simp] theorem restoreStep_threads (s : State) (th : Thread) :
    (restoreStep cfg s th).threads = s.threads := by
  unfold restoreStep
  split <;> rfl

theorem restoreStep_inv (h : Inv cfg s) (hc : ∀ clientID, th.caller.timed → CellOk cfg s.counter
      ⟨.refresh clientID, th.user, s.now + cfg.refreshTTL⟩) : Inv cfg (restoreStep cfg s th) := by
  unfold restoreStep
  split
  · next hcaller => exact h.put (hc _ (by rw [hcaller]; rfl))
  · exact h

theorem restore_inv (h : Inv cfg s) (ht : ThreadOk cfg s.counter th)
    (hext : th.started + rotatingTTL + cfg.refreshTTL ≤ th.goodUntil) :
    Inv cfg (restoreStep cfg s th) := by
  refine restoreStep_inv h (fun clientID htimed => cellOk_of_thread ht ?_ nofun)
  have := ht.timed htimed
  simp only [Body.slack, State.now]
  omega

/-- A token put back without a read of the counter: its stamp must still be good, and the counter,
if there is one, must outlive the window it is put back for. -/
theorem handBack_inv (h : Inv cfg s) (ht : ThreadOk cfg s.counter th) (hn : s.now < th.goodUntil)
    (hl : s.counter.live → s.now + cfg.refreshTTL ≤ s.counter.expires) :
    Inv cfg (restoreStep cfg s th) := by
  refine restoreStep_inv h (fun clientID _ => ⟨ht.moves_le, fun _ => ?_, nofun⟩)
  refine (ht.covered hn).extend ?_ hl
  simp only [Cell.goodUntil, Body.slack, Config.sessionGenTTL, State.now]
  omega

theorem flipStep_ok (h : Inv cfg s) (keyID : ℕ) :
    EffectOk cfg s.threads (flipStep s keyID, none) := by
  unfold flipStep
  split
  · exact .done (h.congr rfl) rfl
  · split
    · exact .done (h.congr rfl) rfl
    · exact .done h rfl

/-- What a successful step of a request asks for: a refresh token or a console session is checked
before the expiry it was found with, and a token put back unchecked does not outlive the counter. -/
def SafeThread (cfg : Config) (s : State) (th : Thread) : Prop :=
  (th.stage = .held → s.now < th.goodUntil) ∧
    (th.stage = .handBack → s.now < th.goodUntil ∧
      (s.counter.live → s.now + cfg.refreshTTL ≤ s.counter.expires))

theorem StageOk.at_self {stage : Stage} (h : StageOk cfg th) (hs : th.stage = stage) :
    StageOk cfg (th.at stage) := by
  subst hs
  exact h

theorem threadStep_ok_of_ok (h : Inv cfg s) (ht : ThreadOk cfg s.counter th)
    (hsafe : SafeThread cfg s th) {fresh : ℕ} {e : Effect}
    (he : threadStep cfg s th (.ok fresh) = some e) : EffectOk cfg s.threads e := by
  have hstage := ht.stage
  cases hs : th.stage <;> simp only [threadStep, hs, Option.some.injEq] at he
  case handBack =>
    subst he
    obtain ⟨hn, hl⟩ := hsafe.2 hs
    exact .done (handBack_inv h ht hn hl) (restoreStep_threads s th)
  case held =>
    subst he
    exact heldStep_ok h ht (hsafe.1 hs)
  case dexGet =>
    subst he
    rw [StageOk, hs] at hstage
    split
    · exact .goes h rfl (ht.at hstage)
    · exact refuse_ok h th
  case dexAsk =>
    subst he
    rw [StageOk, hs] at hstage
    exact dexAskStep_ok h ht hstage
  case refusing =>
    split at he <;> cases he
    · exact .goes h rfl (ht.at trivial)
    · exact refuse_ok h th
  case refusingRow keyID =>
    subst he
    have hr : Inv cfg (s.revokeOAuthPK keyID) := h.congr rfl
    exact refuse_ok hr th
  case issue =>
    subst he
    exact issueStep_ok h ht (hstage.at_self hs)
  case lookup =>
    subst he
    exact lookupStep_ok h ht (hstage.at_self hs)
  case decide keyID expiresAt =>
    have hf : th.Lasting cfg := hstage.at_self hs
    split at he <;> cases he <;> exact .goes h rfl (ht.at hf)
  case replace keyID =>
    subst he
    have hf : th.Lasting cfg := hstage.at_self hs
    exact .goes (h.congr rfl) rfl (ht.at hf)
  case mint =>
    subst he
    exact mintStep_ok h ht (hstage.at_self hs) fresh
  case answer =>
    split at he <;> cases he
    exact .done (answerStep_inv h ht (hstage.at_self hs) fresh) (answerStep_threads s th fresh)
  case restore =>
    subst he
    exact .done (restore_inv h ht (hstage.at_self hs)) (restoreStep_threads s th)
  case arrived =>
    subst he
    rw [StageOk, hs] at hstage
    exact .goes (h.congr rfl) rfl (ht.at hstage)
  case stored =>
    subst he
    exact stampStep_ok h ht
  case ending =>
    subst he
    exact .goes h.bump rfl (ht.move.at trivial)
  case moved =>
    subst he
    exact .goes (h.congr rfl) rfl (ht.at trivial)
  case ended =>
    split at he <;> cases he
    · exact flipStep_ok h _
    · exact .done h rfl

theorem threadStep_ok_of_fail (h : Inv cfg s) (ht : ThreadOk cfg s.counter th) {e : Effect}
    (he : threadStep cfg s th .fail = some e) : EffectOk cfg s.threads e := by
  have hstage := ht.stage
  cases hs : th.stage <;> simp only [threadStep, hs, Option.some.injEq] at he
  case held =>
    split at he <;> cases he
    · exact .goes h rfl (ht.at trivial)
    · exact .done h rfl
  case dexGet =>
    subst he
    rw [StageOk, hs] at hstage
    exact giveUp_ok h ht (fun _ _ hc => (hstage (by simp [hc])).1)
      (fun _ hc => hstage (by simp [hc]))
  case dexAsk =>
    subst he
    rw [StageOk, hs] at hstage
    exact giveUp_ok h ht (fun _ _ hc => (hstage (by simp [hc])).1)
      (fun _ hc => hstage (by simp [hc]))
  case issue =>
    subst he
    rw [StageOk, hs] at hstage
    obtain ⟨⟨clientID, presented, hc, hext⟩, -⟩ := hstage
    refine giveUp_ok h ht (fun clientID' id hc' => hext ?_) (fun tail hc' => ?_)
    · cases hc.symm.trans hc'
      simp
    · cases hc.symm.trans hc'
  case refusing | refusingRow =>
    subst he
    exact refuse_ok h th
  case ending | moved =>
    subst he
    exact .goes h rfl (ht.at trivial)
  case lookup | decide | replace | mint | answer =>
    subst he
    exact giveUp_ok_of_lasting h ht (hstage.at_self hs)
  all_goals
    subst he
    exact .done h rfl

theorem threadStep_ok (h : Inv cfg s) (ht : ThreadOk cfg s.counter th) {a : Answer}
    (hsafe : ∀ fresh, a = .ok fresh → SafeThread cfg s th) {e : Effect}
    (he : threadStep cfg s th a = some e) : EffectOk cfg s.threads e := by
  cases a with
  | ok fresh => exact threadStep_ok_of_ok h ht (hsafe fresh rfl) he
  | fail => exact threadStep_ok_of_fail h ht he
  | gone =>
    have hstage := ht.stage
    cases hs : th.stage <;> simp only [threadStep, hs, reduceCtorEq] at he
    cases he
    have hf : th.Lasting cfg := hstage.at_self hs
    exact .goes h rfl (ht.at hf)
  | denied =>
    cases hs : th.stage <;> simp only [threadStep, hs, reduceCtorEq] at he
    cases he
    exact .goes (h.congr rfl) rfl (ht.at trivial)

theorem settle_inv {e : Effect} (h : EffectOk cfg s.threads e) (i : ℕ) :
    Inv cfg (s.settle i e) := by
  obtain ⟨s', t⟩ := e
  have hthreads : ∀ th ∈ s.threads, ThreadOk cfg s'.counter th := h.threads ▸ h.inv.threads
  cases t with
  | none => exact ⟨h.inv.cells, fun th hth => hthreads th (List.mem_of_mem_eraseIdx hth)⟩
  | some t =>
    refine ⟨h.inv.cells, fun th hth => ?_⟩
    obtain hth | rfl := List.mem_or_eq_of_mem_set hth
    · exact hthreads th hth
    · exact h.next th rfl

end AchProofs.Auth
