import AchProofs.Auth.SessionStep

namespace AchProofs.Auth

open Foundation

variable {cfg : Config} {s s' s'' : State} {th t : Thread} {user : User}

/-- The stages past the last check of the session in which a key row may still be minted. -/
def Stage.mints : Stage → Bool
  | .lookup => true
  | .decide _ _ => true
  | .replace _ => true
  | .mint => true
  | _ => false

/-- A request writes records for its own user only. -/
structure UserFrame (user : User) (s s' : State) : Prop where
  moves_le : s.counter.moves ≤ s'.counter.moves
  arrivals : s'.arrivals = s.arrivals
  users : ∀ id cell, s'.store id = some cell → s.store id = some cell ∨ cell.user = user

/-- Besides, no Dex token comes back, no key row is minted and no revoke is answered. -/
structure StateFrame (user : User) (s s' : State) : Prop extends UserFrame user s s' where
  dex : s.dexRefresh = none → s'.dexRefresh = none
  row : s.oauthPK = none → s'.oauthPK = none
  revoked : s'.revoked = s.revoked

theorem UserFrame.of_eq (hm : s.counter.moves ≤ s'.counter.moves)
    (h : (s'.arrivals, s'.store) = (s.arrivals, s.store)) : UserFrame user s s' := by
  obtain ⟨ha, hs⟩ := Prod.mk.inj h
  exact ⟨hm, ha, fun _ _ hc => .inl (hs ▸ hc)⟩

theorem StateFrame.refl (user : User) (s : State) : StateFrame user s s :=
  ⟨.of_eq (Nat.le_refl _) rfl, id, id, rfl⟩

theorem StateFrame.trans (h : StateFrame user s s') (h' : StateFrame user s' s'') :
    StateFrame user s s'' := by
  refine ⟨⟨Nat.le_trans h.moves_le h'.moves_le, h'.arrivals.trans h.arrivals, fun id cell hc => ?_⟩,
    fun hd => h'.dex (h.dex hd), fun hr => h'.row (h.row hr), h'.revoked.trans h.revoked⟩
  obtain hc | hu := h'.users id cell hc
  · exact h.users id cell hc
  · exact .inr hu

theorem frame_slide (user : User) (s : State) : StateFrame user s (s.slide cfg) :=
  ⟨.of_eq (Nat.le_of_eq GenCounter.slide_moves.symm) rfl, id, id, rfl⟩

theorem frame_bump (user : User) (s : State) : StateFrame user s (s.bump cfg) :=
  ⟨.of_eq (Nat.le_succ _) rfl, id, id, rfl⟩

theorem frame_put (user : User) (s : State) (id : ℕ) (body : Body) (ttl : ℕ) :
    StateFrame user s (s.put id body user ttl) := by
  refine ⟨⟨Nat.le_refl _, rfl, fun id' cell hc => ?_⟩, fun h => h, fun h => h, rfl⟩
  by_cases hid : id' = id
  · subst hid
    simp only [State.put, Function.update_self, Option.some.injEq] at hc
    exact .inr (hc ▸ rfl)
  · simp only [State.put, Function.update_of_ne hid] at hc
    exact .inl hc

theorem frame_del (user : User) (s : State) (id : ℕ) : StateFrame user s (s.del id) := by
  refine ⟨⟨Nat.le_refl _, rfl, fun id' cell hc => ?_⟩, fun h => h, fun h => h, rfl⟩
  by_cases hid : id' = id
  · subst hid
    simp [State.del] at hc
  · simp only [State.del, Function.update_of_ne hid] at hc
    exact .inl hc

theorem frame_revokeOAuthPK (user : User) (s : State) (keyID : ℕ) :
    StateFrame user s (s.revokeOAuthPK keyID) :=
  ⟨.of_eq (Nat.le_refl _) rfl, id, fun h => by simp [State.revokeOAuthPK, h], rfl⟩

theorem frame_noDex (user : User) (s : State) :
    StateFrame user s { s with dexRefresh := none } :=
  ⟨.of_eq (Nat.le_refl _) rfl, fun _ => rfl, id, rfl⟩

theorem frame_refuse (s : State) (th : Thread) : StateFrame th.user s (refuse s th).1 := by
  unfold refuse
  split
  · exact frame_del _ _ _
  · exact .refl _ _

theorem giveUp_state (s : State) (th : Thread) : (giveUp s th).1 = s := by
  unfold giveUp
  split
  · rfl
  · split <;> rfl
  · rfl

theorem frame_giveUp (s : State) (th : Thread) : StateFrame th.user s (giveUp s th).1 := by
  rw [giveUp_state]
  exact .refl _ _

theorem frame_heldStep (s : State) (th : Thread) :
    StateFrame th.user s (heldStep cfg s th).1 := by
  have hslide : StateFrame th.user s (s.slide cfg) := frame_slide _ _
  unfold heldStep
  split
  · split
    · split <;> exact hslide
    · exact hslide
  · exact hslide.trans (frame_refuse _ _)

theorem frame_dexAskStep (s : State) (th : Thread) :
    StateFrame th.user s (dexAskStep cfg s th).1 := by
  unfold dexAskStep
  split
  · next hdex =>
    have hs : StateFrame th.user s { s with dexRefresh := some (s.now + cfg.refreshTTL) } :=
      ⟨.of_eq (Nat.le_refl _) rfl, fun h => by simp [State.hasDexRefresh, h] at hdex, id, rfl⟩
    dsimp only
    split <;> exact hs
  · exact frame_refuse _ _

theorem frame_issueStep (s : State) (th : Thread) :
    StateFrame th.user s (issueStep cfg s th).1 := by
  have hslide : StateFrame th.user s (s.slide cfg) := frame_slide _ _
  unfold issueStep
  split
  · exact hslide
  · exact hslide.trans (frame_giveUp _ _)

theorem frame_lookupStep (s : State) (th : Thread) : StateFrame th.user s (lookupStep s th).1 := by
  unfold lookupStep
  split <;> exact .refl _ _

theorem frame_answerStep (s : State) (th : Thread) (fresh : ℕ) :
    StateFrame th.user s (answerStep cfg s th fresh) := by
  unfold answerStep
  split
  case h_4 =>
    split
    · exact .refl _ _
    · exact frame_put _ _ _ _ _
  case h_8 => exact .refl _ _
  all_goals exact frame_put _ _ _ _ _

theorem frame_restoreStep (s : State) (th : Thread) :
    StateFrame th.user s (restoreStep cfg s th) := by
  unfold restoreStep
  split
  · exact frame_put _ _ _ _ _
  · exact .refl _ _

variable {a : Answer} {e : Effect}

theorem threadStep_frame (he : threadStep cfg s th a = some e) (harrived : th.stage ≠ .arrived)
    (hmint : th.stage ≠ .mint) (hended : th.stage ≠ .ended) : StateFrame th.user s e.1 := by
  cases a
  case ok fresh =>
    cases hs : th.stage <;> simp only [threadStep, hs, Option.some.injEq] at he
    case handBack | restore =>
      subst he
      exact frame_restoreStep s th
    case held =>
      subst he
      exact frame_heldStep s th
    case dexGet =>
      subst he
      split
      · exact .refl _ _
      · exact frame_refuse s th
    case dexAsk =>
      subst he
      exact frame_dexAskStep s th
    case refusing =>
      split at he <;> cases he
      · exact .refl _ _
      · exact frame_refuse s th
    case refusingRow =>
      subst he
      exact (frame_revokeOAuthPK _ _ _).trans (frame_refuse _ _)
    case issue =>
      subst he
      exact frame_issueStep s th
    case lookup =>
      subst he
      exact frame_lookupStep s th
    case decide =>
      split at he <;> cases he <;> exact .refl _ _
    case replace =>
      subst he
      exact frame_revokeOAuthPK _ _ _
    case mint => exact absurd hs hmint
    case answer =>
      split at he <;> cases he
      exact frame_answerStep s th fresh
    case arrived => exact absurd hs harrived
    case stored =>
      subst he
      exact frame_slide _ _
    case ending =>
      subst he
      exact frame_bump _ _
    case moved =>
      subst he
      exact frame_noDex _ _
    case ended => exact absurd hs hended
  case gone =>
    cases hs : th.stage <;> simp only [threadStep, hs, reduceCtorEq] at he
    cases he
    exact .refl _ _
  case denied =>
    cases hs : th.stage <;> simp only [threadStep, hs, reduceCtorEq] at he
    cases he
    exact frame_noDex _ _
  case fail =>
    cases hs : th.stage <;> simp only [threadStep, hs, Option.some.injEq] at he
    case held => split at he <;> cases he <;> exact .refl _ _
    case refusing | refusingRow =>
      subst he
      exact frame_refuse s th
    all_goals
      subst he
      first | exact .refl _ _ | exact frame_giveUp s th

theorem userFrame_mintStep (s : State) (th : Thread) (fresh : ℕ) :
    UserFrame th.user s (mintStep s th fresh).1 := by
  unfold mintStep
  split
  · exact (frame_giveUp s th).toUserFrame
  · exact .of_eq (Nat.le_refl _) rfl

theorem userFrame_flipStep (user : User) (s : State) (keyID : ℕ) :
    UserFrame user s (flipStep s keyID) := by
  unfold flipStep
  split
  · exact .of_eq (Nat.le_refl _) rfl
  · split <;> exact .of_eq (Nat.le_refl _) rfl

theorem threadStep_userFrame (he : threadStep cfg s th a = some e) : UserFrame th.user s e.1 := by
  by_cases hmint : th.stage = .mint
  · cases a <;> simp only [threadStep, hmint, reduceCtorEq] at he <;> cases he
    · exact userFrame_mintStep s th _
    · exact (frame_giveUp s th).toUserFrame
  by_cases hended : th.stage = .ended
  · cases a <;> simp only [threadStep, hended, reduceCtorEq] at he
    · split at he <;> cases he
      · exact userFrame_flipStep _ s _
      · exact (StateFrame.refl _ s).toUserFrame
    · cases he
      exact (StateFrame.refl _ s).toUserFrame
  by_cases harrived : th.stage = .arrived
  · cases a <;> simp only [threadStep, harrived, reduceCtorEq] at he <;> cases he <;>
      exact .of_eq (Nat.le_refl _) rfl
  exact (threadStep_frame he harrived hmint hended).toUserFrame

/-- Only a login brings a Dex token back. -/
theorem threadStep_dex (he : threadStep cfg s th a = some e) (harrived : th.stage ≠ .arrived)
    (hd : s.dexRefresh = none) : e.1.dexRefresh = none := by
  by_cases hmint : th.stage = .mint
  · cases a <;> simp only [threadStep, hmint, reduceCtorEq] at he <;> cases he
    · unfold mintStep
      split
      · exact (frame_giveUp s th).dex hd
      · exact hd
    · exact (frame_giveUp s th).dex hd
  by_cases hended : th.stage = .ended
  · cases a <;> simp only [threadStep, hended, reduceCtorEq] at he
    · split at he <;> cases he
      · unfold flipStep
        split
        · exact hd
        · split <;> exact hd
      · exact hd
    · cases he
      exact hd
  exact (threadStep_frame he harrived hmint hended).dex hd

/-- A request gets past its last check: it is past it already, or it passes it now. -/
def PassesCheck (s : State) (th : Thread) : Prop :=
  th.stage.mints ∨ th.stage = .stored ∨ th.stage = .issue ∧ s.counter.read = th.user.gen ∨
    th.stage = .dexAsk ∧ s.hasDexRefresh

/-- What a request keeps all along. Its user is the one it started with, or that of its own
login. -/
structure Goes (th t : Thread) : Prop where
  serial : t.serial = th.serial
  started : t.started = th.started
  since : t.since = th.since
  caller : t.caller = th.caller
  user : t.user = th.user ∨ th.stage = .stored ∧ t.user.login = th.serial

/-- How a request goes on. -/
structure Next (s : State) (th t : Thread) : Prop extends Goes th t where
  mints : t.stage.mints → PassesCheck s th
  moved : t.stage = .moved → th.stage = .ending
  ended : t.stage = .ended → th.stage = .moved

theorem goes_at (th : Thread) (stage : Stage) : Goes th (th.at stage) :=
  ⟨rfl, rfl, rfl, rfl, .inl rfl⟩

theorem next_none (h : e.2 = none) : ∀ t, e.2 = some t → Next s th t := by
  intro t ht
  cases h.symm.trans ht

theorem next_plain {stage : Stage} (hm : stage.mints = false) (h₁ : stage ≠ .moved)
    (h₂ : stage ≠ .ended) : Next s th (th.at stage) :=
  ⟨goes_at th stage,
    fun h => by simp [Thread.at, hm] at h, fun h => absurd h h₁, fun h => absurd h h₂⟩

theorem next_mints {stage : Stage} (hm : stage.mints) (hp : PassesCheck s th) :
    Next s th (th.at stage) := by
  refine ⟨goes_at th stage, fun _ => hp, fun h => ?_, fun h => ?_⟩ <;>
    rw [show stage = _ from h] at hm <;> cases hm

theorem next_refuse (s₁ : State) : ∀ t, (refuse s₁ th).2 = some t → Next s th t := by
  refine next_none ?_
  unfold refuse
  split <;> rfl

theorem next_giveUp (s₁ : State) : ∀ t, (giveUp s₁ th).2 = some t → Next s th t := by
  unfold giveUp
  split
  · rintro _ ⟨⟩
    exact next_plain rfl nofun nofun
  · split
    · exact next_none rfl
    · rintro _ ⟨⟩
      exact next_plain rfl nofun nofun
  · exact next_none rfl

theorem next_heldStep : ∀ t, (heldStep cfg s th).2 = some t → Next s th t := by
  have hgo : Next s th (th.passed cfg .dexGet) :=
    ⟨⟨rfl, rfl, rfl, rfl, .inl rfl⟩, nofun, nofun, nofun⟩
  unfold heldStep
  split
  · split
    · split
      · exact next_none rfl
      · rintro _ ⟨⟩
        exact hgo
    · rintro _ ⟨⟩
      exact hgo
  · exact next_refuse _

theorem next_dexAskStep (hs : th.stage = .dexAsk) :
    ∀ t, (dexAskStep cfg s th).2 = some t → Next s th t := by
  unfold dexAskStep
  split
  · next hdex =>
    dsimp only
    split
    · rintro _ ⟨⟩
      exact next_plain rfl nofun nofun
    · rintro _ ⟨⟩
      exact next_mints rfl (.inr (.inr (.inr ⟨hs, hdex⟩)))
    · exact next_none rfl
  · exact next_refuse _

theorem next_issueStep (hs : th.stage = .issue) :
    ∀ t, (issueStep cfg s th).2 = some t → Next s th t := by
  unfold issueStep
  split
  · next hr =>
    rintro _ ⟨⟩
    exact ⟨⟨rfl, rfl, rfl, rfl, .inl rfl⟩, fun _ => .inr (.inr (.inl ⟨hs, hr⟩)), nofun, nofun⟩
  · exact next_giveUp _

theorem next_lookupStep (hs : th.stage = .lookup) :
    ∀ t, (lookupStep s th).2 = some t → Next s th t := by
  have hp : PassesCheck s th := .inl (by rw [hs]; rfl)
  unfold lookupStep
  split <;> rintro _ ⟨⟩ <;> exact next_mints rfl hp

theorem next_mintStep (fresh : ℕ) : ∀ t, (mintStep s th fresh).2 = some t → Next s th t := by
  unfold mintStep
  split
  · exact next_giveUp _
  · rintro _ ⟨⟩
    exact next_plain rfl nofun nofun

theorem next_stampStep (hs : th.stage = .stored) :
    ∀ t, (stampStep cfg s th).2 = some t → Next s th t := by
  rintro _ ⟨⟩
  refine ⟨⟨rfl, rfl, rfl, rfl, .inr ⟨hs, rfl⟩⟩, fun _ => .inr (.inl hs), fun h => ?_,
    fun h => ?_⟩ <;>
    obtain hst | hst := afterStamp_cases th.caller <;> cases hst.symm.trans h

theorem threadStep_next_of_ok {fresh : ℕ} (he : threadStep cfg s th (.ok fresh) = some e) :
    ∀ t, e.2 = some t → Next s th t := by
  cases hs : th.stage <;> simp only [threadStep, hs, Option.some.injEq] at he
  case handBack | restore =>
    subst he
    exact next_none rfl
  case held =>
    subst he
    exact next_heldStep
  case dexGet =>
    subst he
    split
    · rintro _ ⟨⟩
      exact next_plain rfl (by simp) (by simp)
    · exact next_refuse _
  case dexAsk =>
    subst he
    exact next_dexAskStep hs
  case refusing =>
    split at he <;> cases he
    · rintro _ ⟨⟩
      exact next_plain rfl (by simp) (by simp)
    · exact next_refuse _
  case refusingRow =>
    subst he
    exact next_refuse _
  case issue =>
    subst he
    exact next_issueStep hs
  case lookup =>
    subst he
    exact next_lookupStep hs
  case decide =>
    split at he <;> cases he <;> rintro _ ⟨⟩
    · exact next_plain rfl (by simp) (by simp)
    · exact next_mints rfl (.inl (by rw [hs]; rfl))
  case replace =>
    subst he
    rintro _ ⟨⟩
    exact next_mints rfl (.inl (by rw [hs]; rfl))
  case mint =>
    subst he
    exact next_mintStep fresh
  case answer =>
    split at he <;> cases he
    exact next_none rfl
  case arrived =>
    subst he
    rintro _ ⟨⟩
    exact next_plain rfl (by simp) (by simp)
  case stored =>
    subst he
    exact next_stampStep hs
  case ending =>
    subst he
    rintro _ ⟨⟩
    exact ⟨goes_at th .moved, by rintro ⟨⟩, fun _ => hs, by rintro ⟨⟩⟩
  case moved =>
    subst he
    rintro _ ⟨⟩
    exact ⟨goes_at th .ended, by rintro ⟨⟩, by rintro ⟨⟩, fun _ => hs⟩
  case ended => split at he <;> cases he <;> exact next_none rfl

theorem threadStep_next (he : threadStep cfg s th a = some e) :
    ∀ t, e.2 = some t → Next s th t := by
  cases a
  case ok fresh => exact threadStep_next_of_ok he
  case gone =>
    cases hs : th.stage <;> simp only [threadStep, hs, reduceCtorEq] at he
    cases he
    rintro _ ⟨⟩
    exact next_mints rfl (.inl (by rw [hs]; rfl))
  case denied =>
    cases hs : th.stage <;> simp only [threadStep, hs, reduceCtorEq] at he
    cases he
    rintro _ ⟨⟩
    exact next_plain rfl (by simp) (by simp)
  case fail =>
    cases hs : th.stage <;> simp only [threadStep, hs, Option.some.injEq] at he
    case held =>
      split at he <;> cases he
      · rintro _ ⟨⟩
        exact next_plain rfl (by simp) (by simp)
      · exact next_none rfl
    case refusing | refusingRow =>
      subst he
      exact next_refuse _
    case ending =>
      subst he
      rintro _ ⟨⟩
      exact ⟨goes_at th .moved, by rintro ⟨⟩, fun _ => hs, by rintro ⟨⟩⟩
    case moved =>
      subst he
      rintro _ ⟨⟩
      exact ⟨goes_at th .ended, by rintro ⟨⟩, by rintro ⟨⟩, fun _ => hs⟩
    all_goals
      subst he
      first | exact next_none rfl | exact next_giveUp _

section Settle

variable {i : ℕ}

theorem mem_settle (ht : t ∈ (s.settle i e).threads) : t ∈ s.threads ∨ e.2 = some t := by
  obtain ⟨s₁, next⟩ := e
  cases next with
  | none => exact .inl (List.mem_of_mem_eraseIdx ht)
  | some t₁ =>
    obtain ht | rfl := List.mem_or_eq_of_mem_set ht
    · exact .inl ht
    · exact .inr rfl

theorem settle_fields (s : State) (i : ℕ) (e : Effect) :
    (s.settle i e).counter = e.1.counter ∧ (s.settle i e).store = e.1.store ∧
      (s.settle i e).dexRefresh = e.1.dexRefresh ∧ (s.settle i e).oauthPK = e.1.oauthPK ∧
      (s.settle i e).revoked = e.1.revoked ∧ (s.settle i e).arrivals = e.1.arrivals := by
  unfold State.settle
  split <;> exact ⟨rfl, rfl, rfl, rfl, rfl, rfl⟩

end Settle

section Calls

variable {id : ℕ} {act : Action} {cell : Cell} {caller : Caller} {stage : Stage}

/-- A request that arrives. Its user is that of a record, or it has none yet; only a broker callback
starts past every check. -/
structure Arrives (s : State) (act : Action) (th : Thread) : Prop where
  serial : th.serial = s.arrivals
  started : th.started = s.now
  since : th.since = s.counter.moves
  user : th.user = noUser ∨ ∃ id cell, s.store id = some cell ∧ th.user = cell.user
  login : ∀ tail, th.caller = .login tail → act = .login tail
  console : ∀ sid r x, th.caller = .console sid r x →
    ∃ cell, s.store sid = some cell ∧ cell.body = .websession r x ∧ s.now < x
  stage : th.stage ≠ .moved ∧ th.stage ≠ .ended
  mints : th.stage.mints → ∃ id cell clientID, act = .brokerCallback id ∧ s.get id = some cell ∧
    cell.body = .chain clientID

/-- What a call does: records only go, and at most one request arrives. -/
structure Calls (s : State) (act : Action) (s' : State) : Prop where
  store : ∀ id cell, s'.store id = some cell → s.store id = some cell
  moves : s'.counter.moves = s.counter.moves
  dex : s'.dexRefresh = s.dexRefresh
  row : s.oauthPK = none → s'.oauthPK = none
  revoked : s'.revoked = s.revoked
  arrivals : s.arrivals ≤ s'.arrivals
  threads : ∀ th ∈ s'.threads, th ∈ s.threads ∨ Arrives s act th ∧ s.arrivals < s'.arrivals

theorem Calls.refl (s : State) (act : Action) : Calls s act s :=
  ⟨fun _ _ h => h, rfl, rfl, id, rfl, Nat.le_refl _, fun _ h => .inl h⟩

theorem store_of_del {id' : ℕ} (h : (s.del id).store id' = some cell) :
    s.store id' = some cell := by
  simp only [State.del, Function.update_apply] at h
  split at h
  · cases h
  · exact h

theorem calls_del (s : State) (act : Action) (id : ℕ) : Calls s act (s.del id) :=
  ⟨fun _ _ h => store_of_del h, rfl, rfl, fun h => h, rfl, Nat.le_refl _, fun _ h => .inl h⟩

theorem calls_spawn {goodUntil : ℕ} (h : Arrives s act (s.arrival caller user goodUntil stage)) :
    Calls s act (s.spawn caller user goodUntil stage) := by
  refine ⟨fun _ _ h => h, rfl, rfl, id, rfl, Nat.le_succ _, fun th hth => ?_⟩
  obtain hth | hth := List.mem_append.mp hth
  · exact .inl hth
  · rw [List.mem_singleton.mp hth]
    exact .inr ⟨h, Nat.lt_succ_self _⟩

theorem Calls.del (h : Calls s act s') (id : ℕ) : Calls s act (s'.del id) :=
  ⟨fun _ _ hc => h.store _ _ (store_of_del hc), h.moves, h.dex, h.row, h.revoked, h.arrivals,
    h.threads⟩

theorem calls_take (hcell : s.store id = some cell) (hl : ∀ tail, caller ≠ .login tail)
    (hc : ∀ sid r x, caller ≠ .console sid r x) (hst : stage ≠ .moved ∧ stage ≠ .ended)
    (hm : stage.mints → ∃ id cell clientID, act = .brokerCallback id ∧ s.get id = some cell ∧
      cell.body = .chain clientID) : Calls s act (takeStep s id cell caller stage) := by
  -- the record is deleted and its user goes with the request, so the user is looked up before
  have hspawn : Calls s act (s.spawn caller cell.user cell.goodUntil stage) :=
    calls_spawn ⟨rfl, rfl, rfl, .inr ⟨id, cell, hcell, rfl⟩, fun tail h => absurd h (hl tail),
      fun sid r x h => absurd h (hc sid r x), hst, hm⟩
  exact hspawn.del id

theorem calls_spawn_unstamped (hl : ∀ tail, caller = .login tail → act = .login tail)
    (hc : ∀ sid r x, caller ≠ .console sid r x) (hst : stage ≠ .moved ∧ stage ≠ .ended)
    (hm : stage.mints = false) : Calls s act (s.spawn caller noUser 0 stage) :=
  calls_spawn ⟨rfl, rfl, rfl, .inl rfl, hl, fun sid r x h => absurd h (hc sid r x), hst,
    fun h => absurd (hm.symm.trans h) (by decide)⟩

theorem calls_redeemStep {clientID : ℕ} {proof : Bool} (hcell : s.store id = some cell) :
    Calls s act (redeemStep s id clientID proof cell) := by
  have htake : ∀ c, Calls s act (takeStep s id cell (.token c none) .issue) := fun c =>
    calls_take hcell (by simp) (by simp) (by simp) (by simp [Stage.mints])
  unfold redeemStep
  split
  · split
    · exact htake _
    · exact calls_del s act id
  · split
    · exact htake _
    · exact .refl s act
  · exact .refl s act

theorem calls_cookie (h : step cfg s (.cookie id) = some s') : Calls s (.cookie id) s' := by
  simp only [step] at h
  split at h
  · next cell hget =>
    have hcell := (store_of_get hget).1
    split at h
    · next r x hb =>
      split at h <;> cases h
      · next hlt =>
        refine calls_spawn ⟨rfl, rfl, rfl, .inr ⟨id, cell, hcell, rfl⟩, by simp [State.arrival], ?_,
          by simp [State.arrival], by simp [State.arrival, Stage.mints]⟩
        rintro _ _ _ ⟨⟩
        exact ⟨cell, hcell, hb, hlt⟩
      · exact calls_del s _ id
    · cases h
      exact .refl s _
  · cases h
    exact .refl s _

theorem calls_brokerCallback (h : step cfg s (.brokerCallback id) = some s') :
    Calls s (.brokerCallback id) s' := by
  simp only [step] at h
  split at h
  · next cell hget =>
    split at h <;> cases h
    · next hb =>
      exact calls_take (store_of_get hget).1 (by simp) (by simp) (by simp)
        (fun _ => ⟨id, cell, _, rfl, hget, hb⟩)
    · exact .refl s _
  · cases h
    exact .refl s _

theorem calls_present {clientID : ℕ} (h : step cfg s (.present id clientID) = some s') :
    Calls s (.present id clientID) s' := by
  simp only [step] at h
  split at h
  · next cell hget =>
    split at h <;> cases h
    · refine calls_take (store_of_get hget).1 (by simp) (by simp) ?_ ?_ <;> split <;>
        simp [Stage.mints]
    · exact .refl s _
  · cases h
    exact .refl s _

theorem calls_step (h : step cfg s act = some s') (hgo : ∀ i ans, act ≠ .go i ans) :
    Calls s act s' := by
  cases act with
  | go i ans => exact absurd rfl (hgo i ans)
  | cookie id => exact calls_cookie h
  | brokerCallback id => exact calls_brokerCallback h
  | present id clientID => exact calls_present h
  | redeem id clientID proof =>
    simp only [step] at h
    split at h <;> cases h
    · next hget => exact calls_redeemStep (store_of_get hget).1
    · exact .refl s _
  | logout id =>
    cases h
    exact calls_del s _ id
  | login tail =>
    cases h
    exact calls_spawn_unstamped (fun tail' h => by cases h; rfl) (by simp) (by simp) rfl
  | platformRefresh | endSessions =>
    cases h
    exact calls_spawn_unstamped (by simp) (by simp) (by simp) rfl
  | useKey =>
    cases h
    exact ⟨fun _ _ h => h, rfl, rfl, fun h => by simp [h], rfl, Nat.le_refl _, fun _ h => .inl h⟩
  | wait d =>
    cases h
    exact ⟨fun _ _ h => h, rfl, rfl, fun h => h, rfl, Nat.le_refl _, fun _ h => .inl h⟩
  | crash i =>
    cases h
    exact ⟨fun _ _ h => h, rfl, rfl, fun h => h, rfl, Nat.le_refl _,
      fun _ h => .inl (List.mem_of_mem_eraseIdx h)⟩

end Calls

end AchProofs.Auth
