import AchProofs.Auth.StepFrame

namespace AchProofs.Auth

open Foundation Foundation.Run

variable {cfg : Config} {s s' : State} {th : Thread}

def SafeStep (cfg : Config) (s : State) (a : Action) : Prop :=
  Timely s a ∧
    match a with
    | .go i (.ok _) => ∀ th, s.threads[i]? = some th → SafeThread cfg s th
    | _ => True

variable {caller : Caller} {stage : Stage} {id : ℕ}

theorem threadOk_new {user : User} {goodUntil : ℕ} (hm : user.moves ≤ s.counter.moves)
    (hc : Covered cfg s.counter user goodUntil)
    (hw : ∀ sid r x, caller = .console sid r x → x ≤ s.now + cfg.refreshTTL)
    (hst : StageOk cfg (s.arrival caller user goodUntil stage)) :
    ThreadOk cfg s.counter (s.arrival caller user goodUntil stage) :=
  ⟨Nat.le_refl _, Nat.le_refl _, fun _ => Nat.le_add_right _ _, hm, hw, hc, hst⟩

theorem spawn_unstamped_inv (h : Inv cfg s) (hc : ∀ sid r x, caller ≠ .console sid r x)
    (hst : StageOk cfg (s.arrival caller noUser 0 stage)) :
    Inv cfg (s.spawn caller noUser 0 stage) :=
  h.spawn (threadOk_new (Nat.zero_le _) (fun hn => absurd hn (Nat.not_lt_zero _))
    (fun sid r x he => absurd he (hc sid r x)) hst)

theorem takeStep_inv (h : Inv cfg s) {cell : Cell} (hcell : s.store id = some cell)
    (hc : ∀ sid r x, caller ≠ .console sid r x)
    (hst : StageOk cfg (s.arrival caller cell.user cell.goodUntil stage)) :
    Inv cfg (takeStep s id cell caller stage) := by
  have hok := h.cells id cell hcell
  have hdel : Inv cfg (s.del id) := h.del
  exact hdel.spawn (threadOk_new hok.moves_le hok.covered
    (fun sid r x he => absurd he (hc sid r x)) hst)

theorem redeemStep_inv (h : Inv cfg s) {cell : Cell} (hget : s.get id = some cell) (clientID : ℕ)
    (proof : Bool) : Inv cfg (redeemStep s id clientID proof cell) := by
  obtain ⟨hcell, hlive⟩ := store_of_get hget
  have htake : ∀ c, cell.body.slack = rotatingTTL →
      Inv cfg (takeStep s id cell (.token c none) .issue) := by
    intro c hslack
    refine takeStep_inv h hcell nofun ⟨⟨c, none, rfl, fun hne => absurd rfl hne⟩, ?_⟩
    simp only [State.arrival, Cell.goodUntil, hslack]
    omega
  unfold redeemStep
  split
  · next hb =>
    split
    · exact htake _ (by rw [hb]; rfl)
    · exact h.del
  · next hb =>
    split
    · exact htake _ (by rw [hb]; rfl)
    · exact h
  · exact h

theorem present_inv (h : Inv cfg s) {clientID : ℕ}
    (hs : step cfg s (.present id clientID) = some s') : Inv cfg s' := by
  simp only [step] at hs
  split at hs
  · next cell hget =>
    split at hs <;> cases hs
    · refine takeStep_inv h (store_of_get hget).1 (by simp) ?_
      split <;> trivial
    · exact h
  · cases hs
    exact h

theorem cookie_inv (h : Inv cfg s) {sid : ℕ} (hs : step cfg s (.cookie sid) = some s') :
    Inv cfg s' := by
  simp only [step] at hs
  split at hs
  · next cell hget =>
    have hok := h.cells sid cell (store_of_get hget).1
    split at hs
    · next r x hb =>
      split at hs <;> cases hs
      · refine h.spawn (threadOk_new hok.moves_le hok.covered ?_ trivial)
        rintro _ _ _ ⟨⟩
        exact hok.web r x hb
      · exact h.del
    · cases hs
      exact h
  · cases hs
    exact h

theorem brokerCallback_inv (h : Inv cfg s) (hs : step cfg s (.brokerCallback id) = some s') :
    Inv cfg s' := by
  simp only [step] at hs
  split at hs
  · next cell hget =>
    obtain ⟨hcell, hlive⟩ := store_of_get hget
    split at hs <;> cases hs
    · next hb =>
      refine takeStep_inv h hcell (by simp) ?_
      simp only [StageOk, State.arrival, Thread.Lasting, Cell.goodUntil, hb, Body.slack]
      omega
    · exact h
  · cases hs
    exact h

theorem step_inv (s : State) (a : Action) (s' : State) (h : Inv cfg s) (hsafe : SafeStep cfg s a)
    (hs : step cfg s a = some s') : Inv cfg s' := by
  cases a
  case present => exact present_inv h hs
  case redeem id clientID proof =>
    simp only [step] at hs
    split at hs <;> cases hs
    · next hget => exact redeemStep_inv h hget clientID proof
    · exact h
  case cookie => exact cookie_inv h hs
  case login tail =>
    cases hs
    exact spawn_unstamped_inv h (by simp) ⟨tail, rfl⟩
  case brokerCallback => exact brokerCallback_inv h hs
  case platformRefresh =>
    cases hs
    exact spawn_unstamped_inv h (by simp) (fun hne => absurd rfl hne)
  case endSessions =>
    cases hs
    exact spawn_unstamped_inv h (by simp) trivial
  case logout =>
    cases hs
    exact h.del
  case useKey =>
    cases hs
    exact h.congr rfl
  case wait d =>
    cases hs
    exact ⟨fun id cell hc => (h.cells id cell hc).wait d,
      fun th ht => (h.threads th ht).wait (hsafe.1 th ht)⟩
  case crash i =>
    cases hs
    exact ⟨h.cells, fun th ht => h.threads th (List.mem_of_mem_eraseIdx ht)⟩
  case go i a =>
    simp only [step] at hs
    split at hs
    · next th hth =>
      obtain ⟨e, he, rfl⟩ := Option.map_eq_some_iff.mp hs
      have ht := h.threads th (List.mem_of_getElem? hth)
      refine settle_inv (threadStep_ok h ht ?_ he) i
      rintro fresh rfl
      exact hsafe.2 th hth
    · cases hs

def Initial (s : State) : Prop := s.threads = [] ∧ ∀ id, s.store id = none

theorem inv_of_initial (h : Initial s) : Inv cfg s :=
  ⟨fun id cell hc => by simp [h.2 id] at hc, fun th ht => by simp [h.1] at ht⟩

/-- The next step of a request hands out a token pair or an authenticated console session. -/
def Obtains (s : State) (th : Thread) : Prop :=
  match th.caller with
  | .token _ _ => th.stage = .answer
  | .console _ revalidateAt _ => th.stage = .answer ∨
      th.stage = .held ∧ th.started < revalidateAt ∧ s.counter.read = th.user.gen
  | _ => False

theorem since_le_of_obtains (ht : ThreadOk cfg s.counter th) (hsafe : SafeThread cfg s th)
    (ho : Obtains s th) : th.since ≤ th.user.moves := by
  have hanswer : th.stage = .answer → (∀ clientID, th.caller ≠ .broker clientID) →
      th.since ≤ th.user.moves := by
    intro hs hne
    have hlasting : th.Lasting cfg := ht.stage.at_self hs
    exact (hlasting.fresh hne).2
  unfold Obtains at ho
  split at ho
  · next hc => exact hanswer ho (by simp [hc])
  · next hc =>
    obtain hs | ⟨hs, -, hr⟩ := ho
    · exact hanswer hs (by simp [hc])
    · rw [(ht.covered (hsafe.1 hs)).current hr]
      exact ht.since_le
  · exact ho.elim

/-- The request of that number has come and is over. -/
def Over (s : State) (n : ℕ) : Prop := n < s.arrivals ∧ ∀ th ∈ s.threads, th.serial ≠ n

/-- Since a move of the counter at which a login was over: the login stamps no more users, and the
requests from a number on have come after that move. -/
structure Behind (login n m : ℕ) (s : State) : Prop where
  gone : Over s login
  moves : m < s.counter.moves
  cells : ∀ id cell, s.store id = some cell → cell.user.login = login → cell.user.moves ≤ m
  threads : ∀ th ∈ s.threads, (th.user.login = login → th.user.moves ≤ m) ∧
    (n ≤ th.serial → m < th.since)

variable {login n m : ℕ}

theorem Behind.calls (h : Behind login n m s) {a : Action} (hc : Calls s a s') :
    Behind login n m s' := by
  have hlt := h.gone.1
  refine ⟨⟨Nat.lt_of_lt_of_le hlt hc.arrivals, fun th hth => ?_⟩, hc.moves ▸ h.moves,
    fun id cell hcell => h.cells id cell (hc.store id cell hcell), fun th hth => ?_⟩
  · obtain hth | ⟨harr, -⟩ := hc.threads th hth
    · exact h.gone.2 th hth
    · rw [harr.serial]
      exact Nat.ne_of_gt hlt
  · obtain hth | ⟨harr, -⟩ := hc.threads th hth
    · exact h.threads th hth
    · refine ⟨fun hl => ?_, fun _ => harr.since ▸ h.moves⟩
      obtain hu | ⟨id, cell, hcell, hu⟩ := harr.user <;> rw [hu] at hl ⊢
      · exact Nat.zero_le m
      · exact h.cells id cell hcell hl

theorem Behind.settle (h : Behind login n m s) {i : ℕ} {e : Effect} (hth : th ∈ s.threads)
    (hf : UserFrame th.user s e.1) (hn : ∀ t, e.2 = some t → Next s th t) :
    Behind login n m (s.settle i e) := by
  obtain ⟨hcounter, hstore, -, -, -, harr⟩ := settle_fields s i e
  refine ⟨⟨?_, fun t ht => ?_⟩, ?_, ?_, fun t ht => ?_⟩
  · rw [harr, hf.arrivals]
    exact h.gone.1
  · obtain hold | hnew := mem_settle ht
    · exact h.gone.2 t hold
    · rw [(hn t hnew).serial]
      exact h.gone.2 th hth
  · rw [hcounter]
    exact Nat.lt_of_lt_of_le h.moves hf.moves_le
  · rw [hstore]
    intro id cell hcell hl
    obtain hold | hu := hf.users id cell hcell
    · exact h.cells id cell hold hl
    · rw [hu] at hl ⊢
      exact (h.threads th hth).1 hl
  · obtain hold | hnew := mem_settle ht
    · exact h.threads t hold
    · have hgo := hn t hnew
      refine ⟨fun hl => ?_, ?_⟩
      · obtain hu | ⟨-, hu⟩ := hgo.user
        · rw [hu] at hl ⊢
          exact (h.threads th hth).1 hl
        · exact absurd (hu.symm.trans hl) (h.gone.2 th hth)
      · rw [hgo.serial, hgo.since]
        exact (h.threads th hth).2

theorem behind_step (s : State) (a : Action) (s' : State) (h : Behind login n m s) (_ : True)
    (hs : step cfg s a = some s') : Behind login n m s' := by
  by_cases hgo : ∃ i ans, a = .go i ans
  · obtain ⟨i, ans, rfl⟩ := hgo
    simp only [step] at hs
    split at hs
    · next th hth =>
      obtain ⟨e, he, rfl⟩ := Option.map_eq_some_iff.mp hs
      exact h.settle (List.mem_of_getElem? hth) (threadStep_userFrame he) (threadStep_next he)
    · cases hs
  · exact h.calls (calls_step hs (fun i ans heq => hgo ⟨i, ans, heq⟩))

def Numbered (s : State) : Prop := ∀ th ∈ s.threads, th.serial < s.arrivals

theorem numbered_step (s : State) (a : Action) (s' : State) (h : Numbered s) (_ : True)
    (hs : step cfg s a = some s') : Numbered s' := by
  intro t ht
  by_cases hgo : ∃ i ans, a = .go i ans
  · obtain ⟨i, ans, rfl⟩ := hgo
    simp only [step] at hs
    split at hs
    · next th hth =>
      obtain ⟨e, he, rfl⟩ := Option.map_eq_some_iff.mp hs
      obtain ⟨-, -, -, -, -, harr⟩ := settle_fields s i e
      rw [harr, (threadStep_userFrame he).arrivals]
      obtain hold | hnew := mem_settle ht
      · exact h t hold
      · rw [(threadStep_next he t hnew).serial]
        exact h th (List.mem_of_getElem? hth)
    · cases hs
  · have hc := calls_step hs (fun i ans heq => hgo ⟨i, ans, heq⟩)
    obtain hold | ⟨harr, hlt⟩ := hc.threads t ht
    · exact Nat.lt_of_lt_of_le (h t hold) hc.arrivals
    · rw [harr.serial]
      exact hlt

/-- An end of the sessions writes the counter, and the write works. -/
def EndsSessions (s : State) (a : Action) : Prop :=
  ∃ j fresh th key, a = .go j (.ok fresh) ∧ s.threads[j]? = some th ∧ th.caller = .endSessions key ∧
    th.stage = .ending

theorem behind_of_endsSessions {a : Action} (h : Inv cfg s) (hnum : Numbered s)
    (ha : EndsSessions s a) (hs : step cfg s a = some s') (hover : Over s login) :
    Behind login s.arrivals s.counter.moves s' := by
  obtain ⟨j, fresh, e, key, rfl, hj, -, hstage⟩ := ha
  simp only [step, hj, threadStep, hstage, Option.map_some, Option.some.injEq] at hs
  subst hs
  have he := List.mem_of_getElem? hj
  have hthreads : ∀ t ∈ (s.settle j (s.bump cfg, some (e.at .moved))).threads,
      ∃ u ∈ s.threads, t.serial = u.serial ∧ t.user = u.user := by
    intro t ht
    obtain hold | hnew := mem_settle ht
    · exact ⟨t, hold, rfl, rfl⟩
    · cases hnew
      exact ⟨e, he, rfl, rfl⟩
  refine ⟨⟨hover.1, fun t ht => ?_⟩, Nat.lt_succ_self _,
    fun id cell hcell _ => (h.cells id cell hcell).moves_le, fun t ht => ?_⟩
  · obtain ⟨u, hu, hserial, -⟩ := hthreads t ht
    rw [hserial]
    exact hover.2 u hu
  · obtain ⟨u, hu, hserial, huser⟩ := hthreads t ht
    rw [hserial, huser]
    exact ⟨fun _ => (h.threads u hu).moves_le, fun hle => absurd hle (Nat.not_le.mpr (hnum u hu))⟩

/-- In every run of safe steps: when an `EndSessions` has written the counter, no request that comes
later obtains tokens or a console session from a login that was over by then. -/
theorem ended_sessions_stay_ended {s₀ s₁ s : State} {before after : List Action} {a : Action}
    {i fresh : ℕ} {th : Thread} (h₀ : Initial s₀)
    (hsafe : Along (step cfg) (SafeStep cfg) s₀ (before ++ (a :: after) ++ [.go i (.ok fresh)]))
    (hbefore : run (step cfg) s₀ before = some s₁) (hend : EndsSessions s₁ a)
    (hafter : run (step cfg) s₁ (a :: after) = some s) (hth : s.threads[i]? = some th)
    (hstarted : s₁.arrivals ≤ th.serial) (hlogin : Over s₁ th.user.login) : ¬ Obtains s th := by
  intro ho
  have hmem := List.mem_of_getElem? hth
  have hsafe₁ : Along (step cfg) (SafeStep cfg) s₁ (a :: after ++ [.go i (.ok fresh)]) :=
    along_append (by rwa [List.append_assoc] at hsafe) hbefore
  have hinv₁ : Inv cfg s₁ :=
    run_preserves step_inv (inv_of_initial h₀) (along_left (along_left hsafe)) hbefore
  have hnum : Numbered s₁ := run_preserves numbered_step (fun th hth => by simp [h₀.1] at hth)
    (along_trivial before s₀) hbefore
  have hinv : Inv cfg s := run_preserves step_inv hinv₁ (along_left hsafe₁) hafter
  have hlast : SafeStep cfg s (.go i (.ok fresh)) := (along_append hsafe₁ hafter).1
  obtain ⟨s₂, hbump, hrest⟩ := Option.bind_eq_some_iff.mp hafter
  have hbehind : Behind th.user.login s₁.arrivals s₁.counter.moves s :=
    run_preserves behind_step (behind_of_endsSessions hinv₁ hnum hend hbump hlogin)
      (along_trivial after s₂) hrest
  have hsince := since_le_of_obtains (hinv.threads th hmem) (hlast.2 th hth) ho
  obtain ⟨huser, hnew⟩ := hbehind.threads th hmem
  have := huser rfl
  have := hnew hstarted
  omega

def hourly : Config := ⟨3600, 3600, Nat.le_refl _⟩

def nobody : State where
  counter := ⟨0, 0, 0, 0⟩
  store := fun _ => none
  dexRefresh := none
  oauthPK := none
  otherPKs := []
  threads := []
  revoked := 0
  arrivals := 0

def goes (fresh : List ℕ) : List Action := fresh.map (fun n => .go 0 (.ok n))

def loginFor (code : ℕ) : List Action := .login (.code 7 false) :: goes [0, 0, code]

/-- The user logs in and redeems the code for a refresh token. -/
def loggedIn : List Action := loginFor 1 ++ .redeem 1 7 true :: goes [0, 0, 10, 2]

theorem safeStep_of_stage {i fresh : ℕ} (hth : s.threads[i]? = some th) (hh : th.stage ≠ .held)
    (hb : th.stage ≠ .handBack) : SafeStep cfg s (.go i (.ok fresh)) := by
  refine ⟨trivial, fun th' hth' => ?_⟩
  cases hth.symm.trans hth'
  exact ⟨fun h => absurd h hh, fun h => absurd h hb⟩

def consoleLogin (sid : ℕ) : List Action := .login .console :: goes [0, 0, 0, 10, sid]

/-- A console session is used after its user has ended the sessions and has logged in again. -/
theorem old_session_is_refused : ∃ s₁ s th,
    run (step hourly) nobody (consoleLogin 5 ++ [.endSessions none]) = some s₁ ∧
    EndsSessions s₁ (.go 0 (.ok 0)) ∧
    run (step hourly) s₁ (.go 0 (.ok 0) :: (goes [0, 0] ++ consoleLogin 6 ++ [.cookie 5])) =
      some s ∧
    s.threads = [th] ∧ s₁.arrivals ≤ th.serial ∧ Over s₁ th.user.login ∧ ¬ Obtains s th := by
  have hsafe :
      Along (step hourly) (SafeStep hourly) nobody (consoleLogin 5 ++ [.endSessions none] ++
      (.go 0 (.ok 0) :: (goes [0, 0] ++ consoleLogin 6 ++ [.cookie 5])) ++ [.go 0 (.ok 0)]) := by
    iterate 17
      refine along_cons rfl ?_ ?_
      · first | exact ⟨trivial, trivial⟩ | exact safeStep_of_stage rfl nofun nofun
    refine ⟨⟨trivial, fun th hth => ?_⟩, fun _ _ => trivial⟩
    cases hth
    exact ⟨fun _ => by decide, nofun⟩
  have hend : ∀ s₁, run (step hourly) nobody (consoleLogin 5 ++ [.endSessions none]) = some s₁ →
      EndsSessions s₁ (.go 0 (.ok 0)) ∧ Over s₁ 0 := by
    rintro _ ⟨⟩
    exact ⟨⟨0, 0, _, none, rfl, rfl, rfl, rfl⟩, by decide, by decide⟩
  have hfinal := fun (s₁ s : State) th hrun (hend : EndsSessions s₁ _) hafter
      (hth : s.threads[0]? = some th) =>
    ended_sessions_stay_ended ⟨rfl, fun _ => rfl⟩ hsafe hrun hend hafter hth
  refine ⟨_, _, _, rfl, (hend _ rfl).1, rfl, rfl, by decide, (hend _ rfl).2, ?_⟩
  exact hfinal _ _ _ rfl (hend _ rfl).1 rfl rfl (by decide) (hend _ rfl).2

/-- Another client presents the old refresh token, which is put back for a whole window while the
counter runs out; after the next login the old token is honoured. -/
def oldTokenRun : List Action :=
  goes [0, 0] ++ [.wait 3000, .present 2 8] ++ goes [0] ++ .wait 700 :: loginFor 4 ++
    .present 2 7 :: goes [0, 0, 0, 0, 0, 11]

theorem old_token_is_honoured : ¬ ∀ (before after : List Action) (a : Action) (s₁ s : State) (i : ℕ)
    (th : Thread), Along (step hourly) Timely nobody (before ++ (a :: after)) →
      run (step hourly) nobody before = some s₁ → EndsSessions s₁ a →
      run (step hourly) s₁ (a :: after) = some s → s.threads[i]? = some th →
      s₁.arrivals ≤ th.serial → Over s₁ th.user.login → ¬ Obtains s th := by
  intro h
  have htimely : Along (step hourly) Timely nobody
      (loggedIn ++ [.endSessions (some 10)] ++ (.go 0 (.ok 0) :: oldTokenRun)) := by
    iterate 28
      refine along_cons rfl ?_ ?_
      · first | trivial | exact fun th hth => by cases hth
    trivial
  have hend : ∀ s₁, run (step hourly) nobody (loggedIn ++ [.endSessions (some 10)]) = some s₁ →
      EndsSessions s₁ (.go 0 (.ok 0)) ∧ Over s₁ 0 := by
    rintro _ ⟨⟩
    exact ⟨⟨0, 0, _, some 10, rfl, rfl, rfl, rfl⟩, by decide, by decide⟩
  exact h _ oldTokenRun _ _ _ 0 _ htimely rfl (hend _ rfl).1 rfl rfl (by decide) (hend _ rfl).2 rfl

end AchProofs.Auth
