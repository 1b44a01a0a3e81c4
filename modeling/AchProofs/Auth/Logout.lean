import AchProofs.Auth.EndedSessions

/-! Whether a console session is over once its user has logged out. A request that asks the identity
provider again reads the record, makes its remote calls and writes the record back; a logout may
come in between. -/

namespace AchProofs.Auth

open Foundation Foundation.Run

variable {cfg : Config} {s s₁ s' : State} {th : Thread} {sid expiresAt : ℕ}

variable {cell : Cell}

section Keeps

/-- Records only go. -/
def Keeps (s s₁ : State) : Prop := ∀ id cell, s₁.store id = some cell → s.store id = some cell

theorem keeps_of_eq (h : s₁.store = s.store) : Keeps s s₁ := fun _ _ hc => h ▸ hc

theorem keeps_refuse (h : s₁.store = s.store) : Keeps s (refuse s₁ th).1 := by
  rw [refuse]
  split
  · exact fun _ _ hc => h ▸ store_of_del hc
  · exact keeps_of_eq h

theorem keeps_giveUp (h : s₁.store = s.store) : Keeps s (giveUp s₁ th).1 := by
  rw [giveUp_state]
  exact keeps_of_eq h

theorem keeps_heldStep (s : State) (th : Thread) : Keeps s (heldStep cfg s th).1 := by
  rw [heldStep]
  split
  · split
    · split <;> exact keeps_of_eq rfl
    · exact keeps_of_eq rfl
  · exact keeps_refuse rfl

theorem keeps_dexAskStep (s : State) (th : Thread) : Keeps s (dexAskStep cfg s th).1 := by
  rw [dexAskStep]
  split
  · dsimp only
    split <;> exact keeps_of_eq rfl
  · exact keeps_refuse rfl

theorem keeps_issueStep (s : State) (th : Thread) : Keeps s (issueStep cfg s th).1 := by
  rw [issueStep]
  split
  · exact keeps_of_eq rfl
  · exact keeps_giveUp rfl

theorem keeps_lookupStep (s : State) (th : Thread) : Keeps s (lookupStep s th).1 := by
  rw [lookupStep]
  split <;> exact keeps_of_eq rfl

theorem keeps_mintStep (s : State) (th : Thread) (fresh : ℕ) : Keeps s (mintStep s th fresh).1 := by
  rw [mintStep]
  split
  · exact keeps_giveUp rfl
  · exact keeps_of_eq rfl

theorem flipStep_store (s : State) (keyID : ℕ) : (flipStep s keyID).store = s.store := by
  rw [flipStep]
  split
  · rfl
  · split <;> rfl

theorem threadStep_ok_keeps {fresh : ℕ} {e : Effect} (he : threadStep cfg s th (.ok fresh) = some e)
    (hanswer : th.stage ≠ .answer) (hrestore : th.stage ≠ .restore) (hback : th.stage ≠ .handBack) :
    Keeps s e.1 := by
  cases hs : th.stage <;> simp only [threadStep, hs, Option.some.injEq] at he
  case handBack => exact absurd hs hback
  case restore => exact absurd hs hrestore
  case answer => exact absurd hs hanswer
  case held =>
    subst he
    exact keeps_heldStep s th
  case dexGet =>
    subst he
    split
    · exact keeps_of_eq rfl
    · exact keeps_refuse rfl
  case dexAsk =>
    subst he
    exact keeps_dexAskStep s th
  case refusing =>
    split at he <;> cases he
    · exact keeps_of_eq rfl
    · exact keeps_refuse rfl
  case refusingRow =>
    subst he
    exact keeps_refuse rfl
  case issue =>
    subst he
    exact keeps_issueStep s th
  case lookup =>
    subst he
    exact keeps_lookupStep s th
  case decide => split at he <;> cases he <;> exact keeps_of_eq rfl
  case mint =>
    subst he
    exact keeps_mintStep s th fresh
  case replace | arrived | stored | ending | moved =>
    subst he
    exact keeps_of_eq rfl
  case ended =>
    split at he <;> cases he
    · exact keeps_of_eq (flipStep_store s _)
    · exact keeps_of_eq rfl

/-- A step writes a record only as the answer of a request, or to put back a refresh token. -/
theorem threadStep_keeps {a : Answer} {e : Effect} (he : threadStep cfg s th a = some e) :
    Keeps s e.1 ∨
      (∃ fresh, a = .ok fresh ∧ th.stage = .answer ∧ e = (answerStep cfg s th fresh, none)) ∨
      e = (restoreStep cfg s th, none) := by
  cases a
  case ok fresh =>
    by_cases hanswer : th.stage = .answer
    · simp only [threadStep, hanswer] at he
      split at he <;> cases he
      exact .inr (.inl ⟨fresh, rfl, hanswer, rfl⟩)
    by_cases hrestore : th.stage = .restore
    · simp only [threadStep, hrestore] at he
      cases he
      exact .inr (.inr rfl)
    by_cases hback : th.stage = .handBack
    · simp only [threadStep, hback] at he
      cases he
      exact .inr (.inr rfl)
    exact .inl (threadStep_ok_keeps he hanswer hrestore hback)
  case gone | denied =>
    cases hs : th.stage <;> simp only [threadStep, hs, reduceCtorEq] at he
    cases he
    exact .inl (keeps_of_eq rfl)
  case fail =>
    left
    cases hs : th.stage <;> simp only [threadStep, hs, Option.some.injEq] at he
    case held => split at he <;> cases he <;> exact keeps_of_eq rfl
    case refusing | refusingRow =>
      subst he
      exact keeps_refuse rfl
    all_goals
      subst he
      first | exact keeps_of_eq rfl | exact keeps_giveUp rfl

end Keeps

section Steps

/-- What happens around one console session. The deletion of a logout may fail, which its caller is
not told. -/
inductive ConsoleAct where
  | other (a : Action)
  | logout (deleted : Bool)

/-- Random identifiers are new, so nobody draws that of the session again. -/
def consoleStep (cfg : Config) (sid : ℕ) (s : State) : ConsoleAct → Option State
  | .other (.go i (.ok fresh)) => if fresh = sid then none else step cfg s (.go i (.ok fresh))
  | .other a => step cfg s a
  | .logout deleted => some (if deleted then s.del sid else s)

def HasRecord (s : State) (sid : ℕ) (cell : Cell) (revalidateAt expiresAt : ℕ) : Prop :=
  s.store sid = some cell ∧ cell.body = .websession revalidateAt expiresAt

def WritesBack (s : State) (sid : ℕ) (a : ConsoleAct) (th : Thread) : Prop :=
  ∃ i fresh revalidateAt expiresAt, a = .other (.go i (.ok fresh)) ∧ s.threads[i]? = some th ∧
    th.stage = .answer ∧ th.caller = .console sid revalidateAt expiresAt

variable {a : ConsoleAct} {revalidateAt : ℕ}

theorem step_of_consoleStep {b : Action} (h : consoleStep cfg sid s (.other b) = some s') :
    step cfg s b = some s' ∧ ∀ i, b ≠ .go i (.ok sid) := by
  rw [consoleStep.eq_def] at h
  split at h
  · rename_i heq
    cases heq
    split at h
    · nomatch h
    · rename_i hne
      exact ⟨h, fun i heq => hne (by cases heq; rfl)⟩
  · rename_i hne heq
    cases heq
    refine ⟨h, ?_⟩
    rintro i rfl
    exact hne i sid rfl
  · rename_i heq
    nomatch heq

theorem store_put_iff {id : ℕ} {body : Body} {user : User} {ttl : ℕ} :
    (s.put id body user ttl).store sid = some cell ↔
      sid = id ∧ cell = ⟨body, user, s.now + ttl⟩ ∨ sid ≠ id ∧ s.store sid = some cell := by
  simp only [State.put, Function.update_apply]
  split
  · rename_i h
    simp [h, eq_comm]
  · rename_i h
    simp [h]

theorem hasRecord_put {id : ℕ} {body : Body} {user : User} {ttl : ℕ}
    (h : HasRecord (s.put id body user ttl) sid cell revalidateAt expiresAt)
    (hb : sid = id → body ≠ .websession revalidateAt expiresAt) :
    HasRecord s sid cell revalidateAt expiresAt := by
  obtain ⟨heq, rfl⟩ | ⟨-, hs⟩ := store_put_iff.mp h.1
  · exact absurd h.2 (hb heq)
  · exact ⟨hs, h.2⟩

theorem hasRecord_answerStep {fresh : ℕ} (hf : fresh ≠ sid)
    (h : HasRecord (answerStep cfg s th fresh) sid cell revalidateAt expiresAt) :
    HasRecord s sid cell revalidateAt expiresAt ∨
      (∃ r, th.caller = .console sid r expiresAt) ∧
        cell.expires = s.now + (expiresAt - th.started) := by
  rw [answerStep] at h
  split at h
  · exact .inl (hasRecord_put h (by nofun))
  · rename_i id r e hc
    obtain ⟨rfl, rfl⟩ | ⟨-, hs⟩ := store_put_iff.mp h.1
    · cases h.2
      exact .inr ⟨⟨r, hc⟩, rfl⟩
    · exact .inl ⟨hs, h.2⟩
  · exact .inl (hasRecord_put h fun heq => absurd heq.symm hf)
  · split at h
    · exact .inl h
    · exact .inl (hasRecord_put h (by nofun))
  · exact .inl (hasRecord_put h (by nofun))
  · exact .inl (hasRecord_put h (by nofun))
  · exact .inl (hasRecord_put h (by nofun))
  · exact .inl h

theorem hasRecord_restoreStep
    (h : HasRecord (restoreStep cfg s th) sid cell revalidateAt expiresAt) :
    HasRecord s sid cell revalidateAt expiresAt := by
  rw [restoreStep] at h
  split at h
  · exact hasRecord_put h (by nofun)
  · exact h

theorem hasRecord_step (hs : consoleStep cfg sid s a = some s')
    (h : HasRecord s' sid cell revalidateAt expiresAt) :
    HasRecord s sid cell revalidateAt expiresAt ∨
      ∃ th r, WritesBack s sid a th ∧ th.caller = .console sid r expiresAt ∧
        cell.expires = s.now + (expiresAt - th.started) := by
  cases a with
  | logout deleted =>
    cases hs
    cases deleted with
    | false => exact .inl h
    | true => exact .inl ⟨store_of_del h.1, h.2⟩
  | other b =>
    obtain ⟨hstep, hne⟩ := step_of_consoleStep hs
    by_cases hgo : ∃ i ans, b = .go i ans
    · obtain ⟨i, ans, rfl⟩ := hgo
      rw [step] at hstep
      split at hstep
      · rename_i th hth
        obtain ⟨e, he, rfl⟩ := Option.map_eq_some_iff.mp hstep
        rw [HasRecord, (settle_fields s i e).2.1] at h
        rcases threadStep_keeps he with hq | ⟨fresh, rfl, hst, rfl⟩ | rfl
        · exact .inl ⟨hq _ _ h.1, h.2⟩
        · have hf : fresh ≠ sid := fun heq => hne i (by rw [heq])
          rcases hasRecord_answerStep hf h with h | ⟨⟨r, hc⟩, hexp⟩
          · exact .inl h
          · exact .inr ⟨th, r, ⟨i, fresh, r, expiresAt, rfl, hth, hst, hc⟩, hc, hexp⟩
        · exact .inl (hasRecord_restoreStep h)
      · cases hstep
    · have hcalls := calls_step hstep fun i ans heq => hgo ⟨i, ans, heq⟩
      exact .inl ⟨hcalls.store _ _ h.1, h.2⟩

def Started (s : State) (th : Thread) : Prop :=
  th.started = s.now ∧ ∀ sid r e, th.caller = .console sid r e →
    ∃ cell, HasRecord s sid cell r e ∧ s.now < e

theorem threads_step (hs : consoleStep cfg sid s a = some s') {t : Thread} (ht : t ∈ s'.threads) :
    (∃ u ∈ s.threads, u.caller = t.caller ∧ u.started = t.started) ∨ Started s t := by
  cases a with
  | logout deleted =>
    cases hs
    cases deleted <;> exact .inl ⟨t, ht, rfl, rfl⟩
  | other b =>
    obtain ⟨hstep, -⟩ := step_of_consoleStep hs
    by_cases hgo : ∃ i ans, b = .go i ans
    · obtain ⟨i, ans, rfl⟩ := hgo
      rw [step] at hstep
      split at hstep
      · rename_i th hth
        obtain ⟨e, he, rfl⟩ := Option.map_eq_some_iff.mp hstep
        rcases mem_settle ht with ht | hnew
        · exact .inl ⟨t, ht, rfl, rfl⟩
        · have hgoes := threadStep_next he t hnew
          exact .inl ⟨th, List.mem_of_getElem? hth, hgoes.caller.symm, hgoes.started.symm⟩
      · cases hstep
    · have hcalls := calls_step hstep fun i ans heq => hgo ⟨i, ans, heq⟩
      rcases hcalls.threads t ht with ht | ⟨harr, -⟩
      · exact .inl ⟨t, ht, rfl, rfl⟩
      · refine .inr ⟨harr.started, fun sid r e hc => ?_⟩
        obtain ⟨cell, hcell, hb, hlt⟩ := harr.console sid r e hc
        exact ⟨cell, ⟨hcell, hb⟩, hlt⟩

end Steps

section Final

/-- The state a console login leaves: the record of the session, and no request for it yet. -/
structure LoggedIn (s : State) (sid expiresAt : ℕ) : Prop where
  record : ∃ cell revalidateAt, HasRecord s sid cell revalidateAt expiresAt ∧
    cell.expires ≤ expiresAt
  threads : ∀ th ∈ s.threads, ∀ r e, th.caller ≠ .console sid r e

/-- The expiry that was fixed at the login is the one of every record and every request. -/
structure Fixed (s : State) (sid expiresAt : ℕ) : Prop where
  record : ∀ cell r e, HasRecord s sid cell r e → e = expiresAt
  threads : ∀ th ∈ s.threads, ∀ r e, th.caller = .console sid r e → e = expiresAt ∧
    th.started < expiresAt

def Refused (cfg : Config) (s : State) (sid : ℕ) : Prop :=
  ∀ s', step cfg s (.cookie sid) = some s' → s'.threads = s.threads

/-- A record is written back only while it is there, and a logout does delete it. -/
def Standing (sid : ℕ) (s : State) (a : ConsoleAct) : Prop :=
  (∀ th, WritesBack s sid a th → ∃ cell r e, s.get sid = some cell ∧ cell.body = .websession r e) ∧
    a ≠ .logout false

/-- A record is written back in the second in which its request started. -/
def Prompt (sid : ℕ) (s : State) (a : ConsoleAct) : Prop :=
  ∀ th, WritesBack s sid a th → s.now = th.started

variable {a : ConsoleAct}

theorem LoggedIn.fixed (h : LoggedIn s sid expiresAt) : Fixed s sid expiresAt where
  record cell r e hc := by
    obtain ⟨cell', r', h', -⟩ := h.record
    cases h'.1.symm.trans hc.1
    cases h'.2.symm.trans hc.2
    rfl
  threads th hth r e hc := absurd hc (h.threads th hth r e)

theorem WritesBack.mem (h : WritesBack s sid a th) : th ∈ s.threads := by
  obtain ⟨i, fresh, r, e, -, hth, -, -⟩ := h
  exact List.mem_of_getElem? hth

theorem fixed_step (h : Fixed s sid expiresAt) (hs : consoleStep cfg sid s a = some s') :
    Fixed s' sid expiresAt where
  record cell r e hc := by
    rcases hasRecord_step hs hc with hc | ⟨th, r', hw, hcaller, -⟩
    · exact h.record cell r e hc
    · exact (h.threads th hw.mem r' e hcaller).1
  threads th hth r e hc := by
    rcases threads_step hs hth with ⟨u, hu, hcu, hst⟩ | hst
    · rw [← hst]
      exact h.threads u hu r e (hcu.trans hc)
    · obtain ⟨cell, hcell, hlt⟩ := hst.2 sid r e hc
      have he := h.record cell r e hcell
      rw [hst.1]
      exact ⟨he, he ▸ hlt⟩

theorem bound_step
    (h : Fixed s sid expiresAt ∧ ∀ cell r e, HasRecord s sid cell r e → cell.expires ≤ expiresAt)
    (hp : Prompt sid s a) (hs : consoleStep cfg sid s a = some s') :
    Fixed s' sid expiresAt ∧ ∀ cell r e, HasRecord s' sid cell r e → cell.expires ≤ expiresAt := by
  refine ⟨fixed_step h.1 hs, fun cell r e hc => ?_⟩
  rcases hasRecord_step hs hc with hc | ⟨th, r', hw, hcaller, hexp⟩
  · exact h.2 cell r e hc
  · obtain ⟨rfl, hlt⟩ := h.1.threads th hw.mem r' e hcaller
    rw [hexp, hp th hw]
    omega

theorem gone_step (h : ∀ cell r e, ¬ HasRecord s sid cell r e) (hp : Standing sid s a)
    (hs : consoleStep cfg sid s a = some s') : ∀ cell r e, ¬ HasRecord s' sid cell r e := by
  intro cell r e hc
  rcases hasRecord_step hs hc with hc | ⟨th, r', hw, -, -⟩
  · exact h cell r e hc
  · obtain ⟨cell', r'', e', hget, hb⟩ := hp.1 th hw
    exact h cell' r'' e' ⟨(store_of_get hget).1, hb⟩

theorem gone_logout (s : State) (sid : ℕ) : ∀ cell r e, ¬ HasRecord (s.del sid) sid cell r e := by
  rintro cell r e ⟨h, -⟩
  simp [State.del] at h

theorem refused_of_stale (h : ∀ cell r e, HasRecord s sid cell r e → e ≤ s.now) :
    Refused cfg s sid := by
  intro s' hs
  rw [step] at hs
  split at hs
  · rename_i cell hget
    split at hs
    · rename_i r e hb
      rw [if_neg (Nat.not_lt.mpr (h cell r e ⟨(store_of_get hget).1, hb⟩))] at hs
      cases hs
      rfl
    · cases hs
      rfl
  · cases hs
    rfl

/-- After a logout no call that starts later is authenticated, in every run in which records are
written back only while they are there; a record expires by the time fixed at the login, in every
run in which they are written back at once; and from that time on no call is authenticated at
all. -/
theorem logout_is_final {s₀ : State} {as : List ConsoleAct} (h₀ : LoggedIn s₀ sid expiresAt)
    (hrun : run (consoleStep cfg sid) s₀ as = some s) :
    ((∃ deleted, .logout deleted ∈ as) → Along (consoleStep cfg sid) (Standing sid) s₀ as →
        Refused cfg s sid) ∧
      (Along (consoleStep cfg sid) (Prompt sid) s₀ as →
        ∀ cell r e, HasRecord s sid cell r e → cell.expires ≤ expiresAt) ∧
      (expiresAt ≤ s.now → Refused cfg s sid) := by
  have hfixed : Fixed s sid expiresAt :=
    run_preserves (fun _ _ _ h _ hs => fixed_step h hs) h₀.fixed (along_trivial as s₀) hrun
  refine ⟨?_, ?_, fun hn => refused_of_stale fun cell r e hc =>
    (hfixed.record cell r e hc).trans_le hn⟩
  · rintro ⟨deleted, hmem⟩ hok
    obtain ⟨before, after, rfl⟩ := List.append_of_mem hmem
    obtain ⟨s₁, h₁, h₂⟩ := exists_of_run_append hrun
    have hafter := along_append hok h₁
    obtain ⟨s₂, hlogout, h₃⟩ := Option.bind_eq_some_iff.mp h₂
    have hdeleted : deleted = true := by
      cases deleted with
      | false => exact absurd rfl hafter.1.2
      | true => rfl
    subst hdeleted
    cases hlogout
    have hgone := run_preserves (fun _ _ _ h hp hs => gone_step h hp hs) (gone_logout s₁ sid)
      (hafter.2 _ rfl) h₃
    exact refused_of_stale fun cell r e hc => absurd hc (hgone cell r e)
  · intro hok
    have hbound : ∀ cell r e, HasRecord s₀ sid cell r e → cell.expires ≤ expiresAt := by
      intro cell r e hc
      obtain ⟨cell', r', hc', hle⟩ := h₀.record
      cases hc'.1.symm.trans hc.1
      exact hle
    exact (run_preserves (fun _ _ _ h hp hs => bound_step h hp hs) ⟨h₀.fixed, hbound⟩ hok hrun).2

end Final

section Instances

def twoHours : Config := ⟨7200, 3600, by decide⟩

def revalidation : List ConsoleAct :=
  [.other (.wait 3600), .other (.cookie 5)] ++ (goes [0, 0, 0, 0, 0]).map .other

def lateAnswer : List ConsoleAct :=
  revalidation ++ [.logout true, .other (.wait 5), .other (.go 0 (.ok 0)), .other (.cookie 5)]

def signedIn : State := (run (step twoHours) nobody (consoleLogin 5)).getD nobody

theorem loggedIn_signedIn : LoggedIn signedIn 5 7200 where
  record := ⟨_, _, ⟨rfl, rfl⟩, by decide⟩
  threads := by
    intro th hth
    nomatch hth

theorem session_survives_logout : ∃ s th cell r, LoggedIn signedIn 5 7200 ∧
    run (consoleStep twoHours 5) signedIn lateAnswer = some s ∧ s.threads = [th] ∧ Obtains s th ∧
    HasRecord s 5 cell r 7200 ∧ 7200 < cell.expires := by
  refine ⟨_, _, _, _, loggedIn_signedIn, rfl, rfl, ?_, ⟨rfl, rfl⟩, by decide⟩
  exact .inr ⟨rfl, by decide, rfl⟩

def answerThenLogout : List ConsoleAct :=
  revalidation ++ [.other (.go 0 (.ok 0)), .logout true]

theorem standing_call {b : Action} (h : ∀ i fresh, b ≠ .go i (.ok fresh)) :
    Standing sid s (.other b) := by
  refine ⟨?_, nofun⟩
  rintro th ⟨i, fresh, r, e, ha, -⟩
  cases ha
  exact absurd rfl (h i fresh)

theorem standing_logout : Standing sid s (.logout true) := by
  refine ⟨?_, nofun⟩
  rintro th ⟨i, fresh, r, e, ha, -⟩
  nomatch ha

theorem standing_go {i fresh : ℕ} (hth : s.threads[i]? = some th) (hst : th.stage ≠ .answer) :
    Standing sid s (.other (.go i (.ok fresh))) := by
  refine ⟨?_, nofun⟩
  rintro th' ⟨i', fresh', r, e, ha, hth', hst', -⟩
  cases ha
  cases hth.symm.trans hth'
  exact absurd hst' hst

theorem session_ends_at_logout :
    ∃ s, run (consoleStep twoHours 5) signedIn answerThenLogout = some s ∧
    Refused twoHours s 5 := by
  have hrun : ∃ s, run (consoleStep twoHours 5) signedIn answerThenLogout = some s := ⟨_, rfl⟩
  obtain ⟨s, hrun⟩ := hrun
  refine ⟨s, hrun, (logout_is_final loggedIn_signedIn hrun).1 ⟨true, ?_⟩ ?_⟩
  · simp [answerThenLogout]
  · iterate 2 refine along_cons rfl (standing_call nofun) ?_
    iterate 5 refine along_cons rfl (standing_go rfl nofun) ?_
    refine along_cons rfl ⟨fun th _ => ⟨_, _, _, rfl, rfl⟩, nofun⟩ ?_
    exact along_cons rfl standing_logout trivial

end Instances

end AchProofs.Auth
