import AchProofs.Auth.GrantsOnce

namespace AchProofs.Auth.Grants

open Foundation

/-- The record of a refresh token is that of the client it was issued to. -/
def OwnedBy (s : State) (r : ℕ) (rec : Rec) : Prop :=
  .refresh r ∈ s.born ∧ rec = .refresh (s.owner r)

/-- The records and the history agree: a device is decided at most once, and what is handed out for
it was approved. -/
structure StoreOk (s : State) : Prop where
  device : ∀ d rec, s.store (.device d) = some rec → ∃ clientID status,
    rec = .device clientID status
  born : ∀ d rec, s.store (.device d) = some rec → .device d ∈ s.born
  refresh : ∀ r rec, s.store (.refresh r) = some rec → OwnedBy s r rec
  pending : ∀ d clientID, s.store (.device d) = some (.device clientID .pending) →
    d ∉ s.approved ∧ d ∉ s.denied
  approved : ∀ d clientID, s.store (.device d) = some (.device clientID .approved) → d ∈ s.approved
  once : ∀ d ∈ s.approved, d ∉ s.denied
  new : ∀ d, .device d ∉ s.born → d ∉ s.approved ∧ d ∉ s.denied
  pairs : ∀ d, .device d ∈ s.pairs → d ∈ s.approved

def StageOk (s : State) : Stage → Prop
  | .takeDevice d => d ∈ s.approved
  | .issue (.device d) _ => d ∈ s.approved
  | .issue (.refresh r) rec => OwnedBy s r rec
  | .held r rec => OwnedBy s r rec
  | .restore r rec => OwnedBy s r rec
  | _ => True

def Gone (s : State) (r : ℕ) : Prop :=
  .refresh r ∈ s.pairs ∨ r ∈ s.refused ∨ .refresh r ∈ s.expired

/-- A refresh token that is not gone is in the store, or some request `has` it. -/
def Accounted (s : State) (r : ℕ) (has : Prop) : Prop :=
  .refresh r ∈ s.born → (s.store (.refresh r)).isSome ∨ Gone s r ∨ has

def nextHolds (t : Token) : Option Stage → Prop
  | none => False
  | some st => st.holds = some t

section Step

variable {s s' : State} {t : Token}

variable {st : Stage} {r clientID d : ℕ} {rec : Rec} {next : Option Stage} {answer : Answer}
  {th : Thread}

/-- What a request may rely on while others run. -/
structure Grows (s s' : State) : Prop where
  approved : s.approved ⊆ s'.approved
  born : s.born ⊆ s'.born
  owner : ∀ r, .refresh r ∈ s.born → s'.owner r = s.owner r

theorem grows_of_eq (ha : s'.approved = s.approved) (hb : s'.born = s.born)
    (ho : s'.owner = s.owner) : Grows s s' :=
  ⟨ha ▸ fun _ h => h, hb ▸ fun _ h => h, fun _ _ => by rw [ho]⟩

theorem grows_bear (t : Token) (rec : Rec) : Grows s (s.bear t rec) :=
  ⟨fun _ h => h, List.subset_cons_self _ _, fun _ _ => rfl⟩

theorem grows_grant {fresh : ℕ} (hnew : .refresh fresh ∉ s.born) (clientID : ℕ) :
    Grows s (s.grant fresh clientID) :=
  ⟨fun _ h => h, List.subset_cons_self _ _, fun r hr =>
    Function.update_of_ne (fun he : r = fresh => hnew (he ▸ hr)) ..⟩

theorem OwnedBy.mono (h : OwnedBy s r rec) (hg : Grows s s') : OwnedBy s' r rec :=
  ⟨hg.born h.1, by rw [hg.owner r h.1]; exact h.2⟩

theorem StageOk.mono (h : StageOk s st) (hg : Grows s s') : StageOk s' st := by
  cases st with
  | takeDevice d => exact hg.approved h
  | issue t rec =>
    cases t with
    | device d => exact hg.approved h
    | code c => trivial
    | refresh r => exact OwnedBy.mono h hg
  | held r rec | restore r rec => exact OwnedBy.mono h hg
  | _ => exact h

theorem StoreOk.del (hs : StoreOk s) (t : Token) : StoreOk (s.del t) := by
  have hstore : ∀ t' rec, (s.del t).store t' = some rec → s.store t' = some rec := by
    intro t' rec h
    rw [State.del_store, Function.update_apply] at h
    split_ifs at h
    exact h
  exact ⟨fun d rec h => hs.device d rec (hstore _ _ h),
    fun d rec h => hs.born d rec (hstore _ _ h), fun r rec h => hs.refresh r rec (hstore _ _ h),
    fun d c h => hs.pending d c (hstore _ _ h), fun d c h => hs.approved d c (hstore _ _ h),
    hs.once, hs.new, hs.pairs⟩

theorem StoreOk.put_refresh (hs : StoreOk s) (hrec : OwnedBy s r rec) :
    StoreOk (s.put (.refresh r) rec) := by
  have hdevice : ∀ d, (s.put (.refresh r) rec).store (.device d) = s.store (.device d) := by
    intro d
    rw [State.put_store, Function.update_of_ne]
    exact nofun
  refine ⟨fun d rec' h => hs.device d rec' (hdevice d ▸ h),
    fun d rec' h => hs.born d rec' (hdevice d ▸ h), fun r' rec' h => ?_,
    fun d c h => hs.pending d c (hdevice d ▸ h), fun d c h => hs.approved d c (hdevice d ▸ h),
    hs.once, hs.new, hs.pairs⟩
  rw [State.put_store, Function.update_apply] at h
  split_ifs at h with hr
  · cases h
    cases hr
    exact hrec
  · exact hs.refresh r' rec' h

theorem StoreOk.grant (hs : StoreOk s) {fresh : ℕ} (hnew : .refresh fresh ∉ s.born)
    (clientID : ℕ) : StoreOk (s.grant fresh clientID) := by
  have hdevice : ∀ d, (s.grant fresh clientID).store (.device d) = s.store (.device d) := by
    intro d
    rw [State.grant_store, Function.update_of_ne]
    exact nofun
  refine ⟨fun d rec h => hs.device d rec (hdevice d ▸ h),
    fun d rec h => List.mem_cons_of_mem _ (hs.born d rec (hdevice d ▸ h)), fun r rec h => ?_,
    fun d c h => hs.pending d c (hdevice d ▸ h), fun d c h => hs.approved d c (hdevice d ▸ h),
    hs.once, fun d hd => hs.new d (fun h => hd (List.mem_cons_of_mem _ h)), hs.pairs⟩
  rw [State.grant_store, Function.update_apply] at h
  split_ifs at h with hr
  · cases h
    cases hr
    exact ⟨List.mem_cons_self, by rw [State.grant_owner, Function.update_self]⟩
  · exact (hs.refresh r rec h).mono (grows_grant hnew clientID)

/-- A device that is still pending is decided. -/
theorem StoreOk.decide (hs : StoreOk s)
    (hrec : s.store (.device d) = some (.device clientID .pending)) {status : DeviceStatus}
    (hdecided : status = .approved ∧ s'.approved = d :: s.approved ∧ s'.denied = s.denied ∨
      status = .denied ∧ s'.approved = s.approved ∧ s'.denied = d :: s.denied)
    (hstore : s'.store = (s.put (.device d) (.device clientID status)).store)
    (hborn' : s'.born = s.born) (howner : s'.owner = s.owner) (hpairs : s'.pairs = s.pairs) :
    StoreOk s' := by
  obtain ⟨hna, hnd⟩ := hs.pending d clientID hrec
  have hborn := hs.born d _ hrec
  have hself : s'.store (.device d) = some (.device clientID status) := by
    rw [hstore, State.put_store, Function.update_self]
  have hother : ∀ t, t ≠ .device d → s'.store t = s.store t := by
    intro t ht
    rw [hstore, State.put_store, Function.update_of_ne ht]
  have hdne : ∀ d', d' ≠ d → s'.store (.device d') = s.store (.device d') :=
    fun d' hne => hother _ (fun h => hne (Token.device.inj h))
  have hpend : status ≠ .pending := by
    obtain ⟨h, _⟩ | ⟨h, _⟩ := hdecided <;> rw [h] <;> exact nofun
  have hsub : s.approved ⊆ s'.approved := by
    obtain ⟨_, h, _⟩ | ⟨_, h, _⟩ := hdecided <;> rw [h]
    · exact List.subset_cons_self _ _
    · exact fun _ h => h
  refine ⟨fun d' rec h => ?_, fun d' rec h => ?_, fun r rec h => ?_, fun d' c h => ?_,
    fun d' c h => ?_, fun d' hd' => ?_, fun d' hd' => ?_, fun d' hd' => ?_⟩
  · obtain rfl | hne := eq_or_ne d' d
    · exact ⟨clientID, status, Option.some.inj (h.symm.trans hself)⟩
    · exact hs.device d' rec (hdne d' hne ▸ h)
  · rw [hborn']
    obtain rfl | hne := eq_or_ne d' d
    · exact hborn
    · exact hs.born d' rec (hdne d' hne ▸ h)
  · have hold := hs.refresh r rec (hother (.refresh r) (by simp) ▸ h)
    exact ⟨hborn' ▸ hold.1, howner ▸ hold.2⟩
  · obtain rfl | hne := eq_or_ne d' d
    · cases h.symm.trans hself
      exact absurd rfl hpend
    · have hold := hs.pending d' c (hdne d' hne ▸ h)
      obtain ⟨_, ha, hd⟩ | ⟨_, ha, hd⟩ := hdecided <;> rw [ha, hd] <;> simp [hne, hold]
  · obtain rfl | hne := eq_or_ne d' d
    · cases h.symm.trans hself
      obtain ⟨_, ha, _⟩ | ⟨h, _⟩ := hdecided
      · rw [ha]
        exact List.mem_cons_self
      · cases h
    · exact hsub (hs.approved d' c (hdne d' hne ▸ h))
  · obtain ⟨_, ha, hd⟩ | ⟨_, ha, hd⟩ := hdecided
    · rw [hd]
      obtain rfl | hd' := List.mem_cons.mp (ha ▸ hd')
      · exact hnd
      · exact hs.once d' hd'
    · rw [ha] at hd'
      rw [hd, List.mem_cons, not_or]
      exact ⟨fun h => hna (h ▸ hd'), hs.once d' hd'⟩
  · rw [hborn'] at hd'
    have hold := hs.new d' hd'
    have hne : d' ≠ d := fun h => hd' (h ▸ hborn)
    obtain ⟨_, ha, hd⟩ | ⟨_, ha, hd⟩ := hdecided <;> rw [ha, hd] <;> simp [hne, hold]
  · exact hsub (hs.pairs d' (hpairs ▸ hd'))

/-- A step of a request keeps the store's invariant and the request's own, and loses no refresh
token, whoever else `has` one. -/
structure Sound (s s' : State) (st : Stage) (next : Option Stage) : Prop where
  store : StoreOk s'
  grows : Grows s s'
  after : ∀ st' ∈ next, StageOk s' st'
  accounted : ∀ r has, Accounted s r (st.holds = some (.refresh r) ∨ has) →
    Accounted s' r (nextHolds (.refresh r) next ∨ has)

theorem sound_same (hs : StoreOk s) (hnext : ∀ st' ∈ next, StageOk s st')
    (hholds : ∀ r, st.holds = some (.refresh r) → nextHolds (.refresh r) next) :
    Sound s s st next :=
  ⟨hs, grows_of_eq rfl rfl rfl, hnext, fun r _ h hb =>
    (h hb).imp_right (.imp_right (.imp_left (hholds r)))⟩

theorem sound_over (hs : StoreOk s) (hst : ∀ r, st.holds ≠ some (.refresh r)) : Sound s s st none :=
  sound_same hs nofun (fun r h => absurd h (hst r))

theorem sound_del (hs : StoreOk s) {t : Token} (hst : st.holds = none)
    (hnext : ∀ st' ∈ next, StageOk s st')
    (ht : ∀ r, t = .refresh r → s.store t = none ∨ nextHolds t next) :
    Sound s (s.del t) st next := by
  have hgrows : Grows s (s.del t) := grows_of_eq rfl rfl rfl
  refine ⟨hs.del t, hgrows, fun st' h => (hnext st' h).mono hgrows, ?_⟩
  intro r has h hb
  obtain h | h | h | h := h hb
  · by_cases hr : t = .refresh r
    · obtain h0 | hn := ht r hr
      · rw [hr] at h0
        rw [h0] at h
        cases h
      · exact .inr (.inr (.inl (hr ▸ hn)))
    · refine .inl ?_
      rw [State.del_store, Function.update_of_ne (fun h => hr h.symm)]
      exact h
  · exact .inr (.inl h)
  · rw [hst] at h
    cases h
  · exact .inr (.inr (.inr h))

theorem Accounted.grant {has : Prop} (h : Accounted s r has) (fresh clientID : ℕ) :
    Accounted (s.grant fresh clientID) r has := by
  intro hb
  by_cases hr : r = fresh
  · refine .inl ?_
    rw [State.grant_store, hr, Function.update_self]
    rfl
  · obtain hb | hb := List.mem_cons.mp hb
    · exact absurd (Token.refresh.inj hb) hr
    · refine (h hb).imp_left (fun h => ?_)
      rw [State.grant_store, Function.update_of_ne (fun h => hr (Token.refresh.inj h))]
      exact h

theorem stageOk_giveUp {token : Token} (h : StageOk s (.issue token rec)) :
    ∀ st' ∈ giveUp token rec, StageOk s st' := by
  intro st' hst'
  cases token with
  | refresh r =>
    cases hst'
    exact h
  | code c => cases hst'
  | device d => cases hst'

theorem holds_giveUp (token : Token) (rec : Rec) (r : ℕ)
    (h : (Stage.issue token rec).holds = some (.refresh r)) :
    nextHolds (.refresh r) (giveUp token rec) := by
  cases h
  exact rfl

theorem issueStep_sound (hs : StoreOk s) {token : Token} (hst : StageOk s (.issue token rec))
    (h : issueStep s clientID token rec answer = some (s', next)) :
    Sound s s' (.issue token rec) next := by
  cases answer with
  | ok fresh =>
    simp only [issueStep] at h
    split_ifs at h with hb
    cases h
    have hgrant := hs.grant hb clientID
    have hgrows := grows_grant hb clientID
    refine ⟨⟨hgrant.device, hgrant.born, hgrant.refresh, hgrant.pending, hgrant.approved,
      hgrant.once, hgrant.new, fun d hd => ?_⟩, ⟨hgrows.approved, hgrows.born, hgrows.owner⟩,
      by rintro _ ⟨⟩, fun r has h hborn => ?_⟩
    · obtain hd | hd := List.mem_cons.mp hd
      · rw [← hd] at hst
        exact hst
      · exact hs.pairs d hd
    · obtain h | h | h | h := h.grant fresh clientID hborn
      · exact .inl h
      · exact .inr (.inl (h.imp_left (List.mem_cons_of_mem _)))
      · exact .inr (.inl (.inl (List.mem_cons.mpr (.inl (Option.some.inj h).symm))))
      · exact .inr (.inr (.inr h))
  | lost fresh =>
    simp only [issueStep] at h
    split_ifs at h with hb
    cases h
    have hgive := sound_same hs (stageOk_giveUp hst) (holds_giveUp token rec)
    exact ⟨hs.grant hb clientID, grows_grant hb clientID,
      fun st' h => (stageOk_giveUp hst st' h).mono (grows_grant hb clientID),
      fun r has h => (hgive.accounted r has h).grant fresh clientID⟩
  | fail | refused =>
    cases h
    exact sound_same hs (stageOk_giveUp hst) (holds_giveUp token rec)

theorem sound_restore (hs : StoreOk s) (hst : StageOk s (.restore r rec)) :
    Sound s (s.put (.refresh r) rec) (.restore r rec) none := by
  refine ⟨hs.put_refresh hst, grows_of_eq rfl rfl rfl, nofun, fun r' has h hb => ?_⟩
  have hstore : (s.store (.refresh r')).isSome ∨ r' = r →
      ((s.put (.refresh r) rec).store (.refresh r')).isSome := by
    intro h
    rw [State.put_store, Function.update_apply]
    split_ifs with hr
    · rfl
    · exact h.resolve_right (fun h => hr (congrArg Token.refresh h))
  obtain h | h | h | h := h hb
  · exact .inl (hstore (.inl h))
  · exact .inr (.inl h)
  · cases h
    exact .inl (hstore (.inr rfl))
  · exact .inr (.inr (.inr h))

theorem sound_refused (hs : StoreOk s) (r : ℕ) (rec : Rec) :
    Sound s { s with refused := r :: s.refused } (.held r rec) none := by
  refine ⟨⟨hs.device, hs.born, hs.refresh, hs.pending, hs.approved, hs.once, hs.new, hs.pairs⟩,
    grows_of_eq rfl rfl rfl, nofun, fun r' has h hb => ?_⟩
  obtain h | h | h | h := h hb
  · exact .inl h
  · exact .inr (.inl (h.imp_right (.imp_left (List.mem_cons_of_mem _))))
  · cases h
    exact .inr (.inl (.inr (.inl List.mem_cons_self)))
  · exact .inr (.inr (.inr h))

theorem sound_decide (hs : StoreOk s) {approve : Bool} {status : DeviceStatus}
    (hrec : s.store (.device d) = some (.device clientID .pending))
    (hdecided : status = .approved ∧ s'.approved = d :: s.approved ∧ s'.denied = s.denied ∨
      status = .denied ∧ s'.approved = s.approved ∧ s'.denied = d :: s.denied)
    (hstore : s'.store = (s.put (.device d) (.device clientID status)).store)
    (hborn : s'.born = s.born) (howner : s'.owner = s.owner) (hgone : ∀ r, Gone s r → Gone s' r)
    (hpairs : s'.pairs = s.pairs) : Sound s s' (.putFinish d clientID approve) none := by
  refine ⟨hs.decide hrec hdecided hstore hborn howner hpairs, ⟨?_, hborn ▸ fun _ h => h,
    fun _ _ => by rw [howner]⟩, nofun, fun r has h hb => ?_⟩
  · obtain ⟨_, h, _⟩ | ⟨_, h, _⟩ := hdecided <;> rw [h]
    · exact List.subset_cons_self _ _
    · exact fun _ h => h
  · have hr : s'.store (.refresh r) = s.store (.refresh r) := by
      rw [hstore, State.put_store, Function.update_of_ne]
      exact nofun
    rw [hr]
    obtain h | h | h | h := h (hborn ▸ hb)
    · exact .inl h
    · exact .inr (.inl (hgone r h))
    · cases h
    · exact .inr (.inr (.inr h))

theorem threadStep_sound (hs : StoreOk s) (hst : StageOk s th.stage)
    (hsafe : StageSafe s answer th.stage) (h : threadStep s th answer = some (s', next)) :
    Sound s s' th.stage next := by
  unfold threadStep at h
  cases hstage : th.stage with
  | takeCode id proof =>
    simp only [hstage] at h
    have hover : Sound s (s.del (.code id)) (.takeCode id proof) none :=
      sound_del hs rfl nofun nofun
    split_ifs at h
    · cases h
      exact sound_over hs nofun
    · cases h
      exact hover
    · split at h
      · split_ifs at h
        · cases h
          refine sound_del hs rfl (fun st' h => ?_) nofun
          cases h
          trivial
        · cases h
          exact hover
      · cases h
        exact hover
  | getDevice id =>
    simp only [hstage] at h
    split_ifs at h
    · cases h
      exact sound_over hs nofun
    · split at h
      · rename_i clientID status hrec
        split_ifs at h
        · cases h
          exact sound_over hs nofun
        · cases status with
          | pending =>
            cases h
            exact sound_over hs nofun
          | denied =>
            cases h
            refine sound_same hs (fun st' h => ?_) nofun
            cases h
            trivial
          | approved =>
            cases h
            refine sound_same hs (fun st' h => ?_) nofun
            cases h
            exact hs.approved id clientID hrec
      · cases h
        exact sound_over hs nofun
  | delDevice id =>
    simp only [hstage] at h
    cases h
    split_ifs
    · exact sound_del hs rfl nofun nofun
    · exact sound_over hs nofun
  | takeDevice id =>
    simp only [hstage] at h
    rw [hstage] at hst
    split_ifs at h
    · cases h
      exact sound_over hs nofun
    · cases h
      exact sound_del hs rfl nofun nofun
    · split at h
      · cases h
        refine sound_del hs rfl (fun st' h => ?_) nofun
        cases h
        exact hst
      · cases h
        exact sound_over hs nofun
  | takeRefresh id =>
    simp only [hstage] at h
    rw [hstage] at hsafe
    split_ifs at h with hland hwork
    · cases h
      exact sound_over hs nofun
    · cases h
      have hnone := (hsafe (by simpa using hland)).resolve_left (by simpa using hwork)
      exact sound_del hs rfl nofun (fun _ _ => .inl hnone)
    · split at h
      · rename_i rec hrec
        cases h
        refine sound_del hs rfl (fun st' h => ?_) (fun _ _ => .inr rfl)
        cases h
        exact hs.refresh id rec hrec
      · cases h
        exact sound_over hs nofun
  | held id rec =>
    simp only [hstage] at h
    rw [hstage] at hst
    have hon : ∀ st', st'.holds = some (.refresh id) → StageOk s st' →
        Sound s s (.held id rec) (some st') := by
      intro st' hholds hok
      refine sound_same hs (fun st h => ?_) (fun r h => ?_)
      · cases h
        exact hok
      · cases h
        exact hholds
    split_ifs at h
    · cases h
      exact hon _ rfl hst
    · split at h
      · cases h
        exact hon _ rfl hst
      · cases h
        exact sound_refused hs id rec
      · cases h
        exact hon _ rfl hst
  | issue token rec =>
    simp only [hstage] at h
    rw [hstage] at hst
    exact issueStep_sound hs hst h
  | restore id rec =>
    simp only [hstage] at h
    rw [hstage] at hst hsafe
    have hland : answer.lands = true := hsafe
    rw [hland] at h
    cases h
    exact sound_restore hs hst
  | getFinish id approve =>
    simp only [hstage] at h
    split_ifs at h
    · cases h
      exact sound_over hs nofun
    · split at h
      · cases h
        refine sound_same hs (fun st' h => ?_) nofun
        cases h
        trivial
      · cases h
        exact sound_over hs nofun
  | putFinish id clientID approve =>
    simp only [hstage] at h
    rw [hstage] at hsafe
    split_ifs at h with hland happrove
    · cases h
      exact sound_over hs nofun
    · cases h
      have hrec := hsafe (by simpa using hland)
      rw [happrove]
      exact sound_decide hs hrec (.inl ⟨rfl, rfl, rfl⟩) rfl rfl rfl (fun _ h => h) rfl
    · cases h
      have hrec := hsafe (by simpa using hland)
      rw [Bool.not_eq_true] at happrove
      rw [happrove]
      exact sound_decide hs hrec (.inr ⟨rfl, rfl, rfl⟩) rfl rfl rfl (fun _ h => h) rfl

/-- What holds in every state of a safe run. -/
structure SafeInv (s : State) : Prop where
  store : StoreOk s
  threads : ∀ th ∈ s.threads, StageOk s th.stage
  accounted : ∀ r, Accounted s r (∃ th ∈ s.threads, th.stage.holds = some (.refresh r))

theorem safeInv_start : SafeInv start := by
  have hstore : StoreOk start := by
    refine ⟨?_, ?_, ?_, ?_, ?_, ?_, fun _ _ => ⟨List.not_mem_nil, List.not_mem_nil⟩, ?_⟩
    all_goals
      intro _ _
      first
        | exact fun h => nomatch h
        | contradiction
  exact ⟨hstore, fun _ h => (nomatch h), fun _ h => (nomatch h)⟩

theorem StoreOk.with_threads (hs : StoreOk s) (threads : List Thread) :
    StoreOk { s with threads := threads } :=
  ⟨hs.device, hs.born, hs.refresh, hs.pending, hs.approved, hs.once, hs.new, hs.pairs⟩

theorem SafeInv.spawn (hs : SafeInv s) (hth : StageOk s th.stage) : SafeInv (spawn s th) := by
  refine ⟨hs.store.with_threads _, fun th' h => ?_, fun r hb => ?_⟩
  · obtain h | h := List.mem_append.mp h
    · exact (hs.threads th' h).mono (grows_of_eq rfl rfl rfl)
    · rw [List.mem_singleton.mp h]
      exact hth.mono (grows_of_eq rfl rfl rfl)
  · obtain h | h | ⟨th', h, hr⟩ := hs.accounted r hb
    · exact .inl h
    · exact .inr (.inl h)
    · exact .inr (.inr ⟨th', List.mem_append_left _ h, hr⟩)

theorem SafeInv.newDevice (hs : SafeInv s) (hnew : .device d ∉ s.born) :
    SafeInv (s.bear (.device d) (.device clientID .pending)) := by
  have hself : (s.bear (.device d) (.device clientID .pending)).store (.device d)
      = some (.device clientID .pending) := by
    rw [State.bear_store, Function.update_self]
  have hother : ∀ t, t ≠ .device d →
      (s.bear (.device d) (.device clientID .pending)).store t = s.store t := by
    intro t ht
    rw [State.bear_store, Function.update_of_ne ht]
  have hdne : ∀ d', d' ≠ d → _ :=
    fun d' hne => hother (.device d') (fun h => hne (Token.device.inj h))
  have hst := hs.store
  refine ⟨⟨fun d' rec h => ?_, fun d' rec h => ?_, fun r rec h => ?_, fun d' c h => ?_,
    fun d' c h => ?_, hst.once, fun d' h => ?_, hst.pairs⟩,
    fun th h => (hs.threads th h).mono (grows_bear _ _), fun r hb => ?_⟩
  · obtain rfl | hne := eq_or_ne d' d
    · exact ⟨clientID, .pending, Option.some.inj (h.symm.trans hself)⟩
    · exact hst.device d' rec (hdne d' hne ▸ h)
  · obtain rfl | hne := eq_or_ne d' d
    · exact List.mem_cons_self
    · exact List.mem_cons_of_mem _ (hst.born d' rec (hdne d' hne ▸ h))
  · exact (hst.refresh r rec (hother (.refresh r) nofun ▸ h)).mono (grows_bear _ _)
  · obtain rfl | hne := eq_or_ne d' d
    · exact hst.new d' hnew
    · exact hst.pending d' c (hdne d' hne ▸ h)
  · obtain rfl | hne := eq_or_ne d' d
    · cases h.symm.trans hself
    · exact hst.approved d' c (hdne d' hne ▸ h)
  · exact hst.new d' (fun hm => h (List.mem_cons_of_mem _ hm))
  · obtain hb | hb := List.mem_cons.mp hb
    · cases hb
    · rw [hother (.refresh r) nofun]
      exact hs.accounted r hb

theorem SafeInv.newCode (hs : SafeInv s) (c clientID : ℕ) :
    SafeInv (s.bear (.code c) (.code clientID)) := by
  have hother : ∀ t, t ≠ .code c → (s.bear (.code c) (.code clientID)).store t = s.store t := by
    intro t ht
    rw [State.bear_store, Function.update_of_ne ht]
  have hdev : ∀ d, _ := fun d => hother (.device d) nofun
  have hst := hs.store
  refine ⟨⟨fun d rec h => hst.device d rec (hdev d ▸ h),
    fun d rec h => List.mem_cons_of_mem _ (hst.born d rec (hdev d ▸ h)),
    fun r rec h => (hst.refresh r rec (hother (.refresh r) nofun ▸ h)).mono (grows_bear _ _),
    fun d c h => hst.pending d c (hdev d ▸ h), fun d c h => hst.approved d c (hdev d ▸ h),
    hst.once, fun d h => hst.new d (fun hm => h (List.mem_cons_of_mem _ hm)), hst.pairs⟩,
    fun th h => (hs.threads th h).mono (grows_bear _ _), fun r hb => ?_⟩
  obtain hb | hb := List.mem_cons.mp hb
  · cases hb
  · rw [hother (.refresh r) nofun]
    exact hs.accounted r hb

theorem SafeInv.expire (hs : SafeInv s) (t : Token) :
    SafeInv { s.del t with expired := t :: s.expired } := by
  have hdel := hs.store.del t
  refine ⟨⟨hdel.device, hdel.born, hdel.refresh, hdel.pending, hdel.approved, hdel.once, hdel.new,
    hdel.pairs⟩, fun th h => (hs.threads th h).mono (grows_of_eq rfl rfl rfl), fun r hb => ?_⟩
  obtain rfl | hne := eq_or_ne t (.refresh r)
  · exact .inr (.inl (.inr (.inr List.mem_cons_self)))
  · have hstore : (s.del t).store (.refresh r) = s.store (.refresh r) := by
      rw [State.del_store, Function.update_of_ne hne.symm]
    refine (hs.accounted r hb).imp (fun h => ?_) (.imp_left (.imp_right (.imp_right
      (List.mem_cons_of_mem _))))
    exact hstore.symm ▸ h

theorem holder_split {i : ℕ} (hth : s.threads[i]? = some th) (r : ℕ) :
    (∃ th' ∈ s.threads, th'.stage.holds = some (.refresh r)) ↔
      (th.stage.holds = some (.refresh r)
        ∨ ∃ th' ∈ replaceAt s.threads i [], th'.stage.holds = some (.refresh r)) := by
  conv_lhs => rw [eq_take_cons_drop hth]
  simp only [replaceAt, List.append_nil, List.mem_append, List.mem_cons]
  grind

theorem SafeInv.go (hs : SafeInv s) {i : ℕ} (hth : s.threads[i]? = some th)
    (hsafe : StageSafe s answer th.stage) (h : goStep s i th answer = some s') : SafeInv s' := by
  obtain ⟨⟨s₁, next⟩, h₁, rfl⟩ := Option.map_eq_some_iff.mp h
  have hmem : th ∈ s.threads := List.mem_of_getElem? hth
  obtain ⟨hstore, hgrows, hafter, hacc⟩ := threadStep_sound hs.store (hs.threads th hmem) hsafe h₁
  refine ⟨hstore.with_threads _, fun th' h => ?_, fun r hb => ?_⟩
  · obtain h | h := mem_replaceAt h
    · exact (hs.threads th' h).mono ⟨hgrows.approved, hgrows.born, hgrows.owner⟩
    · cases next with
      | none => cases h
      | some st =>
        rw [List.mem_singleton.mp h]
        exact (hafter st rfl).mono (grows_of_eq rfl rfl rfl)
  · have hall := hs.accounted r
    rw [holder_split hth r] at hall
    obtain h | h | h | ⟨th', h, hr⟩ := hacc r _ hall hb
    · exact .inl h
    · exact .inr (.inl h)
    · refine .inr (.inr ?_)
      cases next with
      | none => exact h.elim
      | some st => exact ⟨⟨th.clientID, st⟩, by simp [replaceAt], h⟩
    · refine .inr (.inr ⟨th', ?_, hr⟩)
      simp only [replaceAt, List.append_nil, List.mem_append] at h ⊢
      exact h.imp_left .inl

theorem SafeInv.step (hs : SafeInv s) {act : Act} (hsafe : Safe s act)
    (h : step s act = some s') : SafeInv s' := by
  cases act with
  | newCode id clientID =>
    simp only [Grants.step] at h
    split_ifs at h
    cases h
    exact hs.newCode id clientID
  | newDevice id clientID =>
    simp only [Grants.step] at h
    split_ifs at h with hb
    cases h
    exact hs.newDevice hb
  | redeemCode id clientID proof | pollDevice id clientID | refreshGrant id clientID
  | finishDevice id approve =>
    cases h
    exact hs.spawn trivial
  | go i answer =>
    obtain ⟨th, hth, h⟩ := Option.bind_eq_some_iff.mp h
    exact hs.go hth (hsafe th hth) h
  | crash i =>
    obtain ⟨th, hth, rfl⟩ := Option.map_eq_some_iff.mp h
    refine ⟨hs.store.with_threads _, fun th' h => ?_, fun r hb => ?_⟩
    · obtain h | h := mem_replaceAt h
      · exact (hs.threads th' h).mono (grows_of_eq rfl rfl rfl)
      · cases h
    · have hall := hs.accounted r hb
      rw [holder_split hth r] at hall
      exact hall.imp_right (.imp_right (fun h => h.resolve_left (hsafe th hth r)))
  | expire t =>
    cases h
    exact hs.expire t

theorem single_start (t : Token) : Single start t :=
  ⟨Nat.zero_le _, fun _ => rfl⟩

/-- Codes and refresh tokens are taken in one operation, so they are single whatever happens. -/
theorem single_of_run {acts : List Act} (ht : ∀ id, t ≠ .device id)
    (hrun : Run.run step start acts = some s) : Single s t := by
  have hstep : ∀ s act s', Single s t → True → step s act = some s' → Single s' t :=
    fun s act s' hs _ h => hs.step (fun id hid => absurd hid (ht id)) h
  exact Run.run_preserves hstep (single_start t) (Run.along_trivial acts start) hrun

theorem device_single_of_run {acts : List Act} (hsafe : Run.Along step Safe start acts)
    (hrun : Run.run step start acts = some s) : Single s t := by
  have hstep : ∀ s act s', Single s t → Safe s act → step s act = some s' → Single s' t :=
    fun s act s' hs hok h => hs.step (fun _ _ => hok) h
  exact Run.run_preserves hstep (single_start t) hsafe hrun

theorem Single.count_le (hs : Single s t) : s.pairs.count t ≤ 1 := by
  have := hs.le
  unfold kept at this
  omega

theorem Single.store_none (hs : Single s t) (hpair : t ∈ s.pairs) : s.store t = none := by
  have hle := hs.le
  have hcount := List.count_pos_iff.mpr hpair
  unfold kept stored at hle
  by_contra hsome
  rw [if_pos (Option.isSome_iff_ne_none.mpr hsome)] at hle
  omega

/-- Whether a device code can still yield a pair, now or once it is approved. -/
def Redeemable (s : State) (d : ℕ) : Prop :=
  ∃ clientID status, s.store (.device d) = some (.device clientID status) ∧ status ≠ .denied

theorem SafeInv.denied_not_redeemable (hs : SafeInv s) (hd : d ∈ s.denied) :
    .device d ∉ s.pairs ∧ ¬ Redeemable s d := by
  have hna : d ∉ s.approved := fun h => hs.store.once d h hd
  refine ⟨fun hp => hna (hs.store.pairs d hp), ?_⟩
  rintro ⟨clientID, status, hrec, hne⟩
  cases status with
  | pending => exact (hs.store.pending d clientID hrec).2 hd
  | approved => exact hna (hs.store.approved d clientID hrec)
  | denied => exact hne rfl

theorem SafeInv.usable (hs : SafeInv s) (hborn : .refresh r ∈ s.born) (hgone : ¬ Gone s r)
    (hfree : ∀ th ∈ s.threads, th.stage.holds ≠ some (.refresh r)) :
    s.store (.refresh r) = some (.refresh (s.owner r)) := by
  obtain h | h | ⟨th, h, hr⟩ := hs.accounted r hborn
  · obtain ⟨rec, hrec⟩ := Option.isSome_iff_exists.mp h
    obtain ⟨-, rfl⟩ := hs.store.refresh r rec hrec
    exact hrec
  · exact absurd h hgone
  · exact absurd hr (hfree th h)

/-- Codes and refresh tokens yield at most one pair in every run. In a safe run so does a device
code, one that was denied or redeemed cannot be redeemed again, and a refresh token that is not gone
and in no request's hands is still in the store, for the client it was issued to. -/
theorem grants_single_use {acts : List Act} (hrun : Run.run step start acts = some s) :
    (∀ c, s.pairs.count (.code c) ≤ 1) ∧ (∀ r, s.pairs.count (.refresh r) ≤ 1)
      ∧ (Run.Along step Safe start acts →
        (∀ d, s.pairs.count (.device d) ≤ 1)
        ∧ (∀ d ∈ s.denied, .device d ∉ s.pairs ∧ ¬ Redeemable s d)
        ∧ (∀ d, .device d ∈ s.pairs → ¬ Redeemable s d)
        ∧ ∀ r, .refresh r ∈ s.born → ¬ Gone s r →
          (∀ th ∈ s.threads, th.stage.holds ≠ some (.refresh r)) →
          s.store (.refresh r) = some (.refresh (s.owner r))) := by
  refine ⟨fun c => (single_of_run (fun id h => ?_) hrun).count_le,
    fun r => (single_of_run (fun id h => ?_) hrun).count_le, fun hsafe => ?_⟩
  · cases h
  · cases h
  have hinv : SafeInv s :=
    Run.run_preserves (fun _ _ _ hs hok h => hs.step hok h) safeInv_start hsafe hrun
  have hdevice : ∀ d, Single s (.device d) := fun _ => device_single_of_run hsafe hrun
  refine ⟨fun d => (hdevice d).count_le, fun d hd => hinv.denied_not_redeemable hd, fun d hd => ?_,
    fun r hborn hgone hfree => hinv.usable hborn hgone hfree⟩
  rintro ⟨clientID, status, hrec, _⟩
  rw [(hdevice d).store_none hd] at hrec
  cases hrec

end Step

/-- A device is confirmed and redeemed, and its refresh token is put back after the identity
provider could not be reached. -/
def confirmAndRedeem : List Act :=
  [.newDevice 0 7, .finishDevice 0 true, .go 0 (.ok 0), .go 0 (.ok 0), .pollDevice 0 7,
    .go 0 (.ok 0), .go 0 (.ok 0), .go 0 (.ok 1), .refreshGrant 1 7, .go 0 (.ok 0), .go 0 .fail,
    .go 0 (.ok 0)]

instance (s : State) (answer : Answer) (st : Stage) : Decidable (StageSafe s answer st) := by
  cases st <;> unfold StageSafe <;> infer_instance

theorem safe_go {s : State} {i : ℕ} {answer : Answer}
    (h : (s.threads[i]?).all (fun th => decide (StageSafe s answer th.stage)) = true) :
    Safe s (.go i answer) := by
  intro th hth
  rw [hth] at h
  exact of_decide_eq_true h

theorem safe_confirmAndRedeem : Run.Along step Safe start confirmAndRedeem := by
  iterate 12
    refine Run.along_cons rfl ?_ ?_
    · first | trivial | exact safe_go rfl
  trivial

theorem confirmed_device_single_use :
    ∃ s, Run.run step start confirmAndRedeem = some s
      ∧ s.pairs = [.device 0] ∧ s.owner 1 = 7
      ∧ (∀ c, s.pairs.count (.code c) ≤ 1) ∧ (∀ r, s.pairs.count (.refresh r) ≤ 1)
      ∧ (∀ d, s.pairs.count (.device d) ≤ 1)
      ∧ (∀ d ∈ s.denied, .device d ∉ s.pairs ∧ ¬ Redeemable s d)
      ∧ (∀ d, .device d ∈ s.pairs → ¬ Redeemable s d)
      ∧ ∀ r, .refresh r ∈ s.born → ¬ Gone s r →
        (∀ th ∈ s.threads, th.stage.holds ≠ some (.refresh r)) →
        s.store (.refresh r) = some (.refresh (s.owner r)) := by
  obtain ⟨s, hrun, hpairs, howner⟩ : ∃ s, Run.run step start confirmAndRedeem = some s
      ∧ s.pairs = [.device 0] ∧ s.owner 1 = 7 := ⟨_, rfl, rfl, rfl⟩
  obtain ⟨hcode, hrefresh, hdevice⟩ := grants_single_use hrun
  exact ⟨s, hrun, hpairs, howner, hcode, hrefresh, hdevice safe_confirmAndRedeem⟩

/-- Two browsers confirm one user code, and the second writes after the device has redeemed it: a
second pair goes out. Where the first browser denies, the device is redeemable though it was denied.
And a refresh token whose grant failed is lost when it cannot be put back. -/
theorem device_redeemed_twice :
    (Run.run step start
      [.newDevice 0 7, .finishDevice 0 true, .finishDevice 0 true, .go 0 (.ok 0), .go 1 (.ok 0),
        .go 0 (.ok 0), .pollDevice 0 7, .go 1 (.ok 0), .go 1 (.ok 0), .go 1 (.ok 1), .go 0 (.ok 0),
        .pollDevice 0 7, .go 0 (.ok 0), .go 0 (.ok 0), .go 0 (.ok 2)]).map (·.pairs)
      = some [.device 0, .device 0]
    ∧ (Run.run step start
      [.newDevice 0 7, .finishDevice 0 false, .finishDevice 0 true, .go 0 (.ok 0), .go 1 (.ok 0),
        .go 0 (.ok 0), .go 0 (.ok 0)]).map (fun s => (s.denied, s.store (.device 0)))
      = some ([0], some (.device 7 .approved))
    ∧ (Run.run step start
      [.newCode 0 7, .redeemCode 0 7 true, .go 0 (.ok 0), .go 0 (.ok 1), .refreshGrant 1 7,
        .go 0 (.ok 0), .go 0 .fail, .go 0 .fail]).map
        (fun s => (s.pairs, s.store (.refresh 1), s.refused, s.expired, s.threads))
      = some ([.code 0], none, [], [], []) :=
  ⟨rfl, rfl, rfl⟩

end AchProofs.Auth.Grants
