import AchProofs.Litellm.ReadCache

namespace AchProofs.Litellm.ReadCache

open Foundation

variable {S D B : Type}

/-- When a call returned; a call that is still under way lasts until now at least. -/
def endTime (s : State S D B) (c : Call D B) : ℕ :=
  match c.stage with
  | .over time => time
  | _ => s.now

/-- The body is less than `ttl` and the duration of the call that fetched it older than the start of
the call that returns it. -/
def Recent (ttl : ℕ) (s : State S D B) (start : ℕ) (f : Fetched B) : Prop :=
  f.madeAt < start → ∃ c, s.calls[f.caller]? = some c ∧
    start < f.madeAt + ttl + (endTime s c - c.start)

/-- What a call that saw these writes return may return itself. -/
structure Good (ttl : ℕ) (s : State S D B) (start : ℕ) (seen : List Ack) (f : Fetched B) :
    Prop where
  fresh : ∀ w ∈ seen, w.beforeDrop = true ∨ w.ok = true → w.version ≤ f.version
  recent : Recent ttl s start f

/-- A write that was applied before its call dropped the cache, and the call has returned or is
about to. -/
def Settled (s : State S D B) (v : ℕ) : Prop :=
  (∃ w ∈ s.returned, w.beforeDrop = true ∧ w.version = v)
    ∨ ∃ c ∈ s.calls, ∃ ok, c.stage = .closing ok (some v)

def StageOk (ttl : ℕ) (s : State S D B) (i : ℕ) (c : Call D B) : Stage B → Prop
  | .asking gen => gen ≤ s.gen
  | .got gen f => gen ≤ s.gen ∧ f.caller = i ∧ c.start ≤ f.madeAt ∧ f.madeAt ≤ s.now
      ∧ f.version ≤ s.version ∧ ∀ w ∈ c.seen, w.version ≤ f.version
  | .leaving (some f) => Good ttl s c.start c.seen f
  | .dropping ok => ok = true → c.applied.isSome = true
  | .closing ok atDrop => (∀ v ∈ atDrop, c.applied = some v) ∧ (ok = true → atDrop.isSome = true)
  | .over time => time ≤ s.now
  | _ => True

structure CallOk (ttl : ℕ) (s : State S D B) (i : ℕ) (c : Call D B) : Prop where
  start : c.start ≤ s.now
  seen : c.seen ⊆ s.returned
  applied : ∀ v ∈ c.applied, v ≤ s.version
  stage : StageOk ttl s i c c.stage

/-- A stored body was made during the call that fetched it, which lasts until the body is stored. -/
def Stored (s : State S D B) (e : CachedBody B) : Prop :=
  e.storedAt ≤ s.now ∧ ∃ c, s.calls[e.fetched.caller]? = some c ∧ c.start ≤ e.fetched.madeAt
    ∧ e.storedAt ≤ endTime s c

/-- No body older than a settled write is in the cache or can still enter it. -/
structure Clean (s : State S D B) (v : ℕ) : Prop where
  le : v ≤ s.version
  cache : ∀ path e, s.cache path = some e → v ≤ e.fetched.version
  got : ∀ c ∈ s.calls, ∀ f, c.stage = .got s.gen f → v ≤ f.version

structure Inv (ttl : ℕ) (s : State S D B) : Prop where
  calls : ∀ i c, s.calls[i]? = some c → CallOk ttl s i c
  acks : ∀ w ∈ s.returned, w.version ≤ s.version ∧ (w.ok = true → w.beforeDrop = true)
  settled : ∀ v, Settled s v → Clean s v
  cache : ∀ path e, s.cache path = some e → Stored s e
  answers : ∀ a ∈ s.answers, Good ttl s a.start a.seen a.fetched

/-- Time, the server and the calls only move on. -/
structure Later (s s' : State S D B) : Prop where
  now : s.now ≤ s'.now
  version : s.version ≤ s'.version
  gen : s.gen ≤ s'.gen
  returned : s.returned ⊆ s'.returned
  calls : ∀ (i : ℕ) (c : Call D B), s.calls[i]? = some c → ∃ c', s'.calls[i]? = some c' ∧
    c'.start = c.start
    ∧ endTime s c ≤ endTime s' c'

section Later

variable {ttl : ℕ} {s s' : State S D B}

variable {f : Fetched B} {c c₁ : Call D B} {i : ℕ} {st : Stage B}

theorem Recent.mono {start : ℕ} (h : Recent ttl s start f) (hl : Later s s') :
    Recent ttl s' start f := by
  intro hlt
  obtain ⟨c, hc, hb⟩ := h hlt
  obtain ⟨c', hc', hst, hend⟩ := hl.calls _ c hc
  refine ⟨c', hc', ?_⟩
  omega

theorem Good.mono {start : ℕ} {seen : List Ack} (h : Good ttl s start seen f) (hl : Later s s') :
    Good ttl s' start seen f :=
  ⟨h.fresh, h.recent.mono hl⟩

theorem Stored.mono {e : CachedBody B} (h : Stored s e) (hl : Later s s') : Stored s' e := by
  obtain ⟨hnow, c, hc, hst, hend⟩ := h
  obtain ⟨c', hc', hst', hend'⟩ := hl.calls _ c hc
  refine ⟨Nat.le_trans hnow hl.now, c', hc', ?_, Nat.le_trans hend hend'⟩
  rw [hst']
  exact hst

theorem StageOk.mono (h : StageOk ttl s i c st) (hl : Later s s') : StageOk ttl s' i c st := by
  cases st with
  | asking gen => exact Nat.le_trans h hl.gen
  | got gen f =>
    obtain ⟨hgen, hby, hst, hnow, hver, hseen⟩ := h
    exact ⟨Nat.le_trans hgen hl.gen, hby, hst, Nat.le_trans hnow hl.now,
      Nat.le_trans hver hl.version, hseen⟩
  | leaving f =>
    cases f with
    | none => trivial
    | some f => exact Good.mono h hl
  | look | sending => trivial
  | dropping ok => exact h
  | closing ok atDrop => exact h
  | _ => exact Nat.le_trans h hl.now

theorem CallOk.mono (h : CallOk ttl s i c) (hl : Later s s') : CallOk ttl s' i c :=
  ⟨Nat.le_trans h.start hl.now, fun _ hw => hl.returned (h.seen hw),
    fun v hv => Nat.le_trans (h.applied v hv) hl.version, h.stage.mono hl⟩

theorem later_set (hc : s.calls[i]? = some c) (hcalls : s'.calls = s.calls.set i c₁)
    (hnow : s'.now = s.now) (hver : s.version ≤ s'.version) (hgen : s.gen ≤ s'.gen)
    (hret : s.returned ⊆ s'.returned) (hstart : c₁.start = c.start)
    (hend : endTime s c ≤ endTime s' c₁) : Later s s' := by
  refine ⟨Nat.le_of_eq hnow.symm, hver, hgen, hret, fun j d hd => ?_⟩
  rw [hcalls]
  obtain rfl | hne := eq_or_ne j i
  · cases hc.symm.trans hd
    obtain ⟨hlt, -⟩ := List.getElem?_eq_some_iff.mp hc
    exact ⟨c₁, List.getElem?_set_self hlt, hstart, hend⟩
  · refine ⟨d, ?_, rfl, ?_⟩
    · rw [List.getElem?_set_ne (Ne.symm hne)]
      exact hd
    · exact Nat.le_of_eq (by unfold endTime; rw [hnow])

theorem Inv.calls_set (hs : Inv ttl s) (hc : s.calls[i]? = some c)
    (hcalls : s'.calls = s.calls.set i c₁) (hl : Later s s') (hself : CallOk ttl s' i c₁) :
    ∀ j d, s'.calls[j]? = some d → CallOk ttl s' j d := by
  intro j d hd
  rw [hcalls] at hd
  obtain rfl | hne := eq_or_ne j i
  · obtain ⟨hlt, -⟩ := List.getElem?_eq_some_iff.mp hc
    rw [List.getElem?_set_self hlt] at hd
    cases hd
    exact hself
  · rw [List.getElem?_set_ne (Ne.symm hne)] at hd
    exact (hs.calls j d hd).mono hl

theorem mem_set {l : List (Call D B)} {d : Call D B} (h : d ∈ l.set i c₁) : d = c₁ ∨ d ∈ l :=
  (List.mem_or_eq_of_mem_set h).symm

theorem settled_set {v : ℕ} (hcalls : s'.calls = s.calls.set i c₁) (hret : s'.returned = s.returned)
    (h : Settled s' v) : Settled s v ∨ ∃ ok, c₁.stage = .closing ok (some v) := by
  obtain ⟨w, hw, hb⟩ | ⟨d, hd, hok⟩ := h
  · exact .inl (.inl ⟨w, hret ▸ hw, hb⟩)
  · rw [hcalls] at hd
    obtain rfl | hd := mem_set hd
    · exact .inr hok
    · exact .inl (.inr ⟨d, hd, hok⟩)

theorem Clean.set {v : ℕ} (h : Clean s v) (hcalls : s'.calls = s.calls.set i c₁)
    (hver : s.version ≤ s'.version) (hgen : s'.gen = s.gen)
    (hcache : ∀ path e, s'.cache path = some e → v ≤ e.fetched.version)
    (hgot : ∀ f, c₁.stage = .got s.gen f → v ≤ f.version) : Clean s' v := by
  refine ⟨Nat.le_trans h.le hver, hcache, fun d hd f hf => ?_⟩
  rw [hcalls] at hd
  rw [hgen] at hf
  obtain rfl | hd := mem_set hd
  · exact hgot f hf
  · exact h.got d hd f hf

theorem endTime_of_not_over (h : ∀ t, c.stage ≠ .over t) : endTime s c = s.now := by
  unfold endTime
  split
  · rename_i t ht
    exact absurd ht (h t)
  · rfl

theorem endTime_le (h : CallOk ttl s i c) : endTime s c ≤ s.now := by
  have hst := h.stage
  unfold endTime
  split
  · rename_i t ht
    rw [ht] at hst
    exact hst
  · exact Nat.le_refl _

theorem setStage_calls (i : ℕ) (c : Call D B) (st : Stage B) :
    (s.setStage i c st).calls = s.calls.set i { c with stage := st } := rfl

theorem later_setStage (hc : s.calls[i]? = some c) (hok : CallOk ttl s i c)
    (hst : ∀ t, st = .over t → t = s.now) : Later s (s.setStage i c st) := by
  refine later_set hc (setStage_calls i c st) rfl (Nat.le_refl _) (Nat.le_refl _)
    (fun _ h => h) rfl (Nat.le_trans (endTime_le hok) ?_)
  unfold endTime
  split
  · rename_i t ht
    exact Nat.le_of_eq (hst t ht).symm
  · exact Nat.le_refl _

theorem Inv.setStage (hs : Inv ttl s) (hc : s.calls[i]? = some c)
    (hover : ∀ t, st = .over t → t = s.now) (hst : StageOk ttl s i c st)
    (hclosing : ∀ ok v, st ≠ .closing ok (some v))
    (hgot : ∀ f, st = .got s.gen f → ∀ v, Settled s v → v ≤ f.version) :
    Inv ttl (s.setStage i c st) := by
  have hok := hs.calls i c hc
  have hl := later_setStage hc hok hover
  have hself : CallOk ttl (s.setStage i c st) i { c with stage := st } :=
    ⟨hok.start, hok.seen, hok.applied, hst.mono hl⟩
  refine ⟨hs.calls_set hc rfl hl hself, hs.acks, fun v hv => ?_,
    fun path e he => (hs.cache path e he).mono hl, fun a ha => (hs.answers a ha).mono hl⟩
  obtain hv | ⟨ok, hclose⟩ := settled_set (setStage_calls i c st) rfl hv
  · exact (hs.settled v hv).set (setStage_calls i c st) (Nat.le_refl _) rfl (hs.settled v hv).cache
      (fun f hf => hgot f hf v hv)
  · exact absurd hclose (hclosing ok v)

theorem Inv.look (hs : Inv ttl s) (hc : s.calls[i]? = some c) : Inv ttl (lookStep ttl s i c) := by
  have hok := hs.calls i c hc
  have hmiss : Inv ttl (s.setStage i c (.asking s.gen)) :=
    hs.setStage hc nofun (Nat.le_refl _) nofun
      nofun
  unfold lookStep
  split
  · rename_i e he
    split_ifs with httl
    · refine hs.setStage hc nofun ⟨fun w hw hb => ?_, fun _ => ?_⟩
        nofun nofun
      · have hdrop : w.beforeDrop = true := hb.elim id (hs.acks w (hok.seen hw)).2
        exact (hs.settled w.version (.inl ⟨w, hok.seen hw, hdrop, rfl⟩)).cache _ e he
      · obtain ⟨hnow, d, hd, hstart, hend⟩ := hs.cache _ e he
        have hle := hok.start
        exact ⟨d, hd, by omega⟩
    · exact hmiss
  · exact hmiss

theorem Inv.serve (hs : Inv ttl s) (hc : s.calls[i]? = some c) {gen : ℕ} (hgen : gen ≤ s.gen)
    (body : B) : Inv ttl (s.setStage i c (.got gen ⟨body, s.version, s.now, i⟩)) := by
  have hok := hs.calls i c hc
  refine hs.setStage hc nofun ?_ nofun (fun f hf v hv => ?_)
  · exact ⟨hgen, rfl, hok.start, Nat.le_refl _, Nat.le_refl _,
      fun w hw => (hs.acks w (hok.seen hw)).1⟩
  · cases hf
    exact (hs.settled v hv).le

theorem later_same (hcalls : s'.calls = s.calls) (hnow : s.now ≤ s'.now)
    (hver : s.version ≤ s'.version) (hgen : s.gen ≤ s'.gen) (hret : s.returned ⊆ s'.returned) :
    Later s s' := by
  refine ⟨hnow, hver, hgen, hret, fun j d hd => ⟨d, hcalls ▸ hd, rfl, ?_⟩⟩
  unfold endTime
  split
  · exact Nat.le_refl _
  · exact hnow

theorem Inv.store (hs : Inv ttl s) (hc : s.calls[i]? = some c) (hst : c.stage = .got s.gen f)
    (path : String) :
    Inv ttl { s with cache := Function.update s.cache path (some ⟨f, s.now⟩) } := by
  have hl : Later s { s with cache := Function.update s.cache path (some ⟨f, s.now⟩) } :=
    later_same rfl (Nat.le_refl _) (Nat.le_refl _) (Nat.le_refl _) (fun _ h => h)
  have hmem : c ∈ s.calls := List.mem_of_getElem? hc
  obtain ⟨-, hby, hstart, -⟩ : StageOk ttl s i c (.got s.gen f) := hst ▸ (hs.calls i c hc).stage
  have hentry : ∀ path' e, Function.update s.cache path (some ⟨f, s.now⟩) path' = some e →
      e = ⟨f, s.now⟩ ∨ s.cache path' = some e := by
    intro path' e he
    rw [Function.update_apply] at he
    split_ifs at he
    · exact .inl (Option.some.inj he).symm
    · exact .inr he
  refine ⟨fun j d hd => (hs.calls j d hd).mono hl, hs.acks, fun v hv => ?_, fun path' e he => ?_,
    fun a ha => (hs.answers a ha).mono hl⟩
  · have hclean : Clean s v := hs.settled v hv
    refine ⟨hclean.le, fun path' e he => ?_, hclean.got⟩
    obtain rfl | he := hentry path' e he
    · exact hclean.got c hmem f hst
    · exact hclean.cache path' e he
  · obtain rfl | he := hentry path' e he
    · refine ⟨Nat.le_refl _, c, hby ▸ hc, hstart, Nat.le_of_eq ?_⟩
      exact (endTime_of_not_over (fun t h => nomatch hst.symm.trans h)).symm
    · exact (hs.cache path' e he).mono hl

theorem Inv.put (hs : Inv ttl s) (hc : s.calls[i]? = some c) {gen : ℕ}
    (hst : c.stage = .got gen f) :
    Inv ttl (putStep s i c gen f) := by
  have hleave : ∀ s₁ : State S D B, Inv ttl s₁ → s₁.calls = s.calls →
      Inv ttl (s₁.setStage i c (.leaving (some f))) := by
    intro s₁ hs₁ hcalls
    have hc₁ : s₁.calls[i]? = some c := hcalls ▸ hc
    obtain ⟨-, -, hstart, -, -, hseen⟩ : StageOk ttl s₁ i c (.got gen f) :=
      hst ▸ (hs₁.calls i c hc₁).stage
    refine hs₁.setStage hc₁ nofun ⟨fun w hw _ => hseen w hw, fun hlt => ?_⟩
      nofun nofun
    exact absurd hlt (Nat.not_lt.mpr hstart)
  unfold putStep
  split_ifs with hgen
  · exact hleave _ (hs.store hc (hgen ▸ hst) c.req.path) rfl
  · exact hleave s hs rfl

theorem Inv.drop (hs : Inv ttl s) (hc : s.calls[i]? = some c) {ok : Bool}
    (hst : c.stage = .dropping ok) : Inv ttl (dropStep s i c ok) := by
  have hok := hs.calls i c hc
  have happ : ok = true → c.applied.isSome = true := by
    have h : StageOk ttl s i c (.dropping ok) := hst ▸ hok.stage
    exact h
  have hcalls : (dropStep s i c ok).calls
      = s.calls.set i { c with stage := .closing ok c.applied } := rfl
  have hl : Later s (dropStep s i c ok) :=
    later_set hc hcalls rfl (Nat.le_refl _) (Nat.le_succ _) (fun _ h => h) rfl (endTime_le hok)
  have hself : CallOk ttl (dropStep s i c ok) i { c with stage := .closing ok c.applied } :=
    ⟨hok.start, hok.seen, hok.applied, fun v hv => hv, happ⟩
  -- the cache is empty, and a body in flight has an older generation
  have hclean : ∀ v, v ≤ s.version → Clean (dropStep s i c ok) v := by
    intro v hv
    refine ⟨hv, fun _ _ he => (nomatch he), fun d hd f hf => ?_⟩
    rw [hcalls] at hd
    obtain rfl | hd := mem_set hd
    · cases hf
    · obtain ⟨j, hj⟩ := List.mem_iff_getElem?.mp hd
      have hstage := (hs.calls j d hj).stage
      rw [hf] at hstage
      exact absurd hstage.1 (Nat.not_succ_le_self _)
  refine ⟨hs.calls_set hc hcalls hl hself, hs.acks, fun v hv => hclean v ?_,
    fun _ _ he => (nomatch he), fun a ha => (hs.answers a ha).mono hl⟩
  obtain hv | ⟨ok', hv⟩ := settled_set hcalls rfl hv
  · exact (hs.settled v hv).le
  · exact hok.applied v (Stage.closing.inj hv).2

theorem Inv.answer (hs : Inv ttl s) {a : Answer B} (ha : Good ttl s a.start a.seen a.fetched) :
    Inv ttl { s with answers := a :: s.answers } := by
  have hl : Later s { s with answers := a :: s.answers } :=
    later_same rfl (Nat.le_refl _) (Nat.le_refl _) (Nat.le_refl _) (fun _ h => h)
  refine ⟨fun j d hd => (hs.calls j d hd).mono hl, hs.acks,
    fun v hv => ⟨(hs.settled v hv).le, (hs.settled v hv).cache, (hs.settled v hv).got⟩,
    fun path e he => (hs.cache path e he).mono hl, fun b hb => ?_⟩
  obtain rfl | hb := List.mem_cons.mp hb
  · exact ha.mono hl
  · exact (hs.answers b hb).mono hl

theorem Inv.ack (hs : Inv ttl s) {acks : List Ack}
    (hacks : ∀ w ∈ acks, w.version ≤ s.version ∧ (w.ok = true → w.beforeDrop = true)
      ∧ (w.beforeDrop = true → Settled s w.version)) :
    Inv ttl { s with returned := acks ++ s.returned } := by
  have hl : Later s { s with returned := acks ++ s.returned } :=
    later_same rfl (Nat.le_refl _) (Nat.le_refl _) (Nat.le_refl _)
      (fun _ h => List.mem_append_right _ h)
  refine ⟨fun j d hd => (hs.calls j d hd).mono hl, fun w hw => ?_, fun v hv => ?_,
    fun path e he => (hs.cache path e he).mono hl, fun b hb => (hs.answers b hb).mono hl⟩
  · obtain hw | hw := List.mem_append.mp hw
    · exact ⟨(hacks w hw).1, (hacks w hw).2.1⟩
    · exact hs.acks w hw
  · have hv : Settled s v := by
      obtain ⟨w, hw, hb, rfl⟩ | hv := hv
      · obtain hw | hw := List.mem_append.mp hw
        · exact (hacks w hw).2.2 hb
        · exact .inl ⟨w, hw, hb, rfl⟩
      · exact .inr hv
    exact ⟨(hs.settled v hv).le, (hs.settled v hv).cache, (hs.settled v hv).got⟩

theorem Inv.ret (hs : Inv ttl s) (hc : s.calls[i]? = some c) (h : retStep s i c = some s') :
    Inv ttl s' := by
  have hover : ∀ s₁ : State S D B, Inv ttl s₁ → s₁.calls = s.calls → s₁.now = s.now →
      Inv ttl (s₁.setStage i c (.over s.now)) := by
    intro s₁ hs₁ hcalls hnow
    refine hs₁.setStage (hcalls ▸ hc) (fun t ht => ?_) (Nat.le_of_eq hnow.symm)
      nofun nofun
    rw [hnow]
    exact (Stage.over.inj ht).symm
  have hok := hs.calls i c hc
  have hst := hok.stage
  unfold retStep at h
  split at h
  · rename_i f hstage
    cases h
    rw [hstage] at hst
    exact hover _ (hs.answer hst) rfl rfl
  · cases h
    exact hover s hs rfl rfl
  · rename_i ok atDrop hstage
    cases h
    rw [hstage] at hst
    obtain ⟨hdrop, hsome⟩ := hst
    refine hover _ (hs.ack (fun w hw => ?_)) rfl rfl
    rw [Option.mem_toList] at hw
    obtain ⟨v, hv, rfl⟩ := Option.map_eq_some_iff.mp hw
    refine ⟨hok.applied v hv, hsome, fun hb => ?_⟩
    obtain ⟨v', rfl⟩ := Option.isSome_iff_exists.mp hb
    cases hv.symm.trans (hdrop v' rfl)
    exact .inr ⟨c, List.mem_of_getElem? hc, ok, hstage⟩
  · cases h

theorem land_calls (i : ℕ) (c : Call D B) (srv' : S) :
    (s.land i c srv').calls = s.calls.set i { c with applied := some (s.version + 1) } := rfl

theorem Inv.land (hs : Inv ttl s) (hc : s.calls[i]? = some c) (hnone : c.applied = none)
    (srv' : S) :
    Inv ttl (s.land i c srv') := by
  have hok := hs.calls i c hc
  have hmem : c ∈ s.calls := List.mem_of_getElem? hc
  have hl : Later s (s.land i c srv') := by
    refine later_set hc (land_calls i c srv') rfl (Nat.le_succ _) (Nat.le_refl _) (fun _ h => h) rfl
      ?_
    exact Nat.le_refl (endTime s c)
  refine ⟨hs.calls_set hc (land_calls i c srv') hl ⟨hok.start, hok.seen, fun v hv => ?_, ?_⟩,
    fun w hw => ⟨Nat.le_succ_of_le (hs.acks w hw).1, (hs.acks w hw).2⟩, fun v hv => ?_,
    fun path e he => (hs.cache path e he).mono hl, fun a ha => (hs.answers a ha).mono hl⟩
  · cases hv
    exact Nat.le_refl _
  · have hst := hok.stage.mono hl
    show StageOk ttl _ i _ c.stage
    cases hstage : c.stage with
    | dropping ok => exact fun _ => rfl
    | closing ok atDrop =>
      rw [hstage] at hst
      refine ⟨fun v hv => ?_, hst.2⟩
      cases hnone.symm.trans (hst.1 v hv)
    | leaving f =>
      rw [hstage] at hst
      cases f with
      | none => trivial
      | some f => exact hst
    | look | sending => trivial
    | _ =>
      rw [hstage] at hst
      exact hst
  · have hv' : Settled s v := by
      obtain hv | ⟨ok, hclose⟩ := settled_set (land_calls i c srv') rfl hv
      · exact hv
      · exact .inr ⟨c, hmem, ok, hclose⟩
    have hclean := hs.settled v hv'
    exact hclean.set (land_calls i c srv') (Nat.le_succ _) rfl hclean.cache
      (fun f hf => hclean.got c hmem f hf)

theorem Inv.call (hs : Inv ttl s) (req : Req D) :
    Inv ttl { s with calls := s.calls ++ [⟨req, s.now, s.returned, none, firstStage req⟩] } := by
  have hfirst : firstStage (B := B) req = .look ∨ firstStage (B := B) req = .sending := by
    unfold firstStage
    split
    · exact .inl rfl
    · exact .inr rfl
  have hl : Later s { s with
      calls := s.calls ++ [⟨req, s.now, s.returned, none, firstStage req⟩] } := by
    refine ⟨Nat.le_refl _, Nat.le_refl _, Nat.le_refl _, fun _ h => h, fun j d hd => ?_⟩
    obtain ⟨hlt, -⟩ := List.getElem?_eq_some_iff.mp hd
    exact ⟨d, (List.getElem?_append_left hlt).trans hd, rfl, Nat.le_refl (endTime s d)⟩
  refine ⟨fun j d hd => ?_, hs.acks, fun v hv => ?_, fun path e he => (hs.cache path e he).mono hl,
    fun a ha => (hs.answers a ha).mono hl⟩
  · have hd : (s.calls ++ [⟨req, s.now, s.returned, none, firstStage req⟩])[j]? = some d := hd
    rw [List.getElem?_append] at hd
    split_ifs at hd
    · exact (hs.calls j d hd).mono hl
    · have hd := List.mem_singleton.mp (List.mem_of_getElem? hd)
      subst hd
      refine ⟨Nat.le_refl _, fun _ h => h, nofun, ?_⟩
      obtain h | h := hfirst <;> rw [h] <;> trivial
  · have hnew : ∀ d : Call D B, d ∈ s.calls ++ [⟨req, s.now, s.returned, none, firstStage req⟩] →
        d ∈ s.calls ∨ d.stage = .look ∨ d.stage = .sending := by
      intro d hd
      obtain hd | hd := List.mem_append.mp hd
      · exact .inl hd
      · rw [List.mem_singleton.mp hd]
        exact .inr hfirst
    have hv : Settled s v := by
      obtain hv | ⟨d, hd, ok, hst⟩ := hv
      · exact .inl hv
      · obtain hd | h | h := hnew d hd
        · exact .inr ⟨d, hd, ok, hst⟩
        · cases h.symm.trans hst
        · cases h.symm.trans hst
    have hclean := hs.settled v hv
    refine ⟨hclean.le, hclean.cache, fun d hd f hf => ?_⟩
    obtain hd | h | h := hnew d hd
    · exact hclean.got d hd f hf
    · cases h.symm.trans hf
    · cases h.symm.trans hf

theorem Inv.wait (hs : Inv ttl s) (d : ℕ) (srv' : S) :
    Inv ttl { s with now := s.now + d, srv := srv' } := by
  have hl : Later s { s with now := s.now + d, srv := srv' } :=
    later_same rfl (Nat.le_add_right _ _) (Nat.le_refl _) (Nat.le_refl _) (fun _ h => h)
  exact ⟨fun j c hc => (hs.calls j c hc).mono hl, hs.acks,
    fun v hv => ⟨(hs.settled v hv).le, (hs.settled v hv).cache, (hs.settled v hv).got⟩,
    fun path e he => (hs.cache path e he).mono hl, fun a ha => (hs.answers a ha).mono hl⟩

theorem Inv.callStep (srv : Server S D B) (hs : Inv ttl s) (hc : s.calls[i]? = some c)
    {act : Act S D} (h : callStep srv ttl s i c act = some s') : Inv ttl s' := by
  have hst := (hs.calls i c hc).stage
  have hquiet : ∀ st : Stage B, StageOk ttl s i c st → (∀ t, st ≠ .over t) →
      (∀ ok v, st ≠ .closing ok (some v)) → (∀ gen f, st ≠ .got gen f) →
      Inv ttl (s.setStage i c st) := fun st hok hover hclosing hgot =>
    hs.setStage hc (fun t h => absurd h (hover t)) hok hclosing (fun f h => absurd h (hgot _ f))
  have hleave : Inv ttl (s.setStage i c (.leaving none)) :=
    hquiet _ trivial nofun nofun nofun
  cases act with
  | wait d => cases h
  | outside srv' => cases h
  | call req => cases h
  | look j =>
    simp only [ReadCache.callStep] at h
    split at h
    · cases h
      exact hs.look hc
    · cases h
  | serve j =>
    simp only [ReadCache.callStep] at h
    split at h
    · rename_i gen hstage
      cases h
      rw [hstage] at hst
      exact hs.serve hc hst _
    · cases h
  | apply j =>
    simp only [ReadCache.callStep] at h
    split_ifs at h with hw
    cases h
    exact hs.land hc hw.2 _
  | reply j =>
    simp only [ReadCache.callStep] at h
    split at h
    · split_ifs at h with hw happ
      · cases h
        exact hquiet _ (fun _ => happ) nofun nofun
          nofun
      · cases h
        exact hleave
    · cases h
  | fail j =>
    simp only [ReadCache.callStep] at h
    split at h
    · cases h
      exact hleave
    · cases h
      exact hleave
    · split_ifs at h
      · cases h
        exact hquiet _ nofun nofun nofun
          nofun
      · cases h
        exact hleave
    · cases h
  | put j =>
    simp only [ReadCache.callStep] at h
    split at h
    · rename_i gen f hstage
      cases h
      exact hs.put hc hstage
    · cases h
  | drop j =>
    simp only [ReadCache.callStep] at h
    split at h
    · rename_i ok hstage
      cases h
      exact hs.drop hc hstage
    · cases h
  | ret j => exact hs.ret hc h

theorem Inv.step (srv : Server S D B) (hs : Inv ttl s) {act : Act S D}
    (h : step srv ttl s act = some s') : Inv ttl s' := by
  unfold ReadCache.step at h
  split at h
  · rename_i d
    cases h
    exact hs.wait d s.srv
  · rename_i srv'
    cases h
    exact hs.wait 0 srv'
  · rename_i req
    cases h
    exact hs.call req
  · obtain ⟨i, -, h⟩ := Option.bind_eq_some_iff.mp h
    obtain ⟨c, hc, h⟩ := Option.bind_eq_some_iff.mp h
    exact hs.callStep srv hc h

theorem inv_start (ttl : ℕ) (srv₀ : S) : Inv ttl (start srv₀ : State S D B) := by
  refine ⟨nofun, nofun, fun v hv => ?_,
    nofun, nofun⟩
  obtain ⟨_, h, _⟩ | ⟨_, h, _⟩ := hv <;> cases h

end Later

/-- Every body a `GET` returns is at least as new as each write that returned before the `GET`
started and was applied before its call dropped the cache, as each write that succeeded was; and it
is less than `ttl` and the duration of the call that fetched it older than the start of the
`GET`. -/
theorem reads_own_writes (srv : Server S D B) (ttl : ℕ) (srv₀ : S) {acts : List (Act S D)}
    {s : State S D B} (hrun : Run.run (step srv ttl) (start srv₀) acts = some s) :
    ∀ a ∈ s.answers,
    (∀ w ∈ a.seen, w.beforeDrop = true ∨ w.ok = true → w.version ≤ a.fetched.version)
      ∧ Recent ttl s a.start a.fetched := by
  have hstep : ∀ (s : State S D B) act s', Inv ttl s → True → step srv ttl s act = some s' →
      Inv ttl s' := fun s act s' hs _ h => hs.step srv h
  have hinv := Run.run_preserves hstep (inv_start ttl srv₀) (Run.along_trivial acts _) hrun
  intro a ha
  exact ⟨(hinv.answers a ha).fresh, (hinv.answers a ha).recent⟩

def counting : Server ℕ Unit ℕ where
  apply _ n := n + 1
  serve _ n := n

def getTeams : Req Unit := ⟨.get, "/v2/team/list", ()⟩

def putTeam : Req Unit := ⟨.post, "/team/new", ()⟩

/-- A `GET` is in flight across a write that succeeds: its body is not stored, and the `GET` after
the write asks again. -/
def getAcrossWrite : List (Act ℕ Unit) :=
  [.call getTeams, .look 0, .serve 0, .call putTeam, .apply 1, .reply 1, .drop 1, .ret 1, .put 0,
    .ret 0, .call getTeams, .look 2, .serve 2, .put 2, .ret 2]

theorem read_after_write_is_live :
    ∃ s, Run.run (step counting 60) (start 0) getAcrossWrite = some s
      ∧ s.answers.map (fun a => (a.seen.map (·.version), a.fetched.version)) = [([1], 1), ([], 0)]
      ∧ ∀ a ∈ s.answers,
        (∀ w ∈ a.seen, w.beforeDrop = true ∨ w.ok = true → w.version ≤ a.fetched.version)
        ∧ Recent 60 s a.start a.fetched := by
  obtain ⟨s, hrun, hans⟩ : ∃ s, Run.run (step counting 60) (start 0) getAcrossWrite = some s
      ∧ s.answers.map (fun a => (a.seen.map (·.version), a.fetched.version)) =
        [([1], 1), ([], 0)] :=
    ⟨_, rfl, rfl⟩
  exact ⟨s, hrun, hans, reads_own_writes counting 60 0 hrun⟩

/-- A write fails at the transport, its call drops the cache, another `GET` stores the body of
before, and only then the write lands and its call returns: the next `GET` is answered from the
cache with a body from before the write. -/
theorem late_write_is_not_read :
    (Run.run (step counting 60) (start 0)
      [.call putTeam, .fail 0, .drop 0, .call getTeams, .look 1, .serve 1, .put 1, .ret 1, .apply 0,
        .ret 0, .call getTeams, .look 2, .ret 2]).map
        (fun s => s.answers.map (fun a => (a.seen, a.fetched.version)))
      = some [([⟨1, false, false⟩], 0), ([], 0)] := by
  decide

end AchProofs.Litellm.ReadCache
