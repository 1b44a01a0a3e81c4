import AchProofs.Keystore.Cache

namespace AchProofs.Keystore

open Foundation

variable {bearer : Bearer} {v v' : View} {s s' : State}

def FlightStage.anchor : FlightStage → Option ℕ
  | .starting => none
  | .verify a => some a
  | .lookup a => some a
  | .grants a _ => some a
  | .returning a _ => some a
  | .done a _ => some a
  | .failed => none

def FlightStage.running : FlightStage → Prop
  | .done _ _ => False
  | .failed => False
  | _ => True

def Capped (bearer : Bearer) (row : Row) (f : Found) : Prop :=
  ∀ x ∈ bearer.expiry row, ∃ y ∈ f.expiresAt, y ≤ x

/-- The resolution comes from a lookup that succeeded. -/
structure FoundOk (bearer : Bearer) (v : View) (f : Found) : Prop where
  looked : f.readAt ∈ v.lookups
  past : f.readAt ≤ v.now
  capped : Capped bearer v.row f

/-- No time passes over the expiry of a resolution between the check of it and its return, and a
flight is over when its context times out. -/
def TimelyWait (s : State) (d : ℕ) : Prop :=
  (∀ i c, s.calls i = some c → ∀ f, (∃ r, c.stage = .setting r f) ∨ c.stage = .answer f →
    ∀ x ∈ f.expiresAt, s.now + d < x)
  ∧ ∀ g fl, s.flights g = some fl → fl.stage.running → ∀ a ∈ fl.stage.anchor,
    s.now + d ≤ a + sfLeaderTimeout

/-- The steps under which the bounds hold: time passes in time; the row behind an OAuth token does
not outlive the token when it is looked up; and a `SET` reaches Redis as soon after the clock was
read for its time to live as the row was read after the anchor. -/
def Timely (bearer : Bearer) (s : State) : Act → Prop
  | .wait d => TimelyWait s d
  | .fly g _ => ∀ exp, bearer = .oauth exp → ∀ fl, s.flights g = some fl → ∀ a,
      fl.stage = .lookup a → ∃ y ∈ s.row.expiresAt, y ≤ exp
  | .go i _ => ∀ c, s.calls i = some c → ∀ r f, c.stage = .setting r f → 0 < r.ttl →
      s.now - r.clock ≤ f.readAt - r.anchor
  | _ => True

/-- What a flight has found was read after its anchor. -/
def FlightStage.Carries (bearer : Bearer) (v : View) : FlightStage → Prop
  | .grants a f => a ≤ f.readAt ∧ f.readAt ≤ v.now ∧ Capped bearer v.row f
  | .returning a r => ∀ f ∈ r, a ≤ f.readAt ∧ FoundOk bearer v f
  | .done a r => ∀ f ∈ r, a ≤ f.readAt ∧ FoundOk bearer v f
  | _ => True

def FlightOk (bearer : Bearer) (v : View) (fl : Flight) : Prop :=
  (∀ a ∈ fl.stage.anchor, a ≤ v.now ∧ (fl.stage.running → v.now ≤ a + sfLeaderTimeout))
  ∧ fl.stage.Carries bearer v

def Holds (bearer : Bearer) (v : View) (c : Call) (f : Found) : Prop :=
  FoundOk bearer v f ∧ c.callAt ≤ f.readAt + defaultTTL

/-- The time to live is what the 60 seconds since the anchor leave at the clock's time, or less. -/
def Measured (v : View) (r : Remaining) (f : Found) : Prop :=
  r.anchor ≤ f.readAt ∧ r.clock ≤ v.now ∧ (0 < r.ttl → r.clock + r.ttl ≤ r.anchor + defaultTTL)

def Unexpired (v : View) (f : Found) : Prop := ∀ x ∈ f.expiresAt, v.now < x

def StageOk (bearer : Bearer) (v : View) (flights : ℕ → Option Flight) (c : Call) : Stage → Prop
  | .get => True
  | .miss => True
  | .hit f => Holds bearer v c f
  | .waiting g => ∃ fl, flights g = some fl ∧ ∀ a ∈ fl.stage.anchor, c.callAt ≤ a + defaultTTL
  | .filled a f => Holds bearer v c f ∧ a ≤ f.readAt
  | .timed r f => Holds bearer v c f ∧ Measured v r f
  | .capped r f => Holds bearer v c f ∧ Measured v r f
  | .setting r f => Holds bearer v c f ∧ Measured v r f ∧ Unexpired v f
  | .answer f => Holds bearer v c f ∧ Unexpired v f

def CallOk (bearer : Bearer) (v : View) (flights : ℕ → Option Flight) (c : Call) : Prop :=
  c.callAt ≤ v.now ∧ StageOk bearer v flights c c.stage

/-- A lookup succeeded between 60 seconds before the call and the return, and the credential had not
expired by then. -/
def AnswerOk (v : View) (a : Answer) : Prop :=
  (∃ t ∈ v.lookups, a.callAt ≤ t + defaultTTL ∧ t ≤ a.returnAt) ∧ ∀ x ∈ a.expiry, a.returnAt < x

structure Inv (bearer : Bearer) (s : State) : Prop where
  cache : ∀ e, s.cache = some e →
    FoundOk bearer s.toView e.found ∧ e.until_ ≤ e.found.readAt + defaultTTL
  group : ∀ p g, s.group p = some g → ∃ fl, s.flights g = some fl ∧ fl.proc = p ∧ fl.stage.running
  flights : ∀ g fl, s.flights g = some fl → FlightOk bearer s.toView fl
  calls : ∀ i c, s.calls i = some c → CallOk bearer s.toView s.flights c
  answers : ∀ a ∈ s.answers, AnswerOk s.toView a

theorem unexpired_of_not_expired {f : Found} (h : ¬ f.expired v.now) : Unexpired v f :=
  fun x hx => Nat.not_le.mp (fun hle => h ⟨x, hx, hle⟩)

section Calls

variable (hi : Inv bearer s)

include hi

theorem Inv.setCall {i : ℕ} {c : Option Call}
    (hc : ∀ c' ∈ c, CallOk bearer s.toView s.flights c') : Inv bearer (s.setCall i c) := by
  refine ⟨hi.cache, hi.group, hi.flights, fun j c' hj => ?_, hi.answers⟩
  have hj : Function.update s.calls i c j = some c' := hj
  rw [Function.update_apply] at hj
  split_ifs at hj
  · exact hc c' hj
  · exact hi.calls j c' hj

theorem Inv.done {i : ℕ} : Inv bearer (s.setCall i none) := hi.setCall nofun

theorem Inv.at {i : ℕ} {c : Call} {stage : Stage} (hc : s.calls i = some c)
    (hstage : StageOk bearer s.toView s.flights c stage) :
    Inv bearer (s.setCall i (c.at stage)) := by
  refine hi.setCall (fun c' hc' => ?_)
  cases hc'
  refine ⟨(hi.calls i c hc).1, ?_⟩
  cases stage <;> exact hstage

theorem goStep_inv {i : ℕ} {c : Call} {ok : Bool} (hc : s.calls i = some c)
    (htime : ∀ r f, c.stage = .setting r f → 0 < r.ttl → s.now - r.clock ≤ f.readAt - r.anchor)
    (h : goStep bearer s i c ok = some s') : Inv bearer s' := by
  have hstage : StageOk bearer s.toView s.flights c c.stage := (hi.calls i c hc).2
  unfold goStep at h
  cases hst : c.stage with
  | get =>
    simp only [hst] at h
    split at h
    · rename_i e he
      split_ifs at h with hlive
      · cases h
        obtain ⟨hfound, huntil⟩ := hi.cache e he
        have hcall := (hi.calls i c hc).1
        exact hi.at hc ⟨hfound, by omega⟩
      · cases h
        exact hi.at hc trivial
    · cases h
      exact hi.at hc trivial
  | hit f =>
    simp only [hst] at h hstage
    split_ifs at h with hexp
    · cases h
      exact hi.done
    · cases h
      exact hi.at hc ⟨hstage, unexpired_of_not_expired hexp⟩
  | miss =>
    simp only [hst] at h
    cases h
  | waiting g =>
    simp only [hst] at h hstage
    obtain ⟨fl, hfl, hanchor⟩ := hstage
    obtain ⟨proc, stage⟩ := fl
    have hok := (hi.flights g _ hfl).2
    rw [hfl] at h
    cases stage with
    | done a r =>
      cases r with
      | none =>
        cases h
        exact hi.done
      | some f =>
        cases h
        obtain ⟨hread, hfound⟩ := hok f rfl
        have hcall : c.callAt ≤ a + defaultTTL := hanchor a rfl
        exact hi.at hc ⟨⟨hfound, by omega⟩, hread⟩
    | failed =>
      cases h
      exact hi.done
    | starting => cases h
    | verify a => cases h
    | lookup a => cases h
    | grants a f => cases h
    | returning a r => cases h
  | filled a f =>
    simp only [hst] at h hstage
    obtain ⟨hholds, hread⟩ := hstage
    have hmeasured : Measured s.toView ⟨a, s.now, defaultTTL - (s.now - a)⟩ f := by
      have hpast : f.readAt ≤ s.now := hholds.1.past
      exact ⟨hread, Nat.le_refl _, fun hpos => by dsimp only at hpos ⊢; omega⟩
    split at h
    · rename_i hnone
      cases h
      exact hi.at hc ⟨hholds, hmeasured, by simp [Unexpired, hnone]⟩
    · cases h
      exact hi.at hc ⟨hholds, hmeasured⟩
  | timed r f =>
    simp only [hst] at h hstage
    obtain ⟨hholds, hread, hclock, httl⟩ := hstage
    split at h
    · cases h
    · cases h
      exact hi.at hc ⟨hholds, hread, hclock, fun hpos => by dsimp only at hpos ⊢; omega⟩
  | capped r f =>
    simp only [hst] at h hstage
    split_ifs at h with hexp
    · cases h
      exact hi.done
    · cases h
      exact hi.at hc ⟨hstage.1, hstage.2, unexpired_of_not_expired hexp⟩
  | setting r f =>
    simp only [hst] at h hstage
    obtain ⟨hholds, ⟨hread, hclock, httl⟩, hexp⟩ := hstage
    have hnext : Inv bearer (s.setCall i (c.at (.answer f))) := hi.at hc ⟨hholds, hexp⟩
    split_ifs at h with hset
    · cases h
      refine ⟨fun e he => ?_, hnext.group, hnext.flights, hnext.calls, hnext.answers⟩
      cases he
      have hdelay := htime r f hst hset.2
      have hmeasured := httl hset.2
      exact ⟨hholds.1, show s.now + r.ttl ≤ f.readAt + defaultTTL by omega⟩
    · cases h
      exact hnext
  | answer f =>
    simp only [hst] at h hstage
    cases h
    obtain ⟨⟨hfound, hcall⟩, hexp⟩ := hstage
    refine ⟨hi.cache, hi.group, hi.flights, hi.done.calls, fun a ha => ?_⟩
    obtain rfl | ha := List.mem_cons.mp ha
    · refine ⟨⟨f.readAt, hfound.looked, hcall, hfound.past⟩, fun x hx => ?_⟩
      obtain ⟨y, hy, hyx⟩ := hfound.capped x hx
      exact Nat.lt_of_lt_of_le (hexp y hy) hyx
    · exact hi.answers a ha

end Calls

section Flights

variable {g : ℕ} {fl fl' : Flight}

/-- The clock, the row and the log move on. -/
structure Moves (bearer : Bearer) (v v' : View) (d : ℕ) : Prop where
  now : v'.now = v.now + d
  lookups : v.lookups ⊆ v'.lookups
  capped : ∀ f, Capped bearer v.row f → Capped bearer v'.row f

theorem FoundOk.moves {d : ℕ} {f : Found} (h : FoundOk bearer v f) (hm : Moves bearer v v' d) :
    FoundOk bearer v' f :=
  ⟨hm.lookups h.looked, hm.now ▸ Nat.le_add_right_of_le h.past, hm.capped f h.capped⟩

theorem Holds.moves {d : ℕ} {c : Call} {f : Found} (h : Holds bearer v c f)
    (hm : Moves bearer v v' d) : Holds bearer v' c f := ⟨h.1.moves hm, h.2⟩

theorem Measured.moves {d : ℕ} {r : Remaining} {f : Found} (h : Measured v r f)
    (hm : Moves bearer v v' d) : Measured v' r f :=
  ⟨h.1, hm.now ▸ Nat.le_add_right_of_le h.2.1, h.2.2⟩

theorem Inv.moves (hi : Inv bearer s) {d : ℕ} (hm : Moves bearer s.toView v' d)
    (htime : TimelyWait s d) : Inv bearer { s with toView := v' } := by
  refine ⟨fun e he => ⟨(hi.cache e he).1.moves hm, (hi.cache e he).2⟩, hi.group, fun g fl hfl => ?_,
    fun i c hc => ⟨?_, ?_⟩, fun a ha => ?_⟩
  · obtain ⟨hanchor, hstage⟩ := hi.flights g fl hfl
    refine ⟨fun a ha => ?_, ?_⟩
    · rw [hm.now]
      exact ⟨Nat.le_add_right_of_le (hanchor a ha).1, fun hrun => htime.2 g fl hfl hrun a ha⟩
    · cases hst : fl.stage with
      | grants a f =>
        rw [hst] at hstage
        obtain ⟨hread, hpast, hcapped⟩ := hstage
        exact ⟨hread, hm.now ▸ Nat.le_add_right_of_le hpast, hm.capped f hcapped⟩
      | returning a r | done a r =>
        rw [hst] at hstage
        exact fun f hf => ⟨(hstage f hf).1, (hstage f hf).2.moves hm⟩
      | _ => rwa [hst] at hstage
  · rw [hm.now]
    exact Nat.le_add_right_of_le (hi.calls i c hc).1
  · have hstage := (hi.calls i c hc).2
    cases hst : c.stage with
    | get => trivial
    | miss => trivial
    | waiting g => rwa [hst] at hstage
    | hit f =>
      rw [hst] at hstage
      exact hstage.moves hm
    | filled a f =>
      rw [hst] at hstage
      exact ⟨hstage.1.moves hm, hstage.2⟩
    | timed r f | capped r f =>
      rw [hst] at hstage
      exact ⟨hstage.1.moves hm, hstage.2.moves hm⟩
    | setting r f =>
      rw [hst] at hstage
      refine ⟨hstage.1.moves hm, hstage.2.1.moves hm, fun x hx => ?_⟩
      rw [hm.now]
      exact htime.1 i c hc f (.inl ⟨r, hst⟩) x hx
    | answer f =>
      rw [hst] at hstage
      refine ⟨⟨hstage.1.1.moves hm, hstage.1.2⟩, fun x hx => ?_⟩
      rw [hm.now]
      exact htime.1 i c hc f (.inr hst) x hx
  · obtain ⟨⟨t, ht, h⟩, hexp⟩ := hi.answers a ha
    exact ⟨⟨t, hm.lookups ht, h⟩, hexp⟩

theorem Inv.timely_zero (hi : Inv bearer s) : TimelyWait s 0 := by
  refine ⟨fun i c hc f hst => ?_, fun g fl hfl hrun a ha => ((hi.flights g fl hfl).1 a ha).2 hrun⟩
  have hstage := (hi.calls i c hc).2
  obtain ⟨r, hst⟩ | hst := hst
  · rw [hst] at hstage
    exact hstage.2.2
  · rw [hst] at hstage
    exact hstage.2

theorem Inv.look (hi : Inv bearer s) (t : ℕ) :
    Inv bearer { s with lookups := t :: s.lookups } :=
  hi.moves ⟨rfl, List.subset_cons_self t s.lookups, fun _ h => h⟩ hi.timely_zero

theorem capped_commit {row row' : Row} (h : bearer.commits row row') {f : Found}
    (hf : Capped bearer row f) : Capped bearer row' f := by
  cases bearer with
  | oauth exp => exact hf
  | exchange exp => exact hf
  | key =>
    intro x hx
    have hle := h rfl
    have hx : row'.expiresAt = some x := hx
    cases hrow : row.expiresAt with
    | none =>
      rw [hrow, hx] at hle
      cases hle
    | some y =>
      obtain ⟨z, hz, hzy⟩ := hf y hrow
      rw [hrow, hx] at hle
      exact ⟨z, hz, Nat.le_trans hzy (of_decide_eq_true hle)⟩

theorem Inv.setFlight (hi : Inv bearer s) (hfl : ∀ fl₀, s.flights g = some fl₀ →
      fl'.proc = fl₀.proc ∧ ∀ a ∈ fl'.stage.anchor, a ∈ fl₀.stage.anchor ∨ a = s.now)
    (hok : FlightOk bearer s.toView fl')
    (hrun : ∀ p, s.group p = some g → fl'.stage.running) : Inv bearer (s.setFlight g fl') := by
  refine ⟨hi.cache, fun p g' hp => ?_, fun g' fl₁ h₁ => ?_, fun i c hc => ?_, hi.answers⟩
  · obtain ⟨fl₁, h₁, hproc, hrun₁⟩ := hi.group p g' hp
    obtain rfl | hne := eq_or_ne g' g
    · exact ⟨fl', Function.update_self .., (hfl fl₁ h₁).1.trans hproc, hrun p hp⟩
    · exact ⟨fl₁, (Function.update_of_ne hne ..).trans h₁, hproc, hrun₁⟩
  · have h₁ : Function.update s.flights g (some fl') g' = some fl₁ := h₁
    rw [Function.update_apply] at h₁
    split_ifs at h₁
    · cases h₁
      exact hok
    · exact hi.flights g' fl₁ h₁
  · obtain ⟨hcall, hstage⟩ := hi.calls i c hc
    refine ⟨hcall, ?_⟩
    cases hst : c.stage with
    | waiting g' =>
      rw [hst] at hstage
      obtain ⟨fl₁, h₁, hanchor⟩ := hstage
      obtain rfl | hne := eq_or_ne g' g
      · refine ⟨fl', Function.update_self .., fun a ha => ?_⟩
        obtain ha | rfl := (hfl fl₁ h₁).2 a ha
        · exact hanchor a ha
        · have hcall : c.callAt ≤ s.now := hcall
          omega
      · exact ⟨fl₁, (Function.update_of_ne hne ..).trans h₁, hanchor⟩
    | _ =>
      rw [hst] at hstage
      exact hstage

theorem Inv.land (hi : Inv bearer s) (hfl : s.flights g = some fl) (hproc : fl'.proc = fl.proc)
    (hanchor : ∀ a ∈ fl'.stage.anchor, a ∈ fl.stage.anchor) (hok : FlightOk bearer s.toView fl') :
    Inv bearer (s.land g fl') := by
  have hout : Inv bearer { s with group := Function.update s.group fl'.proc none } := by
    refine ⟨hi.cache, fun p g' hp => ?_, hi.flights, hi.calls, hi.answers⟩
    have hp : Function.update s.group fl'.proc none p = some g' := hp
    rw [Function.update_apply] at hp
    split_ifs at hp
    exact hi.group p g' hp
  refine hout.setFlight (fun fl₀ h₀ => ?_) hok (fun p hp => ?_)
  · cases hfl.symm.trans h₀
    exact ⟨hproc, fun a ha => .inl (hanchor a ha)⟩
  · -- the flight was in the group of its process only
    have hp : Function.update s.group fl'.proc none p = some g := hp
    rw [Function.update_apply] at hp
    split_ifs at hp with heq
    obtain ⟨fl₁, h₁, hproc₁, _⟩ := hi.group p g hp
    cases hfl.symm.trans h₁
    exact absurd (hproc₁.symm.trans hproc.symm) heq

theorem Inv.fly (hi : Inv bearer s) (hfl : s.flights g = some fl) {stage : FlightStage}
    (hanchor : ∀ a ∈ stage.anchor, a ∈ fl.stage.anchor ∨ a = s.now) (hrun : stage.running)
    (hok : FlightOk bearer s.toView ⟨fl.proc, stage⟩) :
    Inv bearer (s.setFlight g ⟨fl.proc, stage⟩) := by
  refine hi.setFlight (fun fl₀ h₀ => ?_) hok (fun _ _ => hrun)
  cases hfl.symm.trans h₀
  exact ⟨rfl, hanchor⟩

theorem found_capped {row : Row} {now : ℕ}
    (hoauth : ∀ exp, bearer = .oauth exp → ∃ y ∈ row.expiresAt, y ≤ exp) :
    Capped bearer row (bearer.found row now) := by
  intro x hx
  cases bearer with
  | key => exact ⟨x, hx, Nat.le_refl x⟩
  | oauth exp =>
    cases hx
    exact hoauth x rfl
  | exchange exp =>
    cases hx
    rw [Bearer.found]
    split
    · exact ⟨x, rfl, Nat.le_refl x⟩
    · rename_i y _
      split_ifs with hlt
      · exact ⟨x, rfl, Nat.le_refl x⟩
      · exact ⟨y, rfl, Nat.not_lt.mp hlt⟩

theorem found_readAt (row : Row) (now : ℕ) : (bearer.found row now).readAt = now := by
  cases bearer with
  | key => rfl
  | oauth exp => rfl
  | exchange exp =>
    rw [Bearer.found]
    split
    · rfl
    · split_ifs <;> rfl

theorem Inv.fly_anchored (hi : Inv bearer s) (hfl : s.flights g = some fl) {a : ℕ}
    (ha : a ∈ fl.stage.anchor) (hrun : fl.stage.running) {stage : FlightStage}
    (ha' : stage.anchor = some a) (hrun' : stage.running)
    (hok : stage.Carries bearer s.toView) :
    Inv bearer (s.setFlight g ⟨fl.proc, stage⟩) := by
  obtain ⟨hpast, htimeout⟩ := (hi.flights g fl hfl).1 a ha
  refine hi.fly hfl (fun b hb => ?_) hrun' ⟨fun b hb => ?_, hok⟩
  · cases ha'.symm.trans hb
    exact .inl ha
  · cases ha'.symm.trans hb
    exact ⟨hpast, fun _ => htimeout hrun⟩

theorem flyStep_inv (hi : Inv bearer s) (hfl : s.flights g = some fl) {ok : Bool}
    (htime : ∀ exp, bearer = .oauth exp → ∀ a, fl.stage = .lookup a →
      ∃ y ∈ s.row.expiresAt, y ≤ exp)
    (h : flyStep bearer s g fl ok = some s') : Inv bearer s' := by
  have hstage := (hi.flights g fl hfl).2
  have hfailed : Inv bearer (s.land g ⟨fl.proc, .failed⟩) :=
    hi.land hfl rfl nofun ⟨nofun, trivial⟩
  have hstart : ∀ stage : FlightStage, stage = .lookup s.now ∨ stage = .verify s.now →
      Inv bearer (s.setFlight g ⟨fl.proc, stage⟩) := by
    rintro stage (rfl | rfl)
    all_goals
      refine hi.fly hfl (fun a ha => .inr (Option.some.inj ha).symm) trivial
        ⟨fun a ha => ?_, trivial⟩
      cases ha
      exact ⟨Nat.le_refl _, fun _ => Nat.le_add_right _ _⟩
  unfold flyStep at h
  cases hst : fl.stage with
  | starting =>
    simp only [hst] at h
    split at h
    · cases h
      exact hstart _ (.inl rfl)
    · cases h
      exact hstart _ (.inr rfl)
  | verify a =>
    have ha : a ∈ fl.stage.anchor := by rw [hst]; rfl
    have hrun : fl.stage.running := by rw [hst]; trivial
    simp only [hst] at h
    split at h
    · cases h
    · split_ifs at h
      · cases h
        exact hi.fly_anchored hfl ha hrun rfl trivial trivial
      · cases h
        exact hi.fly_anchored hfl ha hrun rfl trivial nofun
  | lookup a =>
    have ha : a ∈ fl.stage.anchor := by rw [hst]; rfl
    have hrun : fl.stage.running := by rw [hst]; trivial
    have hpast : a ≤ s.now := ((hi.flights g fl hfl).1 a ha).1
    have hcapped : Capped bearer s.row (bearer.found s.row s.now) :=
      found_capped (fun exp hexp => htime exp hexp a hst)
    have hread := @found_readAt bearer s.row s.now
    simp only [hst] at h
    split_ifs at h with hok hlive
    · cases h
      exact hfailed
    · split at h
      · cases h
        exact hi.fly_anchored hfl ha hrun rfl trivial
          ⟨by rw [hread]; exact hpast, Nat.le_of_eq hread, hcapped⟩
      · cases h
        refine (hi.look s.now).fly_anchored hfl ha hrun rfl trivial (fun f hf => ?_)
        cases hf
        exact ⟨by
          rw [hread]; exact hpast,
          by rw [hread]; exact List.mem_cons_self, Nat.le_of_eq hread, hcapped⟩
    · cases h
      exact hi.fly_anchored hfl ha hrun rfl trivial nofun
  | grants a f =>
    have ha : a ∈ fl.stage.anchor := by rw [hst]; rfl
    have hrun : fl.stage.running := by rw [hst]; trivial
    simp only [hst] at h hstage
    obtain ⟨hread, hpast, hcapped⟩ := hstage
    split_ifs at h
    · cases h
      exact hfailed
    · cases h
      refine (hi.look f.readAt).fly_anchored hfl ha hrun rfl trivial (fun f' hf => ?_)
      cases hf
      exact ⟨hread, List.mem_cons_self, hpast, hcapped⟩
    · cases h
      exact hi.fly_anchored hfl ha hrun rfl trivial nofun
  | returning a r =>
    have ha : a ∈ fl.stage.anchor := by rw [hst]; rfl
    simp only [hst] at h hstage
    cases h
    refine hi.land hfl rfl (fun b hb => ?_) ⟨fun b hb => ?_, hstage⟩
    · cases hb
      exact ha
    · cases hb
      exact ⟨((hi.flights g fl hfl).1 a ha).1, False.elim⟩
  | done a r =>
    simp only [hst] at h
    cases h
  | failed =>
    simp only [hst] at h
    cases h

end Flights

theorem enterStep_inv (hi : Inv bearer s) {i g : ℕ} {c : Call} (hc : s.calls i = some c)
    (h : enterStep s i g c = some s') : Inv bearer s' := by
  unfold enterStep at h
  split at h
  · split at h
    · rename_i g' hg'
      cases h
      obtain ⟨fl, hfl, -, hrun⟩ := hi.group c.proc g' hg'
      refine hi.at hc ⟨fl, hfl, fun a ha => ?_⟩
      have htimeout := ((hi.flights g' fl hfl).1 a ha).2 hrun
      have hcall := (hi.calls i c hc).1
      unfold sfLeaderTimeout at htimeout
      unfold defaultTTL
      omega
    · rename_i hidle
      split_ifs at h with hfree
      cases h
      have hfl : Inv bearer (s.setFlight g ⟨c.proc, .starting⟩) := by
        refine hi.setFlight (fun fl₀ h₀ => ?_) ⟨nofun, trivial⟩ (fun _ _ => trivial)
        rw [hfree] at h₀
        cases h₀
      have hgroup : Inv bearer { s.setFlight g ⟨c.proc, .starting⟩ with
          group := Function.update s.group c.proc (some g) } := by
        refine ⟨hfl.cache, fun p g' hp => ?_, hfl.flights, hfl.calls, hfl.answers⟩
        have hp : Function.update s.group c.proc (some g) p = some g' := hp
        rw [Function.update_apply] at hp
        split_ifs at hp with heq
        · cases hp
          exact ⟨_, Function.update_self .., heq.symm, trivial⟩
        · exact hfl.group p g' hp
      exact hgroup.at hc ⟨_, Function.update_self .., nofun⟩
  · cases h

theorem step_inv {act : Act} (hi : Inv bearer s) (htime : Timely bearer s act)
    (h : step bearer s act = some s') : Inv bearer s' := by
  cases act with
  | wait d =>
    cases h
    exact hi.moves ⟨rfl, fun _ h => h, fun _ h => h⟩ htime
  | commit row granted =>
    simp only [step] at h
    split_ifs at h with hcommit
    cases h
    have hrow : Inv bearer { s with row } :=
      hi.moves ⟨rfl, fun _ h => h, fun _ => capped_commit hcommit⟩ hi.timely_zero
    exact ⟨hrow.cache, hrow.group, hrow.flights, hrow.calls, hrow.answers⟩
  | del =>
    cases h
    exact ⟨nofun, hi.group, hi.flights, hi.calls, hi.answers⟩
  | call i proc =>
    simp only [step] at h
    split_ifs at h
    cases h
    refine hi.setCall (fun c hc => ?_)
    cases hc
    exact ⟨Nat.le_refl _, trivial⟩
  | enter i g =>
    obtain ⟨c, hc, h⟩ := Option.bind_eq_some_iff.mp h
    exact enterStep_inv hi hc h
  | fly g ok =>
    obtain ⟨fl, hfl, h⟩ := Option.bind_eq_some_iff.mp h
    exact flyStep_inv hi hfl (fun exp hexp a ha => htime exp hexp fl hfl a ha) h
  | go i ok =>
    obtain ⟨c, hc, h⟩ := Option.bind_eq_some_iff.mp h
    exact goStep_inv hi hc (fun r f hst hr => htime c hc r f hst hr) h
  | cancel i =>
    cases h
    exact hi.done

theorem inv_start (row : Row) (granted : Bool) : Inv bearer (start row granted) :=
  ⟨nofun, nofun, nofun,
    nofun, nofun⟩

def lookUp : List Act :=
  [.call 0 0, .go 0 true, .enter 0 0, .fly 0 true, .fly 0 true, .fly 0 true, .go 0 true, .go 0 true,
    .go 0 true, .go 0 true, .go 0 true, .go 0 true]

def timelyGo (s : State) (i : ℕ) : Bool :=
  match s.calls i with
  | some ⟨_, _, .setting r f⟩ => decide (s.now - r.clock ≤ f.readAt - r.anchor)
  | _ => true

theorem timely_go {i : ℕ} {ok : Bool} (h : timelyGo s i = true) : Timely bearer s (.go i ok) := by
  intro c hc r f hst _
  obtain ⟨proc, callAt, stage⟩ := c
  cases hst
  rw [timelyGo, hc] at h
  exact of_decide_eq_true h

theorem timely_lookUp :
    Run.Along (step .key) (Timely .key) (start ⟨.active, some 1000000⟩ false) lookUp := by
  iterate 12
    refine Run.along_cons rfl ?_ ?_
    · first | trivial | exact timely_go rfl | exact nofun
  trivial

end AchProofs.Keystore
