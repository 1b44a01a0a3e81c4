import AchProofs.Auth.Session

namespace AchProofs.Auth

open Foundation

variable {cfg : Config} {c : GenCounter}

/-- The requests that check a session or act on one; a platform refresh and an end of sessions do
not. -/
def Caller.timed : Caller → Bool
  | .recheck => false
  | .endSessions _ => false
  | _ => true

/-- Every such request is over within the rotating time. -/
def Timely (s : State) : Action → Prop
  | .wait d => ∀ th ∈ s.threads, th.caller.timed → s.now + d ≤ th.started + rotatingTTL
  | _ => True

abbrev Covered (cfg : Config) (c : GenCounter) (user : User) (goodUntil : ℕ) : Prop :=
  c.now < goodUntil → c.Covers cfg.sessionGenTTL user.toStamp goodUntil

structure CellOk (cfg : Config) (c : GenCounter) (cell : Cell) : Prop where
  moves_le : cell.user.moves ≤ c.moves
  covered : Covered cfg c cell.user cell.goodUntil
  web : ∀ r x, cell.body = .websession r x → x ≤ c.now + cfg.refreshTTL

def Thread.Fresh (cfg : Config) (th : Thread) : Prop :=
  th.started + rotatingTTL + cfg.refreshTTL ≤ th.goodUntil ∧ th.since ≤ th.user.moves

/-- What a request is good for past its checks. A broker callback makes none, and writes a code for
the user of its chain. -/
def Thread.Lasting (cfg : Config) (th : Thread) : Prop :=
  match th.caller with
  | .broker _ => th.started + rotatingTTL + oauthCodeTTL + rotatingTTL ≤ th.goodUntil
  | _ => th.Fresh cfg

def StageOk (cfg : Config) (th : Thread) : Prop :=
  match th.stage with
  | .dexGet => th.caller ≠ .recheck → th.Fresh cfg
  | .dexAsk => th.caller ≠ .recheck → th.Fresh cfg
  | .issue => (∃ clientID presented, th.caller = .token clientID presented ∧
      (presented ≠ none → th.started + rotatingTTL + cfg.refreshTTL ≤ th.goodUntil)) ∧
      th.started + rotatingTTL < th.goodUntil
  | .lookup => th.Lasting cfg
  | .decide _ _ => th.Lasting cfg
  | .replace _ => th.Lasting cfg
  | .mint => th.Lasting cfg
  | .restore => th.started + rotatingTTL + cfg.refreshTTL ≤ th.goodUntil
  | .answer => th.Lasting cfg
  | .arrived => ∃ tail, th.caller = .login tail
  | .stored => ∃ tail, th.caller = .login tail
  | _ => True

structure ThreadOk (cfg : Config) (c : GenCounter) (th : Thread) : Prop where
  since_le : th.since ≤ c.moves
  started_le : th.started ≤ c.now
  timed : th.caller.timed → c.now ≤ th.started + rotatingTTL
  moves_le : th.user.moves ≤ c.moves
  web : ∀ sid r x, th.caller = .console sid r x → x ≤ th.started + cfg.refreshTTL
  covered : Covered cfg c th.user th.goodUntil
  stage : StageOk cfg th

structure Inv (cfg : Config) (s : State) : Prop where
  cells : ∀ id cell, s.store id = some cell → CellOk cfg s.counter cell
  threads : ∀ th ∈ s.threads, ThreadOk cfg s.counter th

theorem sessionGenTTL_pos (cfg : Config) : 0 < cfg.sessionGenTTL :=
  Nat.add_pos_right _ (by decide)

section Counter

variable {cell : Cell} {th : Thread} {user : User} {t : ℕ}

theorem Thread.Fresh.lasting (h : th.Fresh cfg) : th.Lasting cfg := by
  unfold Thread.Lasting
  split
  · have := h.1
    have := cfg.hour_le
    simp only [rotatingTTL, dexRefreshTimeout, oauthCodeTTL] at *
    omega
  · exact h

theorem Thread.Lasting.fresh (h : th.Lasting cfg) (hb : ∀ clientID, th.caller ≠ .broker clientID) :
    th.Fresh cfg := by
  unfold Thread.Lasting at h
  split at h
  · next hc => exact absurd hc (hb _)
  · exact h

theorem Covered.slide (h : Covered cfg c user t) :
    Covered cfg (c.slide cfg.sessionGenTTL) user t := by
  intro hn
  rw [GenCounter.slide_now] at hn
  exact (h hn).slide (sessionGenTTL_pos cfg) (h hn).within

theorem Covered.move (h : Covered cfg c user t) : Covered cfg (c.move cfg.sessionGenTTL) user t :=
  fun hn => (h hn).move (sessionGenTTL_pos cfg)

theorem Covered.wait (h : Covered cfg c user t) (d : ℕ) : Covered cfg (c.wait d) user t :=
  fun hn => (h (Nat.lt_of_le_of_lt (Nat.le_add_right _ d) hn)).wait hn

theorem CellOk.slide (h : CellOk cfg c cell) : CellOk cfg (c.slide cfg.sessionGenTTL) cell where
  moves_le := by simpa using h.moves_le
  covered := h.covered.slide
  web := by simpa using h.web

theorem CellOk.move (h : CellOk cfg c cell) : CellOk cfg (c.move cfg.sessionGenTTL) cell where
  moves_le := Nat.le_succ_of_le h.moves_le
  covered := h.covered.move
  web := h.web

theorem CellOk.wait (h : CellOk cfg c cell) (d : ℕ) : CellOk cfg (c.wait d) cell where
  moves_le := h.moves_le
  covered := h.covered.wait d
  web := by
    intro r x hb
    have := h.web r x hb
    simp only [GenCounter.wait]
    omega

theorem ThreadOk.slide (h : ThreadOk cfg c th) : ThreadOk cfg (c.slide cfg.sessionGenTTL) th where
  since_le := by simpa using h.since_le
  started_le := by simpa using h.started_le
  timed := by simpa using h.timed
  moves_le := by simpa using h.moves_le
  web := h.web
  covered := h.covered.slide
  stage := h.stage

theorem ThreadOk.move (h : ThreadOk cfg c th) : ThreadOk cfg (c.move cfg.sessionGenTTL) th where
  since_le := Nat.le_succ_of_le h.since_le
  started_le := h.started_le
  timed := h.timed
  moves_le := Nat.le_succ_of_le h.moves_le
  web := h.web
  covered := h.covered.move
  stage := h.stage

theorem ThreadOk.wait (h : ThreadOk cfg c th) {d : ℕ}
    (hd : th.caller.timed → c.now + d ≤ th.started + rotatingTTL) :
    ThreadOk cfg (c.wait d) th where
  since_le := h.since_le
  started_le := Nat.le_trans h.started_le (Nat.le_add_right _ d)
  timed := hd
  moves_le := h.moves_le
  web := h.web
  covered := h.covered.wait d
  stage := h.stage

theorem ThreadOk.at (h : ThreadOk cfg c th) {stage : Stage} (hs : StageOk cfg (th.at stage)) :
    ThreadOk cfg c (th.at stage) :=
  ⟨h.since_le, h.started_le, h.timed, h.moves_le, h.web, h.covered, hs⟩

theorem fresh_passed {stage : Stage} (hm : th.since ≤ th.user.moves) :
    (th.passed cfg stage).Fresh cfg := ⟨Nat.le_refl _, hm⟩

/-- A request whose stamp reads as the counter does: the stamp is of the current generation, and
the read makes it good for another window. -/
theorem ThreadOk.passed (h : ThreadOk cfg c th) (hn : c.now < th.goodUntil)
    (hr : c.read = th.user.gen) {stage : Stage}
    (hs : (th.passed cfg stage).Fresh cfg → StageOk cfg (th.passed cfg stage)) :
    ThreadOk cfg (c.slide cfg.sessionGenTTL) (th.passed cfg stage) := by
  have hcur : th.user.moves = c.moves := (h.covered hn).current hr
  have hw : th.started + rotatingTTL + cfg.refreshTTL ≤ c.now + cfg.sessionGenTTL := by
    have := h.started_le
    unfold Config.sessionGenTTL
    omega
  refine ⟨h.slide.since_le, h.slide.started_le, h.slide.timed, h.slide.moves_le, h.web, ?_, ?_⟩
  · exact fun _ => (h.covered hn).slide (sessionGenTTL_pos cfg) hw
  · exact hs (fresh_passed (hcur ▸ h.since_le))

end Counter

section Store

variable {s : State} {id : ℕ}

theorem Inv.slide (h : Inv cfg s) : Inv cfg (s.slide cfg) :=
  ⟨fun id cell hc => (h.cells id cell hc).slide, fun th ht => (h.threads th ht).slide⟩

theorem Inv.bump (h : Inv cfg s) : Inv cfg (s.bump cfg) :=
  ⟨fun id cell hc => (h.cells id cell hc).move, fun th ht => (h.threads th ht).move⟩

theorem Inv.put (h : Inv cfg s) {body : Body} {user : User} {ttl : ℕ}
    (hc : CellOk cfg s.counter ⟨body, user, s.now + ttl⟩) : Inv cfg (s.put id body user ttl) := by
  refine ⟨fun id' cell hcell => ?_, h.threads⟩
  by_cases hid : id' = id
  · subst hid
    simp only [State.put, Function.update_self, Option.some.injEq] at hcell
    exact hcell ▸ hc
  · simp only [State.put, Function.update_of_ne hid] at hcell
    exact h.cells id' cell hcell

theorem Inv.del (h : Inv cfg s) : Inv cfg (s.del id) := by
  refine ⟨fun id' cell hcell => ?_, h.threads⟩
  by_cases hid : id' = id
  · subst hid
    simp [State.del] at hcell
  · simp only [State.del, Function.update_of_ne hid] at hcell
    exact h.cells id' cell hcell

theorem Inv.congr {s' : State} (h : Inv cfg s)
    (he : (s'.counter, s'.store, s'.threads) = (s.counter, s.store, s.threads)) : Inv cfg s' := by
  simp only [Prod.mk.injEq] at he
  obtain ⟨hc, hst, hth⟩ := he
  exact ⟨by rw [hc, hst]; exact h.cells, by rw [hc, hth]; exact h.threads⟩

theorem Inv.spawn (h : Inv cfg s) {caller : Caller} {user : User} {goodUntil : ℕ} {stage : Stage}
    (ht : ThreadOk cfg s.counter (s.arrival caller user goodUntil stage)) :
    Inv cfg (s.spawn caller user goodUntil stage) := by
  refine ⟨h.cells, fun th hth => ?_⟩
  obtain hth | hth := List.mem_append.mp hth
  · exact h.threads th hth
  · rw [List.mem_singleton.mp hth]
    exact ht

theorem store_of_get {cell : Cell} (h : s.get id = some cell) :
    s.store id = some cell ∧ s.now < cell.expires := by
  simpa [State.get] using h

end Store

end AchProofs.Auth
