import AchProofs.Keys.Mint

namespace AchProofs.Keys

open Foundation

/-- Past the gate and before the `INSERT` has been decided. -/
def Stage.mayInsert : Stage → Bool
  | .prepare => true
  | .generate => true
  | .sealing _ _ => true
  | .insert _ _ _ => true
  | _ => false

def Mint.pending (owner : ℕ) (m : Mint) : Bool :=
  m.owner = owner ∧ m.kind = .manual ∧ m.stage.mayInsert

def pending (s : State) (owner : ℕ) : ℕ := s.mints.countP (Mint.pending owner)

/-- A create of the owner passes the gate only while there is room also for those that passed it
before and have not inserted. -/
def Room (cfg : Config) (owner : ℕ) (s : State) : Act → Prop
  | .go i .ok _ => ∀ m, s.mints[i]? = some m → m.stage = .gate → m.owner = owner →
      used s owner < cfg.maxKeys owner → used s owner + pending s owner < cfg.maxKeys owner
  | _ => True

section Step

variable {cfg : Config} {s s' : State} {owner : ℕ}

def weight (s : State) (owner : ℕ) : ℕ := used s owner + pending s owner

variable {i : ℕ} {m : Mint} {answer : Answer}

theorem countP_set {l : List Mint} (h : l[i]? = some m) (m' : Mint) (p : Mint → Bool) :
    (l.set i m').countP p + (if p m then 1 else 0) = l.countP p + (if p m' then 1 else 0) := by
  obtain ⟨hi, hm⟩ := List.getElem?_eq_some_iff.mp h
  have hsplit : l = l.take i ++ m :: l.drop (i + 1) := by
    rw [← hm, ← List.drop_eq_getElem_cons hi, List.take_append_drop]
  rw [List.set_eq_take_append_cons_drop, if_pos hi]
  conv_rhs => rw [hsplit]
  rw [List.countP_append, List.countP_append, List.countP_cons, List.countP_cons]
  omega

theorem weight_setMint (owner : ℕ) (hm : s.mints[i]? = some m) (m' : Mint) :
    weight (s.setMint i m') owner + (if m.pending owner then 1 else 0)
      = weight s owner + (if m'.pending owner then 1 else 0) := by
  have h : pending (s.setMint i m') owner + (if m.pending owner then 1 else 0)
      = pending s owner + (if m'.pending owner then 1 else 0) := countP_set hm m' _
  have hused : used (s.setMint i m') owner = used s owner := rfl
  unfold weight
  omega

theorem weight_setMint_le (hm : s.mints[i]? = some m) {m' : Mint}
    (h : m'.pending owner = true → m.pending owner = true) :
    weight (s.setMint i m') owner ≤ weight s owner := by
  have := weight_setMint owner hm m'
  by_cases hp : m'.pending owner = true
  · rw [if_pos hp, if_pos (h hp)] at this
    omega
  · rw [if_neg hp] at this
    omega

theorem pending_of_stage {st : Stage} (h : st.mayInsert = true → m.stage.mayInsert = true) :
    Mint.pending owner { m with stage := st } = true → m.pending owner = true := by
  simp only [Mint.pending, decide_eq_true_eq]
  exact fun ⟨ho, hk, hst⟩ => ⟨ho, hk, h hst⟩

theorem used_mapRows_le {f : Row → Row}
    (h : ∀ r, (f r).counts owner = true → r.counts owner = true) :
    used (s.mapRows f) owner ≤ used s owner := by
  show (s.rows.map f).countP _ ≤ _
  rw [List.countP_map]
  exact List.countP_mono_left (fun r _ hr => h r hr)

theorem counts_with_status {r : Row} {status : Status}
    (h : status ≠ .revoked → r.status ≠ .revoked) :
    Row.counts owner { r with status := status } = true → r.counts owner = true := by
  simp only [Row.counts, Row.live, decide_eq_true_eq]
  exact fun ⟨ho, hk, hl⟩ => ⟨ho, hk, h hl⟩

/-- The row of a create takes the place of its claim. -/
theorem weight_insert (hm : s.mints[i]? = some m) (hst : m.stage.mayInsert = true) (token : ℕ)
    {st : Stage} (hout : st.mayInsert = false) :
    weight ((s.addRow (m.row token)).setMint i { m with stage := st }) owner ≤ weight s owner := by
  have hset := weight_setMint (s := s.addRow (m.row token)) owner hm { m with stage := st }
  have hnot : Mint.pending owner { m with stage := st } = false := by
    simp [Mint.pending, hout]
  have hrow : used (s.addRow (m.row token)) owner
      = used s owner + (if (m.row token).counts owner then 1 else 0) := by
    show (s.rows ++ [m.row token]).countP _ = _
    rw [List.countP_append, List.countP_singleton]
    rfl
  have hsame : (m.row token).counts owner = m.pending owner := by
    simp [Row.counts, Row.live, Mint.row, Mint.pending, hst]
  have hpend : pending (s.addRow (m.row token)) owner = pending s owner := rfl
  rw [hnot, if_neg Bool.false_ne_true] at hset
  rw [hsame] at hrow
  have hw : weight (s.addRow (m.row token)) owner
      = weight s owner + (if m.pending owner then 1 else 0) := by
    unfold weight
    omega
  omega

theorem insertStep_weight {token created : ℕ} {retried : Bool} {fresh : ℕ}
    (hm : s.mints[i]? = some m) (hst : m.stage = .insert token created retried) :
    weight (insertStep s i m token created retried answer fresh) owner ≤ weight s owner := by
  have hmay : m.stage.mayInsert = true := by rw [hst]; rfl
  have hout : weight (s.setMint i { m with stage := .compensate token }) owner ≤ weight s owner :=
    weight_setMint_le hm (pending_of_stage nofun)
  unfold insertStep
  split
  · exact hout
  · split_ifs
    · refine weight_setMint_le hm ?_
      simp only [Mint.pending, decide_eq_true_eq]
      exact fun ⟨ho, hk, _⟩ => ⟨ho, hk, hmay⟩
    · exact hout
    · exact hout
    · exact weight_insert hm hmay token rfl
    · exact weight_insert hm hmay token rfl

theorem generateStep_weight {token : ℕ} (hm : s.mints[i]? = some m) (hst : m.stage = .generate)
    (h : generateStep cfg s i m answer token = some s') : weight s' owner ≤ weight s owner := by
  have hmay : m.stage.mayInsert = true := by rw [hst]; rfl
  unfold generateStep at h
  split at h
  · cases h
    exact weight_setMint_le hm (pending_of_stage nofun)
  · split_ifs at h
    cases h
    exact weight_setMint_le (s := s.addKey _) hm (pending_of_stage (fun _ => hmay))
  · split_ifs at h
    cases h
    exact weight_setMint_le (s := s.addKey _) hm (pending_of_stage nofun)

theorem mintStep_weight {fresh : ℕ} (hm : s.mints[i]? = some m)
    (hroom : Room cfg owner s (.go i answer fresh))
    (h : mintStep cfg s i m answer fresh = some s') :
    weight s' owner ≤ weight s owner ∨ weight s' owner ≤ cfg.maxKeys owner := by
  have hover : ∀ st, st.mayInsert = false → weight (s.setMint i { m with stage := st }) owner
      ≤ weight s owner := by
    intro st hst
    refine weight_setMint_le hm (pending_of_stage (fun h => ?_))
    rw [hst] at h
    cases h
  unfold mintStep at h
  cases hst : m.stage with
  | gate =>
    simp only [hst] at h
    split_ifs at h with hpass
    · cases h
      obtain ⟨rfl, hlt⟩ := hpass
      by_cases ho : m.owner = owner
      · rw [ho] at hlt
        have hlt' := hroom m hm hst ho hlt
        have hset := weight_setMint owner hm { m with stage := .prepare }
        refine .inr ?_
        unfold weight at hset ⊢
        split_ifs at hset <;> omega
      · refine .inl (weight_setMint_le hm (fun h => ?_))
        simp [Mint.pending, ho] at h
    · cases h
      exact .inl (hover _ rfl)
  | prepare =>
    simp only [hst] at h
    split_ifs at h
    · cases h
      exact .inl (weight_setMint_le hm (pending_of_stage (fun _ => by rw [hst]; rfl)))
    · cases h
      exact .inl (hover _ rfl)
  | generate =>
    simp only [hst] at h
    exact .inl (generateStep_weight hm hst h)
  | sealing token created =>
    simp only [hst] at h
    split_ifs at h
    · cases h
      exact .inl (weight_setMint_le hm (pending_of_stage (fun _ => by rw [hst]; rfl)))
    · cases h
      exact .inl (hover _ rfl)
  | insert token created retried =>
    simp only [hst] at h
    cases h
    exact .inl (insertStep_weight hm hst)
  | compensate token =>
    simp only [hst] at h
    split_ifs at h
    · cases h
      exact .inl (hover _ rfl)
    · cases h
      exact .inl (hover _ rfl)
  | _ =>
    simp only [hst] at h
    cases h

theorem step_weight {act : Act} (hroom : Room cfg owner s act) (h : step cfg s act = some s') :
    weight s' owner ≤ weight s owner ∨ weight s' owner ≤ cfg.maxKeys owner := by
  cases act with
  | wait d =>
    cases h
    exact .inl (Nat.le_refl _)
  | begin kind o environment userID keyID =>
    cases h
    refine .inl (Nat.add_le_add_left ?_ _)
    show (s.mints ++ [_]).countP _ ≤ s.mints.countP _
    rw [List.countP_append, List.countP_singleton]
    cases kind <;> simp [Mint.pending, firstStage, Stage.mayInsert]
  | go i answer fresh =>
    obtain ⟨m, hm, h⟩ := Option.bind_eq_some_iff.mp h
    exact mintStep_weight hm hroom h
  | flip key op =>
    cases h
    refine .inl (Nat.add_le_add_right (used_mapRows_le (fun r => ?_)) _)
    split_ifs
    · exact counts_with_status Flip.apply_ne_revoked
    · exact id
  | drain environment =>
    cases h
    refine .inl (Nat.add_le_add_right (used_mapRows_le (fun r => ?_)) _)
    split_ifs
    · exact counts_with_status (fun h => absurd rfl h)
    · exact id
  | remove token =>
    cases h
    exact .inl (Nat.le_refl _)
  | foreign key =>
    simp only [Keys.step] at h
    split_ifs at h
    cases h
    exact .inl (Nat.le_refl _)

end Step

def start (rows : List Row) (litellm : List LiteKey) (born : ℕ → Option LiteKey) : State :=
  ⟨0, rows, litellm, born, []⟩

/-- In a run in which every create of the owner that passes the gate finds room for itself and those
that passed before it, the owner never holds more keys than the ceiling, or than at the start. -/
theorem ceiling_holds (cfg : Config) (owner : ℕ) (rows : List Row) (litellm : List LiteKey)
    (born : ℕ → Option LiteKey) {acts : List Act} {s : State}
    (hroom : Run.Along (step cfg) (Room cfg owner) (start rows litellm born) acts)
    (hrun : Run.run (step cfg) (start rows litellm born) acts = some s) :
    used s owner ≤ max (cfg.maxKeys owner) (used (start rows litellm born) owner) := by
  have hstep : ∀ s₁ act s₂,
      weight s₁ owner ≤ max (cfg.maxKeys owner) (used (start rows litellm born) owner) →
      Room cfg owner s₁ act → step cfg s₁ act = some s₂ →
      weight s₂ owner ≤ max (cfg.maxKeys owner) (used (start rows litellm born) owner) := by
    intro s₁ act s₂ hle hok h
    obtain h | h := step_weight hok h
    · exact Nat.le_trans h hle
    · exact Nat.le_trans h (Nat.le_max_left _ _)
  have hend := Run.run_preserves hstep (Nat.le_max_right _ _) hroom hrun
  exact Nat.le_trans (Nat.le_add_right _ _) hend

def oneKey : Config := ⟨0, fun _ => 1⟩

def createsInTurn : List Act :=
  [.begin .manual 0 0 0 0, .go 0 .ok 0, .go 0 .ok 0, .go 0 .ok 0, .go 0 .ok 0, .go 0 .ok 0,
    .begin .manual 0 0 0 1, .go 1 .ok 0]

theorem room_createsInTurn :
    Run.Along (step oneKey) (Room oneKey 0) (start [] [] fun _ => none) createsInTurn := by
  refine Run.along_cons rfl trivial (Run.along_cons rfl (fun m hm _ _ _ => by decide)
    (Run.along_cons rfl (fun m hm hst => ?_) (Run.along_cons rfl (fun m hm hst => ?_)
    (Run.along_cons rfl (fun m hm hst => ?_) (Run.along_cons rfl (fun m hm hst => ?_)
    (Run.along_cons rfl trivial (Run.along_cons rfl (fun m hm _ _ hlt => ?_) trivial)))))))
  all_goals
    cases hm
    first
      | cases hst
      | exact absurd hlt (by decide)

theorem creates_in_turn_keep_ceiling :
    ∃ s, Run.run (step oneKey) (start [] [] fun _ => none) createsInTurn = some s
      ∧ s.rows.length = 1 ∧
        used s 0 ≤ max (oneKey.maxKeys 0) (used (start [] [] fun _ => none) 0) := by
  obtain ⟨s, hrun, hrows⟩ : ∃ s, Run.run (step oneKey) (start [] [] fun _ => none) createsInTurn
      = some s ∧ s.rows.length = 1 := ⟨_, rfl, rfl⟩
  exact ⟨s, hrun, hrows, ceiling_holds oneKey 0 [] [] (fun _ => none) room_createsInTurn hrun⟩

/-- Two creates pass the gate before either inserts: the owner of at most one key has two. -/
theorem creates_at_once_exceed_ceiling :
    (Run.run (step oneKey) (start [] [] fun _ => none)
      [.begin .manual 0 0 0 0, .begin .manual 0 0 0 1, .go 0 .ok 0, .go 1 .ok 0, .go 0 .ok 0,
        .go 0 .ok 0, .go 0 .ok 0, .go 0 .ok 0, .go 1 .ok 0, .go 1 .ok 1, .go 1 .ok 0,
        .go 1 .ok 0]).map
        (fun s => used s 0)
      = some 2
    ∧ ¬ 2 ≤ max (oneKey.maxKeys 0) (used (start [] [] fun _ => none) 0) := by
  decide

end AchProofs.Keys
