import AchProofs.Litellm.TagBudget

/-!
When a budget write that reports success is in force, and what a retry after an error leaves.
-/

namespace AchProofs.Litellm.TagBudget

variable {γ : Type} {lite : LiteLLM} {s s' : Store γ} {name : String} {b : Budget γ} {p : Pattern}

section Target

/-- The budget with the tag's name is the given one, the tag is bound to it, and nothing else has
changed. -/
def Store.target (s : Store γ) (name : String) (b : Budget γ) : Store γ :=
  (s.setBudget name b).setTag name (some (some name))

def Near (name : String) (s s' : Store γ) : Prop := ∀ b, s'.target name b = s.target name b

theorem Near.refl (name : String) (s : Store γ) : Near name s s := fun _ => rfl

theorem Near.trans {s'' : Store γ} (h : Near name s s') (h' : Near name s' s'') : Near name s s'' :=
  fun b => (h' b).trans (h b)

theorem near_setBudget (s : Store γ) (name : String) (b : Budget γ) :
    Near name s (s.setBudget name b) := by
  intro b'
  simp [Store.target, Store.setBudget, Store.setTag]

theorem near_setTag (s : Store γ) (name : String) (tag : Option (Option String)) :
    Near name s (s.setTag name tag) := by
  intro b
  simp [Store.target, Store.setBudget, Store.setTag]

@[simp]
theorem setBudget_budgets : (s.setBudget name b).budgets name = some b := by
  simp [Store.setBudget]

@[simp]
theorem setTag_tags {tag : Option (Option String)} : (s.setTag name tag).tags name = tag := by
  simp [Store.setTag]

@[simp]
theorem setTag_budgets {tag : Option (Option String)} :
    (s.setTag name tag).budgets = s.budgets := rfl

theorem target_eq_self (hb : s.budgets name = some b) (ht : s.tags name = some (some name)) :
    s.target name b = s := by
  have hbudgets : Function.update s.budgets name (some b) = s.budgets := by
    rw [← hb, Function.update_eq_self]
  have htags : Function.update s.tags name (some (some name)) = s.tags := by
    rw [← ht, Function.update_eq_self]
  rw [Store.target, Store.setTag, Store.setBudget, hbudgets, htags]

/-- A store that differs from another at the name only is its target exactly if it has the budget
and the binding. -/
theorem Near.eq_target_iff (h : Near name s s') (ht : s'.tags name = some (some name)) :
    s' = s.target name b ↔ s'.budgets name = some b := by
  constructor
  · intro heq
    rw [heq, Store.target, setTag_budgets, setBudget_budgets]
  · intro hb
    rw [← h b, target_eq_self hb ht]

end Target

section Budgets

/-- The new budget has a duration, or there is none to be left behind by an update. -/
def Durable (lite : LiteLLM) (s : Store γ) (name : String) (b : Budget γ) : Prop :=
  lite.keepsOmitted = true → b.budgetDuration = "" →
    ∀ old, s.budgets name = some old → old.budgetDuration = ""

variable {old : Budget γ}

theorem updated_eq_iff :
    updated lite b old = b ↔
      (lite.keepsOmitted = true → b.budgetDuration = "" → old.budgetDuration = "") := by
  rw [updated]
  constructor
  · intro h hk hd
    have hdur := congrArg Budget.budgetDuration h
    simpa [hk, hd] using hdur
  · intro h
    split
    · rename_i hc
      rw [h hc.2 hc.1, ← hc.1]
    · rfl

theorem durable_setBudget_self : Durable lite (s.setBudget name b) name b := by
  intro _ hd old hold
  rw [setBudget_budgets] at hold
  cases hold
  exact hd

theorem durable_updated (hold : s.budgets name = some old) :
    Durable lite (s.setBudget name (updated lite b old)) name b ↔ Durable lite s name b := by
  refine forall₂_congr fun hk hd => ?_
  simp [hold, updated, hk, hd]

theorem durable_of_none (h : s.budgets name = none) : Durable lite s name b := by
  intro _ _ old hold
  rw [h] at hold
  nomatch hold

theorem budgetUpdate_of_some (hold : s.budgets name = some old) (a : Answer) :
    budgetUpdate lite s name b a =
      (if a.done then s.setBudget name (updated lite b old) else s, decide (a = .ok)) := by
  rw [budgetUpdate, hold]

theorem budgetUpdate_of_none (hold : s.budgets name = none) (a : Answer) :
    budgetUpdate lite s name b a = (s, decide (a = .ok)) := by
  rw [budgetUpdate, hold]

theorem budgetNew_of_none (hold : s.budgets name = none) (a : Answer) :
    budgetNew s name b a = (if a.done then s.setBudget name b else s, decide (a = .ok)) := by
  rw [budgetNew, hold]

theorem budgetNew_of_some (hold : s.budgets name = some old) (a : Answer) :
    budgetNew s name b a = (s, false) := by
  rw [budgetNew, hold]

/-- What the calls to `/budget` leave alone. -/
structure BudgetOnly (lite : LiteLLM) (name : String) (b : Budget γ) (s s' : Store γ) : Prop where
  tags : s'.tags = s.tags
  near : Near name s s'
  durable : Durable lite s' name b ↔ Durable lite s name b

theorem BudgetOnly.refl (s : Store γ) : BudgetOnly lite name b s s := ⟨rfl, .refl name s, Iff.rfl⟩

theorem budgetOnly_update (a : Answer) :
    BudgetOnly lite name b s (budgetUpdate lite s name b a).1 := by
  cases hold : s.budgets name with
  | none =>
    rw [budgetUpdate_of_none hold]
    exact .refl s
  | some old =>
    rw [budgetUpdate_of_some hold]
    dsimp only
    split
    · exact ⟨rfl, near_setBudget s name _, durable_updated hold⟩
    · exact .refl s

theorem budgetOnly_new (a : Answer) : BudgetOnly lite name b s (budgetNew s name b a).1 := by
  cases hold : s.budgets name with
  | some old =>
    rw [budgetNew_of_some hold]
    exact .refl s
  | none =>
    rw [budgetNew_of_none hold]
    dsimp only
    split
    · exact ⟨rfl, near_setBudget s name b,
        iff_of_true durable_setBudget_self (durable_of_none hold)⟩
    · exact .refl s

theorem BudgetOnly.trans {s'' : Store γ} (h : BudgetOnly lite name b s s')
    (h' : BudgetOnly lite name b s' s'') : BudgetOnly lite name b s s'' :=
  ⟨h'.tags.trans h.tags, h.near.trans h'.near, h'.durable.trans h.durable⟩

theorem budgetOnly_write : BudgetOnly lite name b s (writeBudget lite name b p s).1 := by
  rw [writeBudget]
  split
  · exact budgetOnly_new p.new
  · exact (budgetOnly_new p.new).trans (budgetOnly_update p.update)

/-- A write that is taken for a success has written the budget exactly if it was there before or the
new one was created, and no duration is left behind. -/
theorem writeBudget_iff (h : (writeBudget lite name b p s).2 = true) :
    (writeBudget lite name b p s).1.budgets name = some b ↔
      (s.budgets name = none → p.new.done = true) ∧ Durable lite s name b := by
  cases hold : s.budgets name with
  | some old =>
    have hw : writeBudget lite name b p s = budgetUpdate lite s name b p.update := by
      simp [writeBudget, budgetNew_of_some hold]
    rw [hw, budgetUpdate_of_some hold] at h ⊢
    have hok : p.update = .ok := of_decide_eq_true h
    simp [hok, Answer.done, updated_eq_iff, Durable, hold]
  | none =>
    have hd : Durable lite s name b := durable_of_none hold
    by_cases hdone : p.new.done = true
    · refine iff_of_true ?_ ⟨fun _ => hdone, hd⟩
      by_cases hok : p.new = .ok
      · simp [writeBudget, budgetNew_of_none hold, hok, Answer.done]
      · have hcreated : (s.setBudget name b).budgets name = some b := setBudget_budgets
        have hsame : updated lite b b = b := updated_eq_iff.mpr fun _ hd => hd
        simp only [writeBudget, budgetNew_of_none hold, hok, hdone, decide_false, if_true,
          Bool.false_eq_true, if_false, budgetUpdate_of_some hcreated, hsame]
        split <;> simp
    · refine iff_of_false ?_ fun hc => hdone (hc.1 rfl)
      have hok : p.new ≠ .ok := by
        intro hok
        exact hdone (by rw [hok]; rfl)
      simp [writeBudget, budgetNew_of_none hold, hok, hdone, budgetUpdate_of_none hold, hold]

end Budgets

section Tags

variable {tagged : Bool}

theorem near_delete (a : Answer) : Near name s (deleteTagByName s name a).1 := by
  rw [deleteTagByName]
  dsimp only
  split
  · exact near_setTag s name none
  · exact .refl name s

theorem delete_budgets (a : Answer) : (deleteTagByName s name a).1.budgets = s.budgets := by
  rw [deleteTagByName]
  dsimp only
  split <;> rfl

theorem tagNew_spec (lite : LiteLLM) (s : Store γ) (name : String) (a : Answer) :
    Near name s (tagNew lite s name a).1 ∧ (tagNew lite s name a).1.budgets = s.budgets ∧
      ((tagNew lite s name a).2 = true → (tagNew lite s name a).1.tags name =
        some (some name)) := by
  rw [tagNew]
  split
  · exact ⟨.refl name s, rfl, nofun⟩
  · dsimp only
    split
    · exact ⟨near_setTag s name _, rfl, fun _ => setTag_tags⟩
    · rename_i hdone
      refine ⟨.refl name s, rfl, fun hok => absurd ?_ hdone⟩
      rw [of_decide_eq_true hok]
      rfl

theorem rebindTag_spec (lite : LiteLLM) (name : String) (p : Pattern) (tagged : Bool)
    (s : Store γ) :
    Near name s (rebindTag lite name p tagged s).1 ∧
      (rebindTag lite name p tagged s).1.budgets = s.budgets ∧
      ((rebindTag lite name p tagged s).2 = .ok () →
        (rebindTag lite name p tagged s).1.tags name = some (some name)) := by
  have hdel : Near name s (if tagged then deleteTagByName s name p.delete else (s, true)).1 ∧
      (if tagged then deleteTagByName s name p.delete else (s, true)).1.budgets = s.budgets := by
    split
    · exact ⟨near_delete p.delete, delete_budgets p.delete⟩
    · exact ⟨.refl name s, rfl⟩
  rw [rebindTag]
  generalize (if tagged then deleteTagByName s name p.delete else (s, true)) = deleted at hdel ⊢
  dsimp only
  split
  · exact ⟨hdel.1, hdel.2, nofun⟩
  · obtain ⟨hnear, hbudgets, hbound⟩ := tagNew_spec lite deleted.1 name p.bind
    refine ⟨hdel.1.trans hnear, hbudgets.trans hdel.2, fun hok => hbound ?_⟩
    dsimp only at hok
    split at hok
    · assumption
    · nomatch hok

theorem rebindTag_allOk (ht : tagged = (s.tags name).isSome) (hb : (s.budgets name).isSome = true) :
    (rebindTag lite name allOk tagged s).2 = .ok () := by
  have hnone : s.budgets name ≠ none := Option.isSome_iff_ne_none.mp hb
  cases htag : s.tags name with
  | none => simp [rebindTag, tagNew, ht, htag, hnone, allOk]
  | some id =>
    simp [rebindTag, deleteTagByName, tagNew, ht, htag, hnone, allOk, Answer.done]

end Tags

section Upsert

variable {info : Option (Option (String × Budget γ))} {old : Budget γ}

theorem bound_iff : bound name info = some old ↔ info = some (some (name, old)) := by
  rcases info with _ | _ | ⟨id, old'⟩
  · simp [bound]
  · simp [bound]
  · by_cases hid : id = name <;> simp [bound, hid]

theorem tagInfo_bound (h : tagInfo s name p.info = some info) (hb : bound name info = some old) :
    s.tags name = some (some name) ∧ s.budgets name = some old := by
  rw [bound_iff.mp hb] at h
  cases ha : p.info with
  | ok =>
    simp only [tagInfo, ha, Option.some.injEq, Option.map_eq_some_iff, Option.bind_eq_some_iff,
      Prod.mk.injEq] at h
    obtain ⟨id, htag, id', rfl, old', hold, rfl, rfl⟩ := h
    exact ⟨htag, hold⟩
  | _ => simp [tagInfo, ha] at h

variable [DecidableEq γ]

theorem upsert_unread (hinfo : tagInfo s name p.info = none) :
    upsertTagBudget lite name b p s = (s, .error ("litellm: read tag " ++ name)) := by
  rw [upsertTagBudget, hinfo]

theorem upsert_bound (hinfo : tagInfo s name p.info = some info) (hb : bound name info = some old) :
    upsertTagBudget lite name b p s =
      if old = b then (s, .ok ())
      else ((budgetUpdate lite s name b p.update).1,
        if (budgetUpdate lite s name b p.update).2 then .ok ()
        else .error ("litellm: update budget " ++ name)) := by
  simp only [upsertTagBudget, hinfo, hb]

theorem upsert_unbound (hinfo : tagInfo s name p.info = some info) (hb : bound name info = none) :
    upsertTagBudget lite name b p s =
      if !(writeBudget lite name b p s).2 then
        ((writeBudget lite name b p s).1, .error ("litellm: upsert budget " ++ name))
      else rebindTag lite name p info.isSome (writeBudget lite name b p s).1 := by
  simp only [upsertTagBudget, hinfo, hb]

variable (lite s name b p) in
theorem upsert_spec : Near name s (upsertTagBudget lite name b p s).1 ∧
    (Durable lite (upsertTagBudget lite name b p s).1 name b ↔ Durable lite s name b) := by
  cases hinfo : tagInfo s name p.info with
  | none =>
    rw [upsert_unread hinfo]
    exact ⟨.refl name s, Iff.rfl⟩
  | some info =>
    cases hb : bound name info with
    | some old =>
      have hu : BudgetOnly lite name b s (budgetUpdate lite s name b p.update).1 :=
        budgetOnly_update p.update
      rw [upsert_bound hinfo hb]
      split
      · exact ⟨.refl name s, Iff.rfl⟩
      · exact ⟨hu.near, hu.durable⟩
    | none =>
      have hw : BudgetOnly lite name b s (writeBudget lite name b p s).1 := budgetOnly_write
      rw [upsert_unbound hinfo hb]
      split
      · exact ⟨hw.near, hw.durable⟩
      · obtain ⟨hnear, hbudgets, -⟩ :=
          rebindTag_spec lite name p info.isSome (writeBudget lite name b p s).1
        refine ⟨hw.near.trans hnear, ?_⟩
        rw [← hw.durable, Durable, Durable, hbudgets]

/-- A write that reports success is in force exactly if a missing budget was created by the first
call, and no duration is left behind. -/
theorem upsert_ok_iff (h : (upsertTagBudget lite name b p s).2 = .ok ()) :
    (upsertTagBudget lite name b p s).1 = s.target name b ↔
      (s.budgets name = none → p.new.done = true) ∧ Durable lite s name b := by
  cases hinfo : tagInfo s name p.info with
  | none =>
    rw [upsert_unread hinfo] at h
    nomatch h
  | some info =>
    cases hb : bound name info with
    | some old =>
      obtain ⟨htag, hold⟩ := tagInfo_bound hinfo hb
      rw [upsert_bound hinfo hb] at h ⊢
      by_cases heq : old = b
      · subst heq
        rw [if_pos rfl]
        refine iff_of_true (target_eq_self hold htag).symm
          ⟨by simp [hold], fun _ hd old' hold' => ?_⟩
        cases hold.symm.trans hold'
        exact hd
      · have hu : BudgetOnly lite name b s (budgetUpdate lite s name b p.update).1 :=
          budgetOnly_update p.update
        have htag' : (budgetUpdate lite s name b p.update).1.tags name = some (some name) := by
          rw [hu.tags, htag]
        rw [if_neg heq] at h ⊢
        rw [hu.near.eq_target_iff htag']
        rw [budgetUpdate_of_some hold] at h ⊢
        have hok : p.update = .ok := by
          by_contra hne
          simp [hne] at h
        simp [hok, Answer.done, updated_eq_iff, Durable, hold]
    | none =>
      have hw : BudgetOnly lite name b s (writeBudget lite name b p s).1 := budgetOnly_write
      obtain ⟨hnear, hbudgets, hbound⟩ :=
        rebindTag_spec lite name p info.isSome (writeBudget lite name b p s).1
      rw [upsert_unbound hinfo hb] at h ⊢
      by_cases hwritten : (writeBudget lite name b p s).2 = true
      · rw [if_neg (by simp [hwritten])] at h ⊢
        rw [(hw.near.trans hnear).eq_target_iff (hbound h), hbudgets, writeBudget_iff hwritten]
      · rw [if_pos (by simpa using hwritten)] at h
        nomatch h

variable (lite s name b) in
omit [DecidableEq γ] in
theorem writeBudget_allOk : (writeBudget lite name b allOk s).2 = true ∧
    ((writeBudget lite name b allOk s).1.budgets name).isSome = true := by
  cases hold : s.budgets name with
  | none => simp [writeBudget, budgetNew_of_none hold, allOk, Answer.done]
  | some old => simp [writeBudget, budgetNew_of_some hold, budgetUpdate_of_some hold, allOk,
      Answer.done]

theorem upsert_allOk : (upsertTagBudget lite name b allOk s).2 = .ok () := by
  have hinfo : tagInfo s name allOk.info = some ((s.tags name).map fun id =>
      id.bind fun id => (s.budgets id).map fun old => (id, old)) := rfl
  cases hb : bound name ((s.tags name).map fun id =>
      id.bind fun id => (s.budgets id).map fun old => (id, old)) with
  | some old =>
    rw [upsert_bound hinfo hb, budgetUpdate_of_some (tagInfo_bound hinfo hb).2]
    split
    · rfl
    · simp [allOk]
  | none =>
    obtain ⟨hwritten, hsome⟩ := writeBudget_allOk lite s name b
    have hw : BudgetOnly lite name b s (writeBudget lite name b allOk s).1 := budgetOnly_write
    rw [upsert_unbound hinfo hb, if_neg (by simp [hwritten])]
    refine rebindTag_allOk ?_ hsome
    rw [hw.tags, Option.isSome_map]

/-- A budget write that reports success is in force, and a retry without failures after an error
brings it into force, exactly if the first call creates a missing budget (for the first) and an
update leaves no old duration behind (for both). -/
theorem budget_in_force_iff (lite : LiteLLM) (s s' : Store γ) (name : String) (b : Budget γ)
    (p : Pattern) :
    (upsertTagBudget lite name b p s = (s', .ok ()) →
      (s' = s.target name b ↔ (s.budgets name = none → p.new.done = true) ∧
        Durable lite s name b)) ∧
    (∀ e, upsertTagBudget lite name b p s = (s', .error e) →
      ∃ s'', upsertTagBudget lite name b allOk s' = (s'', .ok ()) ∧
        (s'' = s.target name b ↔ Durable lite s name b)) := by
  obtain ⟨hnear, hdur⟩ := upsert_spec lite s name b p
  constructor
  · intro h
    have hok : (upsertTagBudget lite name b p s).2 = .ok () := by rw [h]
    have hiff := upsert_ok_iff hok
    rw [h] at hiff
    exact hiff
  · intro e h
    rw [h] at hnear hdur
    refine ⟨_, Prod.ext rfl upsert_allOk, ?_⟩
    rw [← hnear b, upsert_ok_iff upsert_allOk, hdur]
    exact and_iff_right fun _ => rfl

end Upsert

section Instances

def nothing : Store ℕ := ⟨fun _ => none, fun _ => none⟩

def monthly : Budget ℕ := ⟨10, "30d"⟩

/-- LiteLLM as the comments have it: a tag is bound to the budget it is given. -/
def asCommented : LiteLLM := ⟨true, false⟩

/-- A change of a budget, and a first one whose tag is bound by the retry only. -/
theorem budget_in_force_after_retry :
    (∃ s', upsertTagBudget asCommented "key:1" monthly allOk (nothing.target "key:1" ⟨5, "7d"⟩) =
      (s', .ok ()) ∧
      s' = (nothing.target "key:1" ⟨5, "7d"⟩).target "key:1" monthly) ∧
    ∃ s' s'', upsertTagBudget asCommented "key:1" monthly { allOk with bind := .fail } nothing =
        (s', .error "litellm: bind tag key:1") ∧
      upsertTagBudget asCommented "key:1" monthly allOk s' = (s'', .ok ()) ∧
        s'' = nothing.target "key:1" monthly := by
  constructor
  · exact ⟨_, rfl, ((budget_in_force_iff asCommented _ _ "key:1" monthly allOk).1 rfl).mpr
      ⟨nofun, nofun⟩⟩
  · obtain ⟨s'', hok, hiff⟩ := (budget_in_force_iff asCommented nothing _ "key:1" monthly
      { allOk with bind := .fail }).2 _ rfl
    exact ⟨_, s'', rfl, hok, hiff.mpr nofun⟩

/-- The first call fails, the second one updates a budget that is not there; and a budget without a
duration keeps the old one. -/
theorem budget_silently_missing :
    (∃ s', upsertTagBudget asCommented "key:1" monthly { allOk with new := .fail } nothing =
      (s', .ok ()) ∧
      s'.tags "key:1" = some (some "key:1") ∧ s'.budgets "key:1" = none) ∧
    ∃ s', upsertTagBudget asCommented "key:1" ⟨7, ""⟩ allOk (nothing.target "key:1" monthly) =
      (s', .ok ()) ∧
      s'.budgets "key:1" = some ⟨7, "30d"⟩ :=
  ⟨⟨_, rfl, rfl, rfl⟩, _, rfl, rfl⟩

end Instances

end AchProofs.Litellm.TagBudget
