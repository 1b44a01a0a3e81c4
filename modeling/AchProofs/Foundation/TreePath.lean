import AchProofs.Foundation.Tree

namespace AchProofs.Foundation

def Apart {κ : Type} (p q : List κ) : Prop := ¬ p <+: q ∧ ¬ q <+: p

instance {κ : Type} [DecidableEq κ] (p q : List κ) : Decidable (Apart p q) :=
  inferInstanceAs (Decidable (_ ∧ _))

namespace Apart

variable {κ : Type}

variable {p q : List κ} {k : κ}

theorem symm (h : Apart p q) : Apart q p := ⟨h.2, h.1⟩

@[simp] theorem nil_left (q : List κ) : ¬ Apart [] q := fun h => h.1 List.nil_prefix

@[simp] theorem nil_right (p : List κ) : ¬ Apart p [] := fun h => h.2 List.nil_prefix

@[simp] theorem cons_cons (a b : κ) (p q : List κ) :
    Apart (a :: p) (b :: q) ↔ a ≠ b ∨ Apart p q := by
  simp only [Apart, List.cons_prefix_cons]
  tauto

end Apart

namespace KeyTree

variable {κ α : Type} [LinearOrder κ]

/-- The subtree under a key; a scalar or a missing key counts as an empty tree. -/
def child (t : KeyTree κ α) (k : κ) : KeyTree κ α :=
  match t.find k with
  | some (.inr s) => s
  | _ => .nil

def get : KeyTree κ α → List κ → Option (Value κ α)
  | t, [] => some (.inr t)
  | t, [k] => t.find k
  | t, k :: k' :: p => (t.child k).get (k' :: p)

def set : KeyTree κ α → List κ → Value κ α → KeyTree κ α
  | t, [], _ => t
  | t, [k], v => t.insert k v
  | t, k :: k' :: p, v => t.insert k (.inr ((t.child k).set (k' :: p) v))

def remove : KeyTree κ α → List κ → KeyTree κ α
  | t, [] => t
  | t, [k] => t.erase k
  | t, k :: k' :: p =>
    match t.find k with
    | some (.inr s) => t.insert k (.inr (s.remove (k' :: p)))
    | _ => t

/-- Removes the listed paths in order for as long as each one holds an empty subtree. -/
def removeEmpties : KeyTree κ α → List (List κ) → KeyTree κ α
  | t, [] => t
  | t, a :: as =>
    match t.get a with
    | some (.inr .nil) => (t.remove a).removeEmpties as
    | _ => t

variable {t : KeyTree κ α}

theorem child_of_find {s : KeyTree κ α} (h : t.find k = some (.inr s)) : t.child k = s := by
  simp [child, h]

theorem child_eq_nil (h : ∀ s, t.find k ≠ some (.inr s)) : t.child k = nil := by
  unfold child
  split
  · rename_i s hs
    exact absurd hs (h s)
  · rfl

theorem child_insert (t : KeyTree κ α) (k k' : κ) (s : KeyTree κ α) :
    (t.insert k (.inr s)).child k' = if k' = k then s else t.child k' := by
  by_cases hk : k' = k <;> simp [child, find_insert, hk]

theorem child_erase_self (t : KeyTree κ α) (k : κ) : (t.erase k).child k = nil := by
  simp [child, find_erase]

theorem child_congr {u : KeyTree κ α} (h : t.find k = u.find k) : t.child k = u.child k := by
  simp [child, h]

@[simp] theorem get_singleton (t : KeyTree κ α) (k : κ) : t.get [k] = t.find k := rfl

theorem get_cons (t : KeyTree κ α) (k : κ) (hp : p ≠ []) : t.get (k :: p) = (t.child k).get p := by
  cases p with
  | nil => exact absurd rfl hp
  | cons k' p => rfl

theorem get_nil (k : κ) (p : List κ) : (nil : KeyTree κ α).get (k :: p) = none := by
  induction p generalizing k with
  | nil => rfl
  | cons k' p ih =>
    rw [get_cons _ _ (List.cons_ne_nil _ _)]
    exact ih k'

theorem get_congr {u : KeyTree κ α} (h : t.find k = u.find k) (p : List κ) :
    t.get (k :: p) = u.get (k :: p) := by
  cases p with
  | nil => exact h
  | cons k' p =>
    rw [get_cons _ _ (List.cons_ne_nil _ _), get_cons _ _ (List.cons_ne_nil _ _), child_congr h]

theorem get_set_self (t : KeyTree κ α) (hp : p ≠ []) (v : Value κ α) :
    (t.set p v).get p = some v := by
  induction p generalizing t with
  | nil => exact absurd rfl hp
  | cons k p ih =>
    cases p with
    | nil => simp [set, find_insert]
    | cons k' p =>
      rw [get_cons _ _ (List.cons_ne_nil _ _), set, child_insert, if_pos rfl]
      exact ih (t.child k) (List.cons_ne_nil _ _)

theorem get_set_of_apart (t : KeyTree κ α) (h : Apart p q) (v : Value κ α) :
    (t.set p v).get q = t.get q := by
  induction p generalizing t q with
  | nil => exact absurd h (Apart.nil_left q)
  | cons k p ih =>
    cases q with
    | nil => exact absurd h (Apart.nil_right _)
    | cons c q =>
      by_cases hkc : k = c
      · subst c
        have hpq : Apart p q := by simpa using h
        cases p with
        | nil => exact absurd hpq (Apart.nil_left q)
        | cons k' p =>
          have hq : q ≠ [] := fun hq => Apart.nil_right _ (hq ▸ hpq)
          rw [get_cons _ _ hq, get_cons _ _ hq, set, child_insert, if_pos rfl]
          exact ih (t.child k) hpq
      · refine get_congr ?_ q
        cases p <;> simp [set, find_insert, Ne.symm hkc]

theorem get_remove_of_apart (t : KeyTree κ α) (h : Apart p q) : (t.remove p).get q = t.get q := by
  induction p generalizing t q with
  | nil => exact absurd h (Apart.nil_left q)
  | cons k p ih =>
    cases q with
    | nil => exact absurd h (Apart.nil_right _)
    | cons c q =>
      by_cases hkc : k = c
      · subst c
        have hpq : Apart p q := by simpa using h
        cases p with
        | nil => exact absurd hpq (Apart.nil_left q)
        | cons k' p =>
          have hq : q ≠ [] := fun hq => Apart.nil_right _ (hq ▸ hpq)
          unfold remove
          split
          · rename_i s hs
            rw [get_cons _ _ hq, get_cons _ _ hq, child_insert, if_pos rfl, child_of_find hs]
            exact ih s hpq
          · rfl
      · refine get_congr ?_ q
        cases p with
        | nil => simp [remove, find_erase, Ne.symm hkc]
        | cons k' p =>
          unfold remove
          split
          · simp [find_insert, Ne.symm hkc]
          · rfl

theorem get_remove_below (t : KeyTree κ α) (hp : p ≠ []) (h : p <+: q) :
    (t.remove p).get q = none := by
  induction p generalizing t q with
  | nil => exact absurd rfl hp
  | cons k p ih =>
    cases q with
    | nil => simp at h
    | cons c q =>
      obtain ⟨rfl, hpq⟩ := List.cons_prefix_cons.mp h
      cases p with
      | nil =>
        cases q with
        | nil => simp [remove, find_erase]
        | cons c q =>
          rw [get_cons _ _ (List.cons_ne_nil _ _), remove, child_erase_self]
          exact get_nil c q
      | cons k' p =>
        have hq : q ≠ [] := by
          rintro rfl
          simp at hpq
        rw [get_cons _ _ hq]
        unfold remove
        split
        · rename_i s hs
          rw [child_insert, if_pos rfl]
          exact ih s (List.cons_ne_nil _ _) hpq
        · rename_i hn
          rw [child_eq_nil hn]
          cases q with
          | nil => exact absurd rfl hq
          | cons c q => exact get_nil c q

theorem get_remove_above (t : KeyTree κ α) (h : q <+: p) (hne : q ≠ p) :
    (t.remove p).get q = none ↔ t.get q = none := by
  induction p generalizing t q with
  | nil => exact absurd (List.prefix_nil.mp h) hne
  | cons k p ih =>
    cases q with
    | nil => simp [get]
    | cons c q =>
      obtain ⟨rfl, hqp⟩ := List.cons_prefix_cons.mp h
      cases p with
      | nil => exact absurd (by rw [List.prefix_nil.mp hqp]) hne
      | cons k' p =>
        unfold remove
        split
        · rename_i s hs
          by_cases hq : q = []
          · subst hq
            simp [find_insert, hs]
          · rw [get_cons _ _ hq, get_cons _ _ hq, child_insert, if_pos rfl, child_of_find hs]
            exact ih s hqp (fun heq => hne (by rw [heq]))
        · rfl

theorem find_remove_leaf (t : KeyTree κ α) (k k' : κ) (hp : p ≠ []) (a : α) :
    (t.remove (k :: p)).find k' = some (.inl a) ↔ t.find k' = some (.inl a) := by
  obtain ⟨c, p, rfl⟩ := List.exists_cons_of_ne_nil hp
  unfold remove
  split
  · rename_i s hs
    by_cases hk : k' = k
    · subst hk
      simp [find_insert, hs]
    · simp [find_insert, hk]
  · rfl

theorem get_append (t : KeyTree κ α) (p : List κ) (hq : q ≠ []) :
    t.get (p ++ q) = match t.get p with
      | some (.inr s) => s.get q
      | _ => none := by
  induction p generalizing t with
  | nil => rfl
  | cons k p ih =>
    rw [List.cons_append, get_cons _ _ (by simp [hq])]
    cases p with
    | nil =>
      obtain ⟨c, q, rfl⟩ := List.exists_cons_of_ne_nil hq
      unfold child
      simp only [get_singleton, List.nil_append]
      split
      · rfl
      · exact get_nil c q
    | cons k' p => rw [ih, get_cons _ _ (List.cons_ne_nil _ _)]

theorem get_removeEmpties (t : KeyTree κ α) {as : List (List κ)} (hne : ∀ a ∈ as, a ≠ [])
    (h : ∀ a ∈ as, ¬ q <+: a) : (t.removeEmpties as).get q = t.get q := by
  induction as generalizing t with
  | nil => rfl
  | cons a as ih =>
    unfold removeEmpties
    split
    · rename_i hempty
      rw [ih _ (fun b hb => hne b (by simp [hb])) (fun b hb => h b (by simp [hb]))]
      by_cases haq : a <+: q
      · obtain ⟨r, rfl⟩ := haq
        have hr : r ≠ [] := by
          rintro rfl
          exact h a (by simp) (by simp)
        rw [get_remove_below t (hne a (by simp)) (List.prefix_append a r),
          get_append t a hr, hempty]
        obtain ⟨c, r, rfl⟩ := List.exists_cons_of_ne_nil hr
        exact (get_nil c r).symm
      · exact get_remove_of_apart t ⟨haq, h a (by simp)⟩
    · rfl

theorem ordered_child (ht : t.Ordered) (k : κ) : (t.child k).Ordered := by
  unfold child
  split
  · rename_i s hs
    exact orderedValue_of_find ht hs
  · trivial

theorem ordered_set {v : Value κ α} (hv : OrderedValue v) (ht : t.Ordered) :
    (t.set p v).Ordered := by
  induction p generalizing t with
  | nil => exact ht
  | cons k p ih =>
    cases p with
    | nil => exact ordered_insert hv ht
    | cons k' p => exact ordered_insert_node ht k (ih (ordered_child ht k))

theorem ordered_remove (ht : t.Ordered) : (t.remove p).Ordered := by
  induction p generalizing t with
  | nil => exact ht
  | cons k p ih =>
    cases p with
    | nil => exact ordered_erase ht
    | cons k' p =>
      unfold remove
      split
      · rename_i s hs
        exact ordered_insert_node ht k (ih (orderedValue_of_find ht hs))
      · exact ht

theorem ordered_removeEmpties {as : List (List κ)} (ht : t.Ordered) :
    (t.removeEmpties as).Ordered := by
  induction as generalizing t with
  | nil => exact ht
  | cons a as ih =>
    unfold removeEmpties
    split
    · exact ih (ordered_remove ht)
    · exact ht

theorem orderedValue_of_get {v : Value κ α} (ht : t.Ordered) (h : t.get p = some v) :
    OrderedValue v := by
  induction p generalizing t with
  | nil =>
    cases h
    exact ht
  | cons k p ih =>
    cases p with
    | nil => exact orderedValue_of_find ht h
    | cons k' p => exact ih (ordered_child ht k) h

end KeyTree

end AchProofs.Foundation
