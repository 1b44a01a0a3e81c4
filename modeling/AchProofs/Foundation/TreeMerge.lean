import AchProofs.Foundation.TreePath

namespace AchProofs.Foundation.KeyTree

variable {κ α : Type} [LinearOrder κ]

/-- Writes every cell of the second tree over the first. Two subtrees under one key are merged;
any other pair is settled in favour of the second tree. -/
def merge : KeyTree κ α → KeyTree κ α → KeyTree κ α
  | t, .nil => t
  | t, .leaf k a rest => (t.merge rest).insert k (.inl a)
  | t, .node k sub rest =>
    (t.merge rest).insert k (.inr (match t.find k with
      | some (.inr s) => s.merge sub
      | _ => sub))

def mergeValue : Option (Value κ α) → Value κ α → Value κ α
  | some (.inr s), .inr s' => .inr (s.merge s')
  | _, v => v

/-- No cell of the tree lies on the path, above it or below it. -/
def Misses : KeyTree κ α → List κ → Prop
  | _, [] => False
  | t, k :: p =>
    match t.find k with
    | none => True
    | some (.inl _) => False
    | some (.inr s) => s.Misses p

@[simp] theorem merge_nil (t : KeyTree κ α) : t.merge nil = t := by
  unfold merge
  rfl

theorem merge_cons (t : KeyTree κ α) (k : κ) (v : Value κ α) (r : KeyTree κ α) :
    t.merge (cons k v r) = (t.merge r).insert k (mergeValue (t.find k) v) := by
  cases v with
  | inl a =>
    cases h : t.find k with
    | none => rfl
    | some w => cases w <;> rfl
  | inr s =>
    simp only [cons, merge]
    cases h : t.find k with
    | none => rfl
    | some w => cases w <;> rfl

theorem find_merge (t u : KeyTree κ α) (k : κ) :
    (t.merge u).find k = match u.find k with
      | none => t.find k
      | some v => some (mergeValue (t.find k) v) := by
  induction u using consInduction with
  | nil => simp
  | cons c v u ih _ =>
    rw [merge_cons, find_insert, find_cons]
    by_cases hc : k = c
    · subst hc
      simp
    · simp only [hc, if_false, ih]

variable {t u : KeyTree κ α} {p : List κ}

theorem find_merge_of_none {k : κ} (h : u.find k = none) : (t.merge u).find k = t.find k := by
  rw [find_merge, h]

theorem find_merge_of_some {k : κ} {v : Value κ α} (h : u.find k = some v) :
    (t.merge u).find k = some (mergeValue (t.find k) v) := by
  rw [find_merge, h]

theorem mergeValue_none (v : Value κ α) : mergeValue none v = v := by
  cases v <;> rfl

theorem mergeValue_leaf (v : Option (Value κ α)) (a : α) : mergeValue v (.inl a) = .inl a := by
  rcases v with - | (b | s) <;> rfl

theorem child_merge (t u : KeyTree κ α) (k : κ) (s : KeyTree κ α) (h : u.find k = some (.inr s)) :
    (t.merge u).child k = (t.child k).merge s ∨
      ((∀ s', t.find k ≠ some (.inr s')) ∧ (t.merge u).child k = s) := by
  have hf := find_merge_of_some (t := t) h
  rcases ht : t.find k with - | w
  · rw [ht, mergeValue_none] at hf
    exact .inr ⟨by simp, child_of_find hf⟩
  · rw [ht] at hf
    cases w with
    | inl a => exact .inr ⟨by simp, child_of_find hf⟩
    | inr s' => exact .inl (by rw [child_of_find hf, child_of_find ht])

theorem ordered_merge (ht : t.Ordered) (hu : u.Ordered) : (t.merge u).Ordered := by
  induction u using consInduction generalizing t with
  | nil => simpa using ht
  | cons k v u ih ihs =>
    obtain ⟨_, hv, hu⟩ := (ordered_cons k v u).mp hu
    rw [merge_cons]
    refine ordered_insert ?_ (ih ht hu)
    rcases hf : t.find k with - | w
    · rwa [mergeValue_none]
    · cases w with
      | inl a => cases v <;> exact hv
      | inr s =>
        cases v with
        | inl b => exact hv
        | inr s' => exact ihs s' rfl (orderedValue_of_find ht hf) hv

theorem get_of_misses (h : t.Misses p) : t.get p = none := by
  induction p generalizing t with
  | nil => exact absurd h (by simp [Misses])
  | cons k p ih =>
    unfold Misses at h
    split at h
    · rename_i hf
      rw [get_congr (u := nil) (by simpa using hf), get_nil]
    · exact absurd h (by simp)
    · rename_i s hf
      have hp : p ≠ [] := by
        rintro rfl
        exact absurd h (by simp [Misses])
      rw [get_cons _ _ hp, child_of_find hf]
      exact ih h

theorem get_merge_of_misses (t : KeyTree κ α) (h : u.Misses p) : (t.merge u).get p = t.get p := by
  induction p generalizing t u with
  | nil => exact absurd h (by simp [Misses])
  | cons k p ih =>
    unfold Misses at h
    split at h
    · rename_i hf
      exact get_congr (find_merge_of_none hf) p
    · exact absurd h (by simp)
    · rename_i s hf
      have hp : p ≠ [] := by
        rintro rfl
        exact absurd h (by simp [Misses])
      rw [get_cons _ _ hp, get_cons _ _ hp]
      rcases child_merge t u k s hf with hc | ⟨hn, hc⟩
      · rw [hc, ih _ h]
      · obtain ⟨c, q, rfl⟩ := List.exists_cons_of_ne_nil hp
        rw [hc, child_eq_nil hn, get_nil, get_of_misses h]

theorem get_merge_of_get (t : KeyTree κ α) {v : Value κ α} (h : u.get p = some v) :
    (t.merge u).get p = some (mergeValue (t.get p) v) := by
  induction p generalizing t u with
  | nil =>
    cases h
    rfl
  | cons k p ih =>
    cases p with
    | nil => exact find_merge_of_some h
    | cons k' p =>
      rw [get_cons _ _ (List.cons_ne_nil _ _)] at h ⊢
      rw [get_cons t _ (List.cons_ne_nil _ _)]
      have hs : ∃ s, u.find k = some (.inr s) := by
        unfold child at h
        split at h
        · rename_i s hs
          exact ⟨s, hs⟩
        · rw [get_nil] at h
          exact absurd h (by simp)
      obtain ⟨s, hs⟩ := hs
      rw [child_of_find hs] at h
      rcases child_merge t u k s hs with hc | ⟨hn, hc⟩
      · rw [hc, ih _ h]
      · rw [hc, child_eq_nil hn, get_nil, mergeValue_none, h]

end AchProofs.Foundation.KeyTree
