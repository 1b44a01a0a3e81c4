import AchProofs.Foundation.TreeMerge

namespace AchProofs.Foundation.KeyTree

section Paths

variable {κ α : Type} [LinearOrder κ] {q : List κ}

theorem misses_or_hit (t : KeyTree κ α) (hq : q ≠ []) :
    t.Misses q ∨ (∃ v, t.get q = some v) ∨
      ∃ r a s, s ≠ [] ∧ q = r ++ s ∧ r ≠ [] ∧ t.get r = some (.inl a) := by
  induction q generalizing t with
  | nil => exact absurd rfl hq
  | cons k q ih =>
    rcases hf : t.find k with - | v
    · exact .inl (by simp [Misses, hf])
    by_cases hn : q = []
    · subst hn
      exact .inr (.inl ⟨v, hf⟩)
    cases v with
    | inl a => exact .inr (.inr ⟨[k], a, q, hn, rfl, by simp, hf⟩)
    | inr s =>
      obtain hm | ⟨v, hv⟩ | ⟨r, a, q, hne, rfl, hr, ha⟩ := ih s hn
      · exact .inl (by simpa [Misses, hf] using hm)
      · exact .inr (.inl ⟨v, by rw [get_cons _ _ hn, child_of_find hf, hv]⟩)
      · refine .inr (.inr ⟨k :: r, a, q, hne, rfl, by simp, ?_⟩)
        rw [get_cons _ _ hr, child_of_find hf, ha]

theorem get_below_scalar {t : KeyTree κ α} {a : α} (h : t.get q = some (.inl a)) {r : List κ}
    (hr : r ≠ []) : t.get (q ++ r) = none := by
  rw [get_append _ _ hr, h]

theorem insert_of_find {t : KeyTree κ α} {k : κ} {v : Value κ α} (ht : t.Ordered)
    (h : t.find k = some v) : t.insert k v = t := by
  refine ext_of_find (ordered_insert (orderedValue_of_find ht h) ht) ht fun k' => ?_
  rw [find_insert]
  split_ifs with hk
  · rw [hk, h]
  · rfl

/-- Writing a value where it is already leaves a tree as it is. -/
theorem set_of_get {t : KeyTree κ α} {v : Value κ α} (ht : t.Ordered) (hq : q ≠ [])
    (h : t.get q = some v) : t.set q v = t := by
  induction q generalizing t with
  | nil => exact absurd rfl hq
  | cons k q ih =>
    cases q with
    | nil => exact insert_of_find ht h
    | cons k' q =>
      rw [get_cons _ _ (List.cons_ne_nil _ _)] at h
      obtain ⟨s, hs⟩ : ∃ s, t.find k = some (.inr s) := by
        by_contra hno
        rw [child_eq_nil fun s hs => hno ⟨s, hs⟩, get_nil] at h
        cases h
      rw [child_of_find hs] at h
      rw [set, child_of_find hs, ih (orderedValue_of_find ht hs) (List.cons_ne_nil _ _) h,
        insert_of_find ht hs]

theorem get_set_above {t s : KeyTree κ α} {p r : List κ} (v : Value κ α) (hr : r ≠ [])
    (h : t.get p = some (.inr s)) : (t.set (p ++ r) v).get p = some (.inr (s.set r v)) := by
  induction p generalizing t with
  | nil =>
    cases h
    rfl
  | cons k p ih =>
    obtain ⟨c, q, hcq⟩ : ∃ c q, p ++ r = c :: q :=
      List.exists_cons_of_ne_nil fun hnil => hr (List.append_eq_nil_iff.mp hnil).2
    have hset : t.set (k :: (p ++ r)) v = t.insert k (.inr ((t.child k).set (p ++ r) v)) := by
      rw [hcq]
      rfl
    rw [List.cons_append, hset]
    cases p with
    | nil =>
      have hs : t.find k = some (.inr s) := h
      rw [get_singleton, find_insert, if_pos rfl, child_of_find hs]
      rfl
    | cons k' p =>
      rw [get_cons _ _ (List.cons_ne_nil _ _)] at h
      rw [get_cons _ _ (List.cons_ne_nil _ _), child_insert, if_pos rfl]
      exact ih h

end Paths

section Map

variable {κ α β : Type}

def map (f : α → β) : KeyTree κ α → KeyTree κ β
  | .nil => .nil
  | .leaf k a rest => .leaf k (f a) (rest.map f)
  | .node k sub rest => .node k (sub.map f) (rest.map f)

def mapValue (f : α → β) (v : Value κ α) : Value κ β := Sum.map f (map f) v

theorem map_cons (f : α → β) (k : κ) (v : Value κ α) (t : KeyTree κ α) :
    (cons k v t).map f = cons k (mapValue f v) (t.map f) := by
  cases v <;> rfl

theorem keys_map (f : α → β) (t : KeyTree κ α) : (t.map f).keys = t.keys := by
  induction t using consInduction with
  | nil => rfl
  | cons k v t ih _ => rw [map_cons, keys_cons, keys_cons, ih]

variable [LinearOrder κ]

theorem find_map (f : α → β) (t : KeyTree κ α) (k : κ) :
    (t.map f).find k = (t.find k).map (mapValue f) := by
  induction t using consInduction with
  | nil => rfl
  | cons c v t ih _ =>
    rw [map_cons, find_cons, find_cons, ih]
    split <;> rfl

theorem child_map (f : α → β) (t : KeyTree κ α) (k : κ) :
    (t.map f).child k = (t.child k).map f := by
  rw [child, child, find_map]
  rcases t.find k with - | (a | s) <;> rfl

theorem get_map (f : α → β) (t : KeyTree κ α) (p : List κ) :
    (t.map f).get p = (t.get p).map (mapValue f) := by
  induction p generalizing t with
  | nil => rfl
  | cons k p ih =>
    cases p with
    | nil => exact find_map f t k
    | cons k' p =>
      rw [get_cons _ _ (List.cons_ne_nil _ _), get_cons _ _ (List.cons_ne_nil _ _), child_map, ih]

theorem ordered_map (f : α → β) {t : KeyTree κ α} (ht : t.Ordered) : (t.map f).Ordered := by
  induction t using consInduction with
  | nil => exact ordered_nil
  | cons k v t ih ihs =>
    obtain ⟨hk, hv, ht⟩ := (ordered_cons k v t).mp ht
    rw [map_cons, ordered_cons, keys_map]
    refine ⟨hk, ?_, ih ht⟩
    cases v with
    | inl a => trivial
    | inr s => exact ihs s rfl hv

theorem misses_map (f : α → β) {t : KeyTree κ α} {p : List κ} (h : t.Misses p) :
    (t.map f).Misses p := by
  induction p generalizing t with
  | nil => exact h
  | cons k p ih =>
    unfold Misses at h ⊢
    rw [find_map]
    rcases hf : t.find k with - | (a | s)
    · trivial
    · rw [hf] at h
      exact h
    · rw [hf] at h
      exact ih h

end Map

section Alike

variable {κ α : Type}

/-- Nothing on both sides, the same scalar, or a subtree on both. -/
def Alike : Option (Value κ α) → Option (Value κ α) → Prop
  | none, none => True
  | some (.inl a), some (.inl b) => a = b
  | some (.inr _), some (.inr _) => True
  | _, _ => False

theorem Alike.of_eq {v w : Option (Value κ α)} (h : v = w) : Alike v w := by
  subst h
  rcases v with - | (a | s)
  · trivial
  · exact rfl
  · trivial

theorem Alike.eq {v w : Option (Value κ α)} (h : Alike v w)
    (hsub : ∀ s s', v = some (.inr s) → w = some (.inr s') → s = s') : v = w := by
  rcases v with - | (a | s)
  · rcases w with - | (b | s')
    · rfl
    · exact h.elim
    · exact h.elim
  · rcases w with - | (b | s')
    · exact h.elim
    · rw [show a = b from h]
    · exact h.elim
  · rcases w with - | (b | s')
    · exact h.elim
    · exact h.elim
    · rw [hsub s s' rfl rfl]

variable [LinearOrder κ] {t u : KeyTree κ α}

theorem childInduction {motive : KeyTree κ α → Prop}
    (step : ∀ t : KeyTree κ α, (∀ k s, t.find k = some (.inr s) → motive s) → motive t)
    (t : KeyTree κ α) : motive t := by
  have hbelow : ∀ k s, t.find k = some (.inr s) → motive s := by
    induction t using consInduction with
    | nil => simp
    | cons c v t ih ihs =>
      intro k s hf
      rw [find_cons] at hf
      split at hf
      · have hv := Option.some.inj hf
        subst hv
        exact step s (ihs s rfl)
      · exact ih k s hf
  exact step t hbelow

/-- Ordered trees that are alike at every path are the same tree. -/
theorem ext_of_alike (ht : t.Ordered) (hu : u.Ordered)
    (h : ∀ p, p ≠ [] → Alike (t.get p) (u.get p)) : t = u := by
  induction t using childInduction generalizing u with
  | step t ih =>
    refine ext_of_find ht hu fun k => (h [k] (List.cons_ne_nil _ _)).eq fun s s' hft hfu => ?_
    rw [get_singleton] at hft hfu
    refine ih k s hft (orderedValue_of_find ht hft) (orderedValue_of_find hu hfu) fun p hp => ?_
    have hkp := h (k :: p) (List.cons_ne_nil _ _)
    rwa [get_cons _ _ hp, get_cons _ _ hp, child_of_find hft, child_of_find hfu] at hkp

theorem get_eq_of_alike (ht : t.Ordered) (hu : u.Ordered) {p : List κ}
    (h : ∀ q, Alike (t.get (p ++ q)) (u.get (p ++ q))) : t.get p = u.get p := by
  have hp := h []
  rw [List.append_nil] at hp
  refine hp.eq fun s s' hft hfu => ?_
  refine ext_of_alike (orderedValue_of_get ht hft) (orderedValue_of_get hu hfu) fun q hq => ?_
  have hpq := h q
  rwa [get_append _ _ hq, get_append _ _ hq, hft, hfu] at hpq

end Alike

section Within

variable {κ α : Type} [LinearOrder κ] {t u : KeyTree κ α}

/-- Wherever both trees have a subtree, the second has every key of the first. -/
def Within (t u : KeyTree κ α) : Prop :=
  ∀ p s s', t.get p = some (.inr s) → u.get p = some (.inr s') → ∀ k ∈ s.keys, k ∈ s'.keys

theorem Within.find_none (h : t.Within u) {k : κ} (hk : u.find k = none) : t.find k = none := by
  by_contra hne
  exact (mem_keys_iff k u).mp (h [] t u rfl rfl k ((mem_keys_iff k t).mpr hne)) hk

theorem Within.child (h : t.Within u) {k : κ} {s s' : KeyTree κ α} (hs : t.find k = some (.inr s))
    (hs' : u.find k = some (.inr s')) : s.Within s' := by
  intro p x x' hx hx'
  refine h (k :: p) x x' ?_ ?_
  · cases p with
    | nil => rw [get_singleton, hs]; exact hx
    | cons c p => rw [get_cons _ _ (List.cons_ne_nil _ _), child_of_find hs]; exact hx
  · cases p with
    | nil => rw [get_singleton, hs']; exact hx'
    | cons c p => rw [get_cons _ _ (List.cons_ne_nil _ _), child_of_find hs']; exact hx'

theorem Within.refl (t : KeyTree κ α) : t.Within t := by
  intro p s s' hs hs' k hk
  cases hs.symm.trans hs'
  exact hk

/-- A tree is written over by another without a trace exactly if it lies within it. -/
theorem merge_eq_right_iff (ht : t.Ordered) (hu : u.Ordered) : t.merge u = u ↔ t.Within u := by
  constructor
  · intro h p s s' hs hs' k hk
    have hm := get_merge_of_get t hs'
    rw [h, hs', hs] at hm
    have hsub : s' = s.merge s' := Sum.inr.inj (Option.some.inj hm)
    by_contra hno
    have hnone : s'.find k = none := not_not.mp fun hne => hno ((mem_keys_iff k s').mpr hne)
    rw [hsub, find_merge_of_none (not_not.mp fun hne => hno ((mem_keys_iff k s').mpr hne))] at hnone
    exact (mem_keys_iff k s).mp hk hnone
  · intro h
    induction t using childInduction generalizing u with
    | step t ih =>
      refine ext_of_find (ordered_merge ht hu) hu fun k => ?_
      rcases hu' : u.find k with - | (a | s')
      · rw [find_merge_of_none hu', h.find_none hu']
      · rw [find_merge_of_some hu', mergeValue_leaf]
      · rw [find_merge_of_some hu']
        rcases ht' : t.find k with - | (b | s)
        · rfl
        · rfl
        · have hs : s.merge s' = s' :=
            ih k s ht' (orderedValue_of_find ht ht') (orderedValue_of_find hu hu') (h.child ht' hu')
          exact congrArg (fun x => some (Sum.inr x)) hs

theorem mergeValue_eq_iff {o : Option (Value κ α)} {v : Value κ α}
    (ho : ∀ w, o = some w → OrderedValue w)
    (hv : OrderedValue v) :
    mergeValue o v = v ↔ ∀ s s', o = some (.inr s) → v = .inr s' → s.Within s' := by
  cases v with
  | inl a => simp [mergeValue_leaf]
  | inr u =>
    rcases o with - | (b | t)
    · simp [mergeValue]
    · simp [mergeValue]
    · have hmerge := merge_eq_right_iff (t := t) (u := u) (ho _ rfl) hv
      simp only [mergeValue, Sum.inr.injEq, hmerge, Option.some.injEq]
      exact ⟨fun h s s' hs hs' => hs ▸ hs' ▸ h, fun h => h t u rfl rfl⟩

end Within

end AchProofs.Foundation.KeyTree
