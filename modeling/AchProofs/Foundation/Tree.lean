import Mathlib

namespace AchProofs.Foundation

/-- A keyed tree, written as one list of cells. A cell holds a scalar or a subtree under its key. -/
inductive KeyTree (κ α : Type) where
  | nil
  | leaf (k : κ) (a : α) (rest : KeyTree κ α)
  | node (k : κ) (sub rest : KeyTree κ α)
deriving DecidableEq, Repr

abbrev Value (κ α : Type) := α ⊕ KeyTree κ α

namespace KeyTree

variable {κ α : Type}

def cons (k : κ) (v : Value κ α) (t : KeyTree κ α) : KeyTree κ α :=
  match v with
  | .inl a => .leaf k a t
  | .inr s => .node k s t

instance decidableEqNil : (t : KeyTree κ α) → Decidable (t = nil)
  | .nil => isTrue rfl
  | .leaf _ _ _ => isFalse nofun
  | .node _ _ _ => isFalse nofun

theorem consInduction {motive : KeyTree κ α → Prop} (nil : motive .nil)
    (cons : ∀ k v t, motive t → (∀ s, v = .inr s → motive s) → motive (cons k v t))
    (t : KeyTree κ α) : motive t := by
  induction t with
  | nil => exact nil
  | leaf k a rest ih => exact cons k (.inl a) rest ih (by simp)
  | node k sub rest ihs ih =>
    exact cons k (.inr sub) rest ih (fun s h => by cases h; exact ihs)

def keys : KeyTree κ α → List κ
  | .nil => []
  | .leaf k _ rest => k :: rest.keys
  | .node k _ rest => k :: rest.keys

@[simp] theorem keys_cons (k : κ) (v : Value κ α) (t : KeyTree κ α) :
    (cons k v t).keys = k :: t.keys := by
  cases v <;> rfl

variable [LinearOrder κ]

def find (k : κ) : KeyTree κ α → Option (Value κ α)
  | .nil => none
  | .leaf k' a rest => if k = k' then some (.inl a) else rest.find k
  | .node k' sub rest => if k = k' then some (.inr sub) else rest.find k

def insert (k : κ) (v : Value κ α) : KeyTree κ α → KeyTree κ α
  | .nil => cons k v .nil
  | .leaf k' a rest =>
    if k < k' then cons k v (.leaf k' a rest)
    else if k = k' then cons k v rest
    else .leaf k' a (rest.insert k v)
  | .node k' sub rest =>
    if k < k' then cons k v (.node k' sub rest)
    else if k = k' then cons k v rest
    else .node k' sub (rest.insert k v)

def erase (k : κ) : KeyTree κ α → KeyTree κ α
  | .nil => .nil
  | .leaf k' a rest => if k = k' then rest.erase k else .leaf k' a (rest.erase k)
  | .node k' sub rest => if k = k' then rest.erase k else .node k' sub (rest.erase k)

/-- Keys increase strictly at every level, so equal contents are equal trees. -/
def Ordered : KeyTree κ α → Prop
  | .nil => True
  | .leaf k _ rest => (∀ k' ∈ rest.keys, k < k') ∧ rest.Ordered
  | .node k sub rest => (∀ k' ∈ rest.keys, k < k') ∧ sub.Ordered ∧ rest.Ordered

def OrderedValue : Value κ α → Prop
  | .inl _ => True
  | .inr s => s.Ordered

instance decidableOrdered : (t : KeyTree κ α) → Decidable t.Ordered
  | .nil => isTrue trivial
  | .leaf _ _ rest =>
    have := decidableOrdered rest
    inferInstanceAs (Decidable (_ ∧ _))
  | .node _ sub rest =>
    have := decidableOrdered sub
    have := decidableOrdered rest
    inferInstanceAs (Decidable (_ ∧ _ ∧ _))

@[simp] theorem find_nil (k : κ) : (nil : KeyTree κ α).find k = none := rfl

@[simp] theorem find_cons (k k' : κ) (v : Value κ α) (t : KeyTree κ α) :
    (cons k' v t).find k = if k = k' then some v else t.find k := by
  cases v <;> rfl

theorem insert_cons (k k' : κ) (v v' : Value κ α) (t : KeyTree κ α) :
    (cons k' v' t).insert k v =
      if k < k' then cons k v (cons k' v' t)
      else if k = k' then cons k v t else cons k' v' (t.insert k v) := by
  cases v' <;> rfl

theorem erase_cons (k k' : κ) (v : Value κ α) (t : KeyTree κ α) :
    (cons k' v t).erase k = if k = k' then t.erase k else cons k' v (t.erase k) := by
  cases v <;> rfl

theorem ordered_cons (k : κ) (v : Value κ α) (t : KeyTree κ α) :
    (cons k v t).Ordered ↔ (∀ k' ∈ t.keys, k < k') ∧ OrderedValue v ∧ t.Ordered := by
  cases v <;> simp [cons, Ordered, OrderedValue]

theorem find_insert (k k' : κ) (v : Value κ α) (t : KeyTree κ α) :
    (t.insert k v).find k' = if k' = k then some v else t.find k' := by
  induction t using consInduction with
  | nil => simp [insert]
  | cons c w t ih _ =>
    rw [insert_cons]
    split
    · simp
    · split
      · subst c
        simp only [find_cons]
        split <;> rfl
      · rename_i _ hne
        simp only [find_cons, ih]
        by_cases hc : k' = c
        · subst hc
          simp [Ne.symm hne]
        · simp [hc]

theorem find_erase (k k' : κ) (t : KeyTree κ α) :
    (t.erase k).find k' = if k' = k then none else t.find k' := by
  induction t using consInduction with
  | nil => simp [erase]
  | cons c w t ih _ =>
    rw [erase_cons]
    by_cases hc : k = c
    · subst c
      rw [if_pos rfl, ih, find_cons]
      by_cases hk : k' = k <;> simp [hk]
    · rw [if_neg hc, find_cons, ih, find_cons]
      by_cases hk : k' = k
      · subst k'
        simp [hc]
      · simp [hk]

theorem mem_keys_iff (k : κ) (t : KeyTree κ α) : k ∈ t.keys ↔ t.find k ≠ none := by
  induction t using consInduction with
  | nil => simp [keys]
  | cons c w t ih _ =>
    rw [keys_cons, List.mem_cons, ih, find_cons]
    by_cases hc : k = c <;> simp [hc]

theorem mem_keys_insert (k k' : κ) (v : Value κ α) (t : KeyTree κ α) :
    k' ∈ (t.insert k v).keys ↔ k' = k ∨ k' ∈ t.keys := by
  rw [mem_keys_iff, mem_keys_iff, find_insert]
  by_cases hk : k' = k <;> simp [hk]

theorem mem_keys_erase (k k' : κ) (t : KeyTree κ α) :
    k' ∈ (t.erase k).keys ↔ k' ≠ k ∧ k' ∈ t.keys := by
  rw [mem_keys_iff, mem_keys_iff, find_erase]
  by_cases hk : k' = k <;> simp [hk]

variable {k : κ} {t : KeyTree κ α}

theorem ordered_insert {v : Value κ α} (hv : OrderedValue v) (ht : t.Ordered) :
    (t.insert k v).Ordered := by
  induction t using consInduction with
  | nil => simp [insert, ordered_cons, hv, keys, Ordered]
  | cons c w t ih _ =>
    obtain ⟨hc, hw, hr⟩ := (ordered_cons c w t).mp ht
    rw [insert_cons]
    split
    · rename_i hlt
      refine (ordered_cons _ _ _).mpr ⟨?_, hv, ht⟩
      intro k' hk'
      rcases List.mem_cons.mp (by simpa using hk') with rfl | hk'
      · exact hlt
      · exact hlt.trans (hc k' hk')
    · split
      · subst c
        exact (ordered_cons _ _ _).mpr ⟨hc, hv, hr⟩
      · rename_i hnlt hne
        refine (ordered_cons _ _ _).mpr ⟨?_, hw, ih hr⟩
        intro k' hk'
        rcases (mem_keys_insert k k' v t).mp hk' with rfl | hk'
        · exact lt_of_le_of_ne (not_lt.mp hnlt) (Ne.symm hne)
        · exact hc k' hk'

theorem ordered_nil : (nil : KeyTree κ α).Ordered := trivial

theorem ordered_insert_leaf (ht : t.Ordered) (k : κ) (a : α) : (t.insert k (.inl a)).Ordered :=
  ordered_insert (v := .inl a) trivial ht

theorem ordered_insert_node {s : KeyTree κ α} (ht : t.Ordered) (k : κ) (hs : s.Ordered) :
    (t.insert k (.inr s)).Ordered :=
  ordered_insert (v := .inr s) hs ht

theorem ordered_erase (ht : t.Ordered) : (t.erase k).Ordered := by
  induction t using consInduction with
  | nil => exact ht
  | cons c w t ih _ =>
    obtain ⟨hc, hw, ht⟩ := (ordered_cons c w t).mp ht
    rw [erase_cons]
    split
    · exact ih ht
    · exact (ordered_cons _ _ _).mpr
        ⟨fun k' hk' => hc k' ((mem_keys_erase k k' t).mp hk').2, hw, ih ht⟩

theorem orderedValue_of_find {v : Value κ α} (ht : t.Ordered) (hf : t.find k = some v) :
    OrderedValue v := by
  induction t using consInduction with
  | nil => simp at hf
  | cons c w t ih _ =>
    obtain ⟨_, hw, ht⟩ := (ordered_cons c w t).mp ht
    rw [find_cons] at hf
    split at hf
    · cases hf
      exact hw
    · exact ih ht hf

theorem find_eq_none_of_lt (h : ∀ k' ∈ t.keys, k < k') : t.find k = none := by
  by_contra hne
  exact lt_irrefl k (h k ((mem_keys_iff k t).mpr hne))

/-- Ordered trees with the same contents are the same tree. -/
theorem ext_of_find {u : KeyTree κ α} (ht : t.Ordered) (hu : u.Ordered)
    (h : ∀ k, t.find k = u.find k) : t = u := by
  induction t using consInduction generalizing u with
  | nil =>
    induction u using consInduction with
    | nil => rfl
    | cons c w u _ _ => simpa using h c
  | cons c v t ih _ =>
    induction u using consInduction with
    | nil => simpa using h c
    | cons d w u _ _ =>
      obtain ⟨hc, _, hto⟩ := (ordered_cons c v t).mp ht
      obtain ⟨hd, _, huo⟩ := (ordered_cons d w u).mp hu
      have hcd : c = d := by
        rcases lt_trichotomy c d with hlt | heq | hlt
        · have hn : u.find c = none :=
            find_eq_none_of_lt (fun k' hk' => hlt.trans (hd k' hk'))
          simpa [hn, hlt.ne] using h c
        · exact heq
        · have hn : t.find d = none :=
            find_eq_none_of_lt (fun k' hk' => hlt.trans (hc k' hk'))
          simpa [hn, hlt.ne] using h d
      subst d
      have hvw : v = w := by simpa using h c
      have hr : t = u := by
        refine ih hto huo (fun k => ?_)
        by_cases hk : k = c
        · rw [hk, find_eq_none_of_lt hc, find_eq_none_of_lt hd]
        · simpa [hk] using h k
      rw [hvw, hr]

end KeyTree

end AchProofs.Foundation
