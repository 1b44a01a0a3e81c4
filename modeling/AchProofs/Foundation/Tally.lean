import Mathlib

namespace AchProofs.Foundation

/-- Sums by key, and the keys that came up. -/
structure Tally (K M : Type) where
  keys : List K
  sum : K → M

namespace Tally

variable {K M : Type} [DecidableEq K] [AddCommMonoid M]

def add (t : Tally K M) (r : K × M) : Tally K M where
  keys := if r.1 ∈ t.keys then t.keys else t.keys ++ [r.1]
  sum := Function.update t.sum r.1 (t.sum r.1 + r.2)

def of (rows : List (K × M)) : Tally K M := rows.foldl add ⟨[], fun _ => 0⟩

/-- What the rows of a key add up to. -/
def total (rows : List (K × M)) (k : K) : M := ((rows.filter fun r => r.1 = k).map Prod.snd).sum

variable (le : K → K → Prop) [DecidableRel le]

/-- The sums, sorted by key. -/
def sorted (t : Tally K M) : List (K × M) := (t.keys.insertionSort le).map fun k => (k, t.sum k)

variable {rows rows' : List (K × M)} {k : K}

theorem of_concat (rows : List (K × M)) (r : K × M) : of (rows ++ [r]) = (of rows).add r := by
  rw [of, List.foldl_append]
  rfl

theorem sum_of (rows : List (K × M)) (k : K) : (of rows).sum k = total rows k := by
  induction rows using List.reverseRecOn with
  | nil => rfl
  | append_singleton rows r ih =>
    rw [of_concat, add, total, List.filter_append, List.map_append, List.sum_append, ← total, ← ih]
    by_cases hk : r.1 = k
    · simp [hk]
    · simp [hk, Function.update_of_ne (Ne.symm hk)]

theorem mem_keys_of : k ∈ (of rows).keys ↔ k ∈ rows.map Prod.fst := by
  induction rows using List.reverseRecOn with
  | nil => rfl
  | append_singleton rows r ih =>
    rw [of_concat, add, List.map_append, List.mem_append, ← ih]
    by_cases hr : r.1 ∈ (of rows).keys
    · rw [if_pos hr]
      exact ⟨.inl, fun h => h.elim id fun h => List.mem_singleton.mp h ▸ hr⟩
    · rw [if_neg hr, List.mem_append]
      rfl

theorem nodup_keys_of (rows : List (K × M)) : (of rows).keys.Nodup := by
  induction rows using List.reverseRecOn with
  | nil => exact List.nodup_nil
  | append_singleton rows r ih =>
    rw [of_concat, add]
    split_ifs with hr
    · exact ih
    · rw [← List.concat_eq_append]
      exact ih.concat hr

theorem mem_sorted {e : K × M} :
    e ∈ sorted le (of rows) ↔ e.1 ∈ rows.map Prod.fst ∧ e.2 = total rows e.1 := by
  simp only [sorted, List.mem_map, List.mem_insertionSort, mem_keys_of, sum_of]
  exact ⟨fun ⟨k, hk, h⟩ => h ▸ ⟨hk, rfl⟩, fun ⟨hk, h⟩ => ⟨e.1, hk, Prod.ext rfl h.symm⟩⟩

/-- The order of the rows makes no difference. -/
theorem sorted_perm [Std.Total le] [IsTrans K le] [Std.Antisymm le] (h : rows.Perm rows') :
    sorted le (of rows) = sorted le (of rows') := by
  have hkeys : (of rows).keys.Perm (of rows').keys := by
    refine (List.perm_ext_iff_of_nodup (nodup_keys_of _) (nodup_keys_of _)).mpr fun k => ?_
    rw [mem_keys_of, mem_keys_of, (h.map Prod.fst).mem_iff]
  have hsort : (of rows).keys.insertionSort le = (of rows').keys.insertionSort le :=
    List.Perm.eq_of_pairwise (fun a b _ _ => Std.Antisymm.antisymm a b)
      (List.pairwise_insertionSort le _) (List.pairwise_insertionSort le _)
      ((List.perm_insertionSort le _).trans (hkeys.trans (List.perm_insertionSort le _).symm))
  have hsum : (of rows).sum = (of rows').sum := by
    funext k
    rw [sum_of, sum_of, total, total, ((h.filter _).map _).sum_eq]
  rw [sorted, sorted, hsort, hsum]

end Tally

end AchProofs.Foundation
