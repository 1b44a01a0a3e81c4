import Mathlib

namespace AchProofs.Cli.DottedKey

def splitPath (key : String) : List String := (key.toList.splitOn '.').map String.ofList

def DotFree (s : String) : Prop := '.' ∉ s.toList

instance (s : String) : Decidable (DotFree s) := inferInstanceAs (Decidable (¬ _))

/-- The paths a dotted key is cut back to, longest first, while a dot stands after its first
byte. -/
def parentPaths (p : List String) : List (List String) :=
  p.dropLast.inits.reverse.takeWhile (fun q => q ≠ [] ∧ q ≠ [""])

theorem splitPath_append_dot (a b : String) :
    splitPath (a ++ "." ++ b) = splitPath a ++ splitPath b := by
  have hdot : ".".toList = ['.'] := rfl
  simp only [splitPath, String.toList_append, hdot, List.append_assoc, List.singleton_append]
  rw [List.splitOn, List.splitOnP_append_cons _ _ (by simp), List.map_append]
  rfl

theorem splitPath_of_dotFree {s : String} (h : DotFree s) : splitPath s = [s] := by
  rw [splitPath, List.splitOn_eq_singleton h]
  simp

theorem splitPath_ne_nil (s : String) : splitPath s ≠ [] := by
  simp [splitPath]

theorem not_mem_of_mem_splitOn {c : Char} {cs w : List Char} (h : w ∈ cs.splitOn c) : c ∉ w := by
  induction cs generalizing w with
  | nil =>
    simp at h
    simp [h]
  | cons d cs ih =>
    rw [List.splitOn, List.splitOnP_cons_eq_if_modifyHead] at h
    split at h
    · obtain rfl | h := List.mem_cons.mp h
      · simp
      · exact ih h
    · rename_i hd
      obtain ⟨u, us, hu⟩ := List.exists_cons_of_ne_nil
        (List.splitOnP_ne_nil (fun x => x == c) cs)
      rw [hu, List.modifyHead_cons] at h
      obtain rfl | h := List.mem_cons.mp h
      · have := ih (w := u) (by rw [List.splitOn, hu]; simp)
        simp only [beq_iff_eq] at hd
        simp [this, Ne.symm hd]
      · exact ih (by rw [List.splitOn, hu]; simp [h])

theorem dotFree_of_mem_splitPath {s key : String} (h : s ∈ splitPath key) : DotFree s := by
  obtain ⟨w, hw, rfl⟩ := List.mem_map.mp h
  simpa [DotFree] using not_mem_of_mem_splitOn hw

theorem dotFree_of_prefix_splitPath {s key : String} {r : List String}
    (h : splitPath key <+: s :: r) : DotFree s := by
  obtain ⟨c, q, hcq⟩ := List.exists_cons_of_ne_nil (splitPath_ne_nil key)
  rw [hcq, List.cons_prefix_cons] at h
  have hmem : s ∈ splitPath key := by
    rw [hcq, h.1]
    exact List.mem_cons_self
  exact dotFree_of_mem_splitPath hmem

theorem splitPath_eq_singleton {key s : String} : splitPath key = [s] ↔ key = s ∧ DotFree s := by
  constructor
  · intro h
    obtain ⟨w, hw, rfl⟩ := List.map_eq_singleton_iff.mp h
    have hkey : key.toList = w := by
      have hjoin : ['.'].intercalate (key.toList.splitOn '.') = key.toList :=
        List.intercalate_splitOn '.'
      simpa [hw] using hjoin.symm
    have hmem : String.ofList w ∈ splitPath key := by simp [h]
    exact ⟨by simp [← hkey], dotFree_of_mem_splitPath hmem⟩
  · rintro ⟨rfl, h⟩
    exact splitPath_of_dotFree h

theorem mem_parentPaths {p q : List String} (h : q ∈ parentPaths p) :
    q ≠ [] ∧ q <+: p ∧ q.length < p.length := by
  have hne := List.mem_takeWhile_imp h
  have hq : q <+: p.dropLast := by
    simpa using List.takeWhile_subset _ h
  have hlt : p.dropLast.length < p.length := by
    cases p with
    | nil =>
      simp at hq
      simp [hq] at hne
    | cons a p => simp
  exact ⟨by simp at hne; exact hne.1, hq.trans (List.dropLast_prefix p),
    lt_of_le_of_lt hq.length_le hlt⟩

theorem parentPaths_pair {s : String} (hs : s ≠ "") (i : String) :
    parentPaths [s, i] = [[s]] := by
  simp [parentPaths, hs]

end AchProofs.Cli.DottedKey
