import AchProofs.Foundation.TreeShape
import AchProofs.Cli.DottedKey

namespace AchProofs.Cli.Merge

open Foundation Cli.DottedKey

variable {α : Type}

/-- A decoded JSON or TOML document. Its scalars are whatever a decoder yields that is no object. -/
structure Doc (α : Type) where
  tree : KeyTree String α
  ordered : tree.Ordered
deriving DecidableEq

def deepMergeInto (dst src : KeyTree String α) : KeyTree String α := dst.merge src

def Doc.merge (dst src : Doc α) : Doc α :=
  ⟨deepMergeInto dst.tree src.tree, KeyTree.ordered_merge dst.ordered src.ordered⟩

def getDottedKey (root : KeyTree String α) (path : String) : Option (Value String α) :=
  root.get (splitPath path)

def setDottedKey (root : KeyTree String α) (path : String) (val : Value String α) :
    KeyTree String α :=
  root.set (splitPath path) val

def removeDottedKey (root : KeyTree String α) (path : String) : KeyTree String α :=
  root.remove (splitPath path)

def extractStep (src : KeyTree String α) (acc : KeyTree String α × Bool) (k : String) :
    KeyTree String α × Bool :=
  match getDottedKey src k with
  | some v => (setDottedKey acc.1 k v, true)
  | none => acc

def extractByKeys (src : KeyTree String α) (keys : List String) : KeyTree String α × Bool :=
  keys.foldl (extractStep src) (.nil, false)

def pruneDottedKey (doc : KeyTree String α) (k : String) : KeyTree String α :=
  match getDottedKey doc k with
  | none => doc
  | some _ => (removeDottedKey doc k).removeEmpties (parentPaths (splitPath k))

/-- The pruned document, or nothing when it came out empty and the caller deletes the file. -/
def pruneDottedKeys (doc : KeyTree String α) (keys : List String) : Option (KeyTree String α) :=
  match keys.foldl pruneDottedKey doc with
  | .nil => none
  | d => some d

variable {k : String} {q keys : List String} {doc src : KeyTree String α}

theorem get_pruneDottedKey_of_apart (doc : KeyTree String α) (h : Apart (splitPath k) q) :
    (pruneDottedKey doc k).get q = doc.get q := by
  unfold pruneDottedKey
  split
  · rfl
  · rw [KeyTree.get_removeEmpties _ (fun a ha => (mem_parentPaths ha).1)
      (fun a ha hq => h.2 (hq.trans (mem_parentPaths ha).2.1))]
    exact KeyTree.get_remove_of_apart doc h

theorem get_pruneDottedKey_below (doc : KeyTree String α) (h : splitPath k <+: q) :
    (pruneDottedKey doc k).get q = none := by
  unfold pruneDottedKey
  split
  · rename_i hn
    obtain ⟨r, rfl⟩ := h
    by_cases hr : r = []
    · subst hr
      simpa [getDottedKey] using hn
    · rw [KeyTree.get_append doc _ hr]
      simp only [getDottedKey] at hn
      rw [hn]
  · rw [KeyTree.get_removeEmpties _ (fun a ha => (mem_parentPaths ha).1)]
    · exact KeyTree.get_remove_below doc (splitPath_ne_nil k) h
    · intro a ha hq
      have hl := (mem_parentPaths ha).2.2
      have := h.length_le
      have := hq.length_le
      omega

theorem get_pruneDottedKey_none (k : String) (h : doc.get q = none) :
    (pruneDottedKey doc k).get q = none := by
  by_cases hkq : splitPath k <+: q
  · exact get_pruneDottedKey_below doc hkq
  by_cases hqk : q <+: splitPath k
  · obtain ⟨r, hr⟩ := hqk
    have hne : r ≠ [] := by
      rintro rfl
      exact hkq (by simp [← hr])
    have hk : getDottedKey doc k = none := by
      rw [getDottedKey, ← hr, KeyTree.get_append doc q hne, h]
    simpa only [pruneDottedKey, hk] using h
  · rw [get_pruneDottedKey_of_apart doc ⟨hkq, hqk⟩, h]

theorem get_pruneAll_of_apart (doc : KeyTree String α) (h : ∀ k ∈ keys, Apart (splitPath k) q) :
    (keys.foldl pruneDottedKey doc).get q = doc.get q := by
  induction keys generalizing doc with
  | nil => rfl
  | cons k keys ih =>
    rw [List.foldl_cons, ih _ (fun k' hk' => h k' (by simp [hk']))]
    exact get_pruneDottedKey_of_apart doc (h k (by simp))

theorem get_pruneAll_none (keys : List String) (h : doc.get q = none) :
    (keys.foldl pruneDottedKey doc).get q = none := by
  induction keys generalizing doc with
  | nil => exact h
  | cons k keys ih => exact ih (get_pruneDottedKey_none k h)

theorem get_pruneAll_mem (doc : KeyTree String α) (h : k ∈ keys) :
    getDottedKey (keys.foldl pruneDottedKey doc) k = none := by
  induction keys generalizing doc with
  | nil => simp at h
  | cons c keys ih =>
    obtain rfl | h := List.mem_cons.mp h
    · exact get_pruneAll_none keys (get_pruneDottedKey_below doc (List.prefix_refl _))
    · exact ih _ h

theorem ordered_pruneDottedKey (hd : doc.Ordered) (k : String) :
    (pruneDottedKey doc k).Ordered := by
  unfold pruneDottedKey
  split
  · exact hd
  · exact KeyTree.ordered_removeEmpties (KeyTree.ordered_remove hd)

theorem ordered_pruneAll (hd : doc.Ordered) (keys : List String) :
    (keys.foldl pruneDottedKey doc).Ordered := by
  induction keys generalizing doc with
  | nil => exact hd
  | cons k keys ih => exact ih (ordered_pruneDottedKey hd k)

theorem get_extract_of_apart (src : KeyTree String α) (h : ∀ k ∈ keys, Apart (splitPath k) q)
    (acc : KeyTree String α × Bool) : (keys.foldl (extractStep src) acc).1.get q = acc.1.get q := by
  induction keys generalizing acc with
  | nil => rfl
  | cons k keys ih =>
    rw [List.foldl_cons, ih (fun k' hk' => h k' (by simp [hk']))]
    unfold extractStep
    split
    · exact KeyTree.get_set_of_apart acc.1 (h k (by simp)) _
    · rfl

theorem ordered_extractStep (hs : src.Ordered) {acc : KeyTree String α × Bool} (ha : acc.1.Ordered)
    (k : String) : (extractStep src acc k).1.Ordered := by
  unfold extractStep
  split
  · rename_i v hv
    exact KeyTree.ordered_set (KeyTree.orderedValue_of_get hs hv) ha
  · exact ha

theorem ordered_extractFold (hs : src.Ordered) (keys : List String) {acc : KeyTree String α × Bool}
    (ha : acc.1.Ordered) : (keys.foldl (extractStep src) acc).1.Ordered := by
  induction keys generalizing acc with
  | nil => exact ha
  | cons k keys ih => exact ih (ordered_extractStep hs ha k)

theorem ordered_extractByKeys (hs : src.Ordered) (keys : List String) :
    (extractByKeys src keys).1.Ordered := ordered_extractFold hs keys trivial

theorem extractByKeys_congr {src' : KeyTree String α}
    (h : ∀ k ∈ keys, getDottedKey src k = getDottedKey src' k) :
    extractByKeys src keys = extractByKeys src' keys := by
  have hfold : ∀ acc, keys.foldl (extractStep src) acc = keys.foldl (extractStep src') acc := by
    induction keys with
    | nil => exact fun _ => rfl
    | cons k keys ih =>
      intro acc
      have hstep : extractStep src acc k = extractStep src' acc k := by
        rw [extractStep, extractStep, h k (by simp)]
      rw [List.foldl_cons, List.foldl_cons, hstep, ih (fun k' hk' => h k' (by simp [hk']))]
  exact hfold _

theorem extractByKeys_filter (src : KeyTree String α) (keys : List String) :
    extractByKeys src keys =
      extractByKeys src (keys.filter (fun k => (getDottedKey src k).isSome)) := by
  have hfold : ∀ acc, keys.foldl (extractStep src) acc =
      (keys.filter (fun k => (getDottedKey src k).isSome)).foldl (extractStep src) acc := by
    induction keys with
    | nil => exact fun _ => rfl
    | cons k keys ih =>
      intro acc
      cases hk : getDottedKey src k with
      | none =>
        rw [List.filter_cons_of_neg (by simp [hk]), List.foldl_cons, ← ih]
        rw [extractStep, hk]
      | some v =>
        rw [List.filter_cons_of_pos (by simp [hk]), List.foldl_cons, List.foldl_cons, ih]
  exact hfold _

theorem extractFold_found (src : KeyTree String α) (keys : List String)
    (acc : KeyTree String α × Bool) :
    (keys.foldl (extractStep src) acc).2 = true ↔
      acc.2 = true ∨ ∃ k ∈ keys, getDottedKey src k ≠ none := by
  induction keys generalizing acc with
  | nil => simp
  | cons k keys ih =>
    rw [List.foldl_cons, ih]
    unfold extractStep
    cases hk : getDottedKey src k with
    | none => simp [hk]
    | some v => simp [hk]

theorem extractByKeys_found (src : KeyTree String α) (keys : List String) :
    (extractByKeys src keys).2 = true ↔ ∃ k ∈ keys, getDottedKey src k ≠ none := by
  rw [extractByKeys, extractFold_found]
  simp

/-- What was extracted so far is there in the source. -/
def Extracted (src acc : KeyTree String α) : Prop :=
  ∀ p, p ≠ [] → acc.get p ≠ none → src.get p ≠ none

theorem get_set_below {c : List String} {v : Value String α} (acc : KeyTree String α) (hc : c ≠ [])
    (hv : src.get c = some v) (h : c <+: q) : (acc.set c v).get q = src.get q := by
  obtain ⟨r, rfl⟩ := h
  by_cases hr : r = []
  · rw [hr, List.append_nil, KeyTree.get_set_self _ hc, hv]
  · rw [KeyTree.get_append _ _ hr, KeyTree.get_append _ _ hr, KeyTree.get_set_self _ hc, hv]

theorem exists_subtree_above {c : List String} {v : Value String α} (hv : src.get c = some v)
    (h : q <+: c) (hne : q ≠ c) :
    ∃ s r, r ≠ [] ∧ c = q ++ r ∧ src.get q = some (.inr s) ∧ s.get r = some v := by
  obtain ⟨r, rfl⟩ := h
  have hr : r ≠ [] := fun hnil => hne (by rw [hnil, List.append_nil])
  rw [KeyTree.get_append _ _ hr] at hv
  split at hv
  · rename_i s hs
    exact ⟨s, r, hr, rfl, hs, hv⟩
  · cases hv

theorem Extracted.step {acc : KeyTree String α × Bool} (h : Extracted src acc.1) (c : String) :
    Extracted src (extractStep src acc c).1 := by
  unfold extractStep
  split
  · rename_i v hv
    intro p hp hne
    by_cases hcp : splitPath c <+: p
    · rwa [setDottedKey, get_set_below acc.1 (splitPath_ne_nil c) hv hcp] at hne
    by_cases hpc : p <+: splitPath c
    · obtain ⟨s, r, -, -, hs, -⟩ := exists_subtree_above hv hpc fun he => hcp (by rw [he])
      rw [hs]
      simp
    · rw [setDottedKey, KeyTree.get_set_of_apart _ ⟨hcp, hpc⟩] at hne
      exact h p hp hne
  · exact h

theorem get_extractStep_self {acc : KeyTree String α × Bool} (h : Extracted src acc.1)
    (k : String) :
    getDottedKey (extractStep src acc k).1 k = getDottedKey src k := by
  unfold extractStep
  cases hv : getDottedKey src k with
  | some v => exact KeyTree.get_set_self _ (splitPath_ne_nil k) v
  | none => exact not_not.mp fun hne => h _ (splitPath_ne_nil k) hne hv

/-- Later keys, also those on the way to a key or below it, leave its value as it is. -/
theorem get_extractStep_of_eq (hs : src.Ordered) {acc : KeyTree String α × Bool}
    (h : getDottedKey acc.1 k = getDottedKey src k) (c : String) :
    getDottedKey (extractStep src acc c).1 k = getDottedKey src k := by
  unfold extractStep
  split
  · rename_i v hv
    by_cases hck : splitPath c <+: splitPath k
    · exact get_set_below acc.1 (splitPath_ne_nil c) hv hck
    by_cases hkc : splitPath k <+: splitPath c
    · obtain ⟨s, r, hr, hc, hsub, hget⟩ := exists_subtree_above hv hkc fun he => hck (by rw [he])
      have hacc : acc.1.get (splitPath k) = some (.inr s) := h.trans hsub
      show (acc.1.set (splitPath c) v).get (splitPath k) = src.get (splitPath k)
      rw [hc, KeyTree.get_set_above v hr hacc,
        KeyTree.set_of_get (KeyTree.orderedValue_of_get hs hsub) hr hget,
        hsub]
    · exact (KeyTree.get_set_of_apart _ ⟨hck, hkc⟩ _).trans h
  · exact h

theorem get_extractByKeys (hs : src.Ordered) (hk : k ∈ keys) :
    getDottedKey (extractByKeys src keys).1 k = getDottedKey src k := by
  have hfold : ∀ acc : KeyTree String α × Bool, Extracted src acc.1 →
      (k ∈ keys ∨ getDottedKey acc.1 k = getDottedKey src k) →
      getDottedKey (keys.foldl (extractStep src) acc).1 k = getDottedKey src k := by
    clear hk
    induction keys with
    | nil => exact fun acc _ h => h.resolve_left (by simp)
    | cons c keys ih =>
      intro acc hacc h
      rw [List.foldl_cons]
      refine ih _ (hacc.step c) ?_
      rcases h with h | h
      · obtain rfl | h := List.mem_cons.mp h
        · exact .inr (get_extractStep_self hacc k)
        · exact .inl h
      · exact .inr (get_extractStep_of_eq hs h c)
  refine hfold _ (fun p hp hne => ?_) (.inl hk)
  obtain ⟨a, p, rfl⟩ := List.exists_cons_of_ne_nil hp
  exact absurd (KeyTree.get_nil a p) hne

end AchProofs.Cli.Merge
