import AchProofs.Cli.Merge

namespace AchProofs.Cli.SectionKeys

open Foundation Cli.DottedKey Cli.Merge

variable {α : Type}

def idsOf (pairs : List (String × String)) (s : String) : List String :=
  (pairs.filter (fun p => p.1 = s)).map Prod.snd

def pairKey (p : String × String) : String := p.1 ++ "." ++ p.2

def sectionAfter (v : Option (Value String α)) (i : String) : Option (Value String α) :=
  match v with
  | some (.inr x) =>
    match x.find i with
    | none => v
    | some _ =>
      match x.erase i with
      | .nil => none
      | y => some (.inr y)
  | _ => v

def PlainPair (p : String × String) : Prop := p.1 ≠ "" ∧ DotFree p.1 ∧ DotFree p.2

variable {p : String × String} {pairs : List (String × String)} {src : KeyTree String α}

theorem splitPath_pairKey (h : PlainPair p) : splitPath (pairKey p) = [p.1, p.2] := by
  rw [pairKey, splitPath_append_dot, splitPath_of_dotFree h.2.1, splitPath_of_dotFree h.2.2]
  rfl

theorem splitPath_pairKey_cons {s : String} (hs : DotFree s) (i : String) :
    splitPath (pairKey (s, i)) = s :: splitPath i := by
  rw [pairKey, splitPath_append_dot, splitPath_of_dotFree hs]
  rfl

theorem pairKey_inj {q : String × String} (hp : DotFree p.1) (hq : DotFree q.1) :
    pairKey p = pairKey q ↔ p = q := by
  refine ⟨fun h => ?_, congrArg pairKey⟩
  have hsplit := congrArg splitPath h
  rw [splitPath_pairKey_cons hp, splitPath_pairKey_cons hq, List.cons.injEq] at hsplit
  refine Prod.ext hsplit.1 (String.toList_inj.mp ?_)
  have hlist := congrArg String.toList h
  simpa [pairKey, hsplit.1] using hlist

theorem get_pair (t : KeyTree String α) (s i : String) : t.get [s, i] = (t.child s).find i := rfl

theorem find_pruneDottedKey_pair (t : KeyTree String α) (hp : PlainPair p) (s : String) :
    (pruneDottedKey t (pairKey p)).find s =
      if s = p.1 then sectionAfter (t.find s) p.2 else t.find s := by
  obtain ⟨c, i⟩ := p
  have hk := splitPath_pairKey hp
  simp only at hk ⊢
  by_cases hs : s = c
  · subst hs
    rw [if_pos rfl]
    unfold pruneDottedKey getDottedKey removeDottedKey
    rw [hk, get_pair, parentPaths_pair hp.1]
    rcases hf : t.find s with - | v
    · simp [KeyTree.child, hf, sectionAfter]
    cases v with
    | inl a => simp [KeyTree.child, hf, sectionAfter]
    | inr x =>
      rw [KeyTree.child_of_find hf]
      cases hi : x.find i with
      | none => simp [sectionAfter, hi, hf]
      | some v =>
        have hr : t.remove [s, i] = t.insert s (.inr (x.erase i)) := by
          simp [KeyTree.remove, hf]
        simp only [hr, sectionAfter, hi]
        unfold KeyTree.removeEmpties
        simp only [KeyTree.get_singleton, KeyTree.find_insert, if_true]
        cases hx : x.erase i with
        | nil => simp [KeyTree.removeEmpties, KeyTree.remove, KeyTree.find_erase]
        | leaf k a r => simp [KeyTree.find_insert]
        | node k a r => simp [KeyTree.find_insert]
  · rw [if_neg hs]
    have happ : Apart (splitPath (pairKey (c, i))) [s] := by
      rw [hk]
      simp [Ne.symm hs]
    exact get_pruneDottedKey_of_apart t happ

theorem find_pruneAll_pairs (t : KeyTree String α) (hp : ∀ p ∈ pairs, PlainPair p) (s : String) :
    ((pairs.map pairKey).foldl pruneDottedKey t).find s =
      (idsOf pairs s).foldl sectionAfter (t.find s) := by
  induction pairs generalizing t with
  | nil => rfl
  | cons p pairs ih =>
    rw [List.map_cons, List.foldl_cons, ih _ (fun q hq => hp q (by simp [hq])),
      find_pruneDottedKey_pair t (hp p (by simp))]
    by_cases hs : p.1 = s
    · subst hs
      simp [idsOf]
    · simp [idsOf, hs, Ne.symm hs]

theorem foldl_sectionAfter_none (ids : List String) :
    ids.foldl sectionAfter (none : Option (Value String α)) = none := by
  induction ids with
  | nil => rfl
  | cons i ids ih => exact ih

theorem sectionAfter_object (x : KeyTree String α) (i : String) :
    sectionAfter (some (.inr x)) i = none ∨ ∃ y, sectionAfter (some (.inr x)) i =
      some (.inr y) := by
  unfold sectionAfter
  dsimp only
  split
  · exact .inr ⟨x, rfl⟩
  · split
    · exact .inl rfl
    · exact .inr ⟨_, rfl⟩

theorem foldl_sectionAfter_object (x : KeyTree String α) (ids : List String) (a : α) :
    ids.foldl sectionAfter (some (.inr x)) ≠ some (.inl a) := by
  induction ids generalizing x with
  | nil => simp
  | cons i ids ih =>
    rw [List.foldl_cons]
    obtain hn | ⟨y, hy⟩ := sectionAfter_object x i
    · rw [hn, foldl_sectionAfter_none]
      simp
    · rw [hy]
      exact ih y

/-- Pruning ids out of a section leaves what the section holds beside them. A section the
pruning empties goes with its last id. -/
theorem foldl_sectionAfter {x u : KeyTree String α} {ids : List String}
    (hx : x.Ordered) (hu : u.Ordered)
    (hin : ∀ i ∈ ids, x.find i = none) (hout : ∀ k, k ∉ ids → u.find k = x.find k) :
    ids.foldl sectionAfter (some (.inr u)) =
      if x = .nil ∧ u ≠ .nil then none else some (.inr x) := by
  induction ids generalizing u with
  | nil =>
    have hux : u = x := KeyTree.ext_of_find hu hx (fun k => hout k (by simp))
    subst hux
    by_cases hn : u = .nil <;> simp [hn]
  | cons i ids ih =>
    rw [List.foldl_cons]
    cases hi : u.find i with
    | none =>
      have hstep : sectionAfter (some (.inr u)) i = some (.inr u) := by
        simp [sectionAfter, hi]
      rw [hstep]
      refine ih hu (fun j hj => hin j (by simp [hj])) (fun k hk => ?_)
      by_cases hki : k = i
      · subst hki
        rw [hi, hin k (by simp)]
      · exact hout k (by simp [hki, hk])
    | some v =>
      have hune : u ≠ .nil := by
        rintro rfl
        simp at hi
      have hout' : ∀ k, k ∉ ids → (u.erase i).find k = x.find k := by
        intro k hk
        rw [KeyTree.find_erase]
        by_cases hki : k = i
        · rw [if_pos hki, hki, hin i (by simp)]
        · rw [if_neg hki]
          exact hout k (by simp [hki, hk])
      by_cases hnil : u.erase i = .nil
      · have hstep : sectionAfter (some (.inr u)) i = none := by
          simp [sectionAfter, hi, hnil]
        have hxn : x = .nil := by
          refine KeyTree.ext_of_find hx trivial (fun k => ?_)
          by_cases hk : k ∈ ids
          · rw [hin k (by simp [hk]), KeyTree.find_nil]
          · rw [← hout' k hk, hnil]
        rw [hstep, foldl_sectionAfter_none]
        simp [hxn, hune]
      · have hstep : sectionAfter (some (.inr u)) i = some (.inr (u.erase i)) := by
          simp only [sectionAfter, hi]
        rw [hstep, ih (KeyTree.ordered_erase hu) (fun j hj => hin j (by simp [hj])) hout']
        simp [hnil, hune]

theorem extractStep_pair (hp : PlainPair p) {v : Value String α} (hv : src.get [p.1, p.2] = some v)
    (acc : KeyTree String α × Bool) :
    (extractStep src acc (pairKey p)).1 =
      acc.1.insert p.1 (.inr ((acc.1.child p.1).insert p.2 v)) := by
  simp only [extractStep, getDottedKey, setDottedKey, splitPath_pairKey hp, hv]
  rfl

theorem find_child_extract (hp : ∀ p ∈ pairs, PlainPair p)
    (hv : ∀ p ∈ pairs, ∃ v, src.get [p.1, p.2] = some v) (acc : KeyTree String α × Bool)
    (s i : String) :
    (((pairs.map pairKey).foldl (extractStep src) acc).1.child s).find i =
      if i ∈ idsOf pairs s then src.get [s, i] else (acc.1.child s).find i := by
  induction pairs generalizing acc with
  | nil => rfl
  | cons p pairs ih =>
    obtain ⟨v, hpv⟩ := hv p (by simp)
    rw [List.map_cons, List.foldl_cons,
      ih (fun q hq => hp q (by simp [hq])) (fun q hq => hv q (by simp [hq])),
      extractStep_pair (hp p (by simp)) hpv, KeyTree.child_insert]
    by_cases hs : p.1 = s
    · subst hs
      simp only [idsOf, decide_true, List.filter_cons_of_pos, List.map_cons, List.mem_cons,
        if_true, KeyTree.find_insert]
      by_cases hi : i = p.2
      · subst hi
        simp [hpv]
      · simp [hi]
    · simp [idsOf, hs, Ne.symm hs]

theorem find_extract (hp : ∀ p ∈ pairs, PlainPair p)
    (hv : ∀ p ∈ pairs, ∃ v, src.get [p.1, p.2] = some v) (acc : KeyTree String α × Bool)
    (s : String) :
    ((pairs.map pairKey).foldl (extractStep src) acc).1.find s =
      if idsOf pairs s = [] then acc.1.find s
      else some (.inr (((pairs.map pairKey).foldl (extractStep src) acc).1.child s)) := by
  induction pairs generalizing acc with
  | nil => rfl
  | cons p pairs ih =>
    obtain ⟨v, hpv⟩ := hv p (by simp)
    rw [List.map_cons, List.foldl_cons,
      ih (fun q hq => hp q (by simp [hq])) (fun q hq => hv q (by simp [hq]))]
    by_cases hs : p.1 = s
    · subst hs
      by_cases hids : idsOf pairs p.1 = []
      · have hfind : (extractStep src acc (pairKey p)).1.find p.1 =
            some (.inr ((acc.1.child p.1).insert p.2 v)) := by
          rw [extractStep_pair (hp p (by simp)) hpv, KeyTree.find_insert, if_pos rfl]
        have hrest := ih (fun q hq => hp q (by simp [hq])) (fun q hq => hv q (by simp [hq]))
          (extractStep src acc (pairKey p))
        rw [if_pos hids] at hrest ⊢
        rw [hfind] at hrest ⊢
        rw [KeyTree.child_of_find hrest]
        simp [idsOf]
      · rw [if_neg hids, if_neg (by simp [idsOf])]
    · have hids : idsOf (p :: pairs) s = idsOf pairs s := by simp [idsOf, hs]
      rw [hids, extractStep_pair (hp p (by simp)) hpv, KeyTree.find_insert, if_neg (Ne.symm hs)]

end AchProofs.Cli.SectionKeys
