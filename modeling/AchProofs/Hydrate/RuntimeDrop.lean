import AchProofs.Cli.DeepFrame
import AchProofs.Cli.RenderMcp
import AchProofs.Hydrate.RuntimeOwned

namespace AchProofs.Hydrate

open Foundation Cli.Merge Cli.DottedKey Cli.SectionKeys
  Cli.DeepFrame

variable {α : Type}

def entryAt (t : KeyTree String α) (p : String × String) : Option (Value String α) :=
  t.get [p.1, p.2]

/-- What an adapter renders for the runtime block into the file that plugins share, with the servers
it owns among the sections that are read from plugins. -/
structure RuntimeMcp (α : Type) (sections : List String) where
  path : String
  doc : Doc α
  keys : List String
  owned : List (String × String)
  dotFree : ∀ s ∈ sections, DotFree s
  inSection : ∀ p ∈ owned, p.1 ∈ sections
  keys_iff : ∀ s ∈ sections, ∀ i, pairKey (s, i) ∈ keys ↔ (s, i) ∈ owned
  present : ∀ p ∈ owned, entryAt doc.tree p ≠ none

def RuntimeMcp.write {sections : List String} (rt : RuntimeMcp α sections) : FileWrite α :=
  ⟨rt.path, .deep, .doc rt.doc, rt.keys, none⟩

/-- A plugin's document as its transform passed it on, with the keys the transform found in it. The
source hash is set if the transform converted the document. -/
structure PluginMcp (isNull : α → Bool) (sections : List String) where
  plugin : String
  top : Doc α
  keys : List String
  accepted : mcpDeepKeys isNull top.tree sections = some keys
  sourceHash : Option (Digest α)

def PluginMcp.write {isNull : α → Bool} {sections : List String} (p : PluginMcp isNull sections)
    (path : String) : FileWrite α := ⟨path, .deep, .doc p.top, p.keys, p.sourceHash⟩

section Render

open Cli.RenderMcp

def claudeMcp (str : String → α) (path : String) (m : Cli.RenderMcp.Manifest) (cred : String) :
    RuntimeMcp α ["mcpServers", "a2aAgents"] where
  path := path
  doc := ⟨renderMcpJSON str m cred, ordered_renderMcpJSON str m cred⟩
  keys := contributedKeys m
  owned := contributedPairs m
  dotFree := by decide
  inSection p hp := by
    obtain ⟨s, -, rfl⟩ | ⟨a, -, rfl⟩ := mem_contributedPairs.mp hp <;> simp
  keys_iff s hs i := by
    have hsec : ∀ s ∈ ["mcpServers", "a2aAgents"], DotFree s := by decide
    constructor
    · intro h
      obtain ⟨q, hq, heq⟩ := List.mem_map.mp h
      rw [mem_sortedPairs] at hq
      have hq1 : DotFree q.1 := by
        obtain ⟨r, -, rfl⟩ | ⟨r, -, rfl⟩ := mem_contributedPairs.mp hq
        · exact hsec _ (by simp)
        · exact hsec _ (by simp)
      rwa [← (pairKey_inj hq1 (hsec s hs)).mp heq]
    · intro h
      exact List.mem_map.mpr ⟨(s, i), mem_sortedPairs.mpr h, rfl⟩
  present p hp := by
    obtain ⟨s, hs, rfl⟩ | ⟨a, ha, rfl⟩ := mem_contributedPairs.mp hp
    · rw [entryAt, get_pair, KeyTree.child_of_find (find_render_servers str m cred)]
      exact (find_renderSection str _ _ _ _).mpr (List.mem_map_of_mem hs)
    · have hne : m.a2aAgents ≠ [] := List.ne_nil_of_mem ha
      have hf := find_render_agents str m cred
      rw [if_neg hne] at hf
      rw [entryAt, get_pair, KeyTree.child_of_find hf]
      exact (find_renderSection str _ _ _ _).mpr (List.mem_map_of_mem ha)

end Render

theorem entryAt_removeDottedKey (t : KeyTree String α) {p q : String × String} (hp : DotFree p.1)
    (hq : DotFree q.1) : entryAt (removeDottedKey t (pairKey q)) p = none ↔
      entryAt t p = none ∨ pairKey p = pairKey q ∧ DotFree p.2 := by
  obtain ⟨s, i⟩ := p
  obtain ⟨c, j⟩ := q
  have hwalk : [s, i] = c :: splitPath j ↔ pairKey (s, i) = pairKey (c, j) ∧ DotFree i := by
    rw [pairKey_inj hp hq, List.cons.injEq, eq_comm (a := [i]), splitPath_eq_singleton,
      Prod.mk.injEq]
    tauto
  rw [← hwalk, entryAt, entryAt, removeDottedKey, splitPath_pairKey_cons hq]
  by_cases heq : [s, i] = c :: splitPath j
  · simp only [heq, or_true, iff_true]
    exact KeyTree.get_remove_below t (List.cons_ne_nil _ _) (List.prefix_refl _)
  simp only [heq, or_false]
  by_cases hbelow : c :: splitPath j <+: [s, i]
  · -- the walk has at least two steps, so it ends at the entry
    refine absurd (hbelow.eq_of_length ?_).symm heq
    have := hbelow.length_le
    have := List.length_pos_iff.mpr (splitPath_ne_nil j)
    simp only [List.length_cons, List.length_nil] at *
    omega
  by_cases habove : [s, i] <+: c :: splitPath j
  · exact KeyTree.get_remove_above t habove heq
  · rw [KeyTree.get_remove_of_apart t ⟨hbelow, habove⟩]

theorem entryAt_removeAll (t : KeyTree String α) {p : String × String} (hp : DotFree p.1)
    {keys : List String} (hkeys : ∀ k ∈ keys, ∃ q : String × String, DotFree q.1 ∧ k = pairKey q) :
    entryAt (keys.foldl removeDottedKey t) p = none ↔
      entryAt t p = none ∨ pairKey p ∈ keys ∧ DotFree p.2 := by
  induction keys generalizing t with
  | nil => simp
  | cons k keys ih =>
    obtain ⟨q, hq, rfl⟩ := hkeys k (by simp)
    rw [List.foldl_cons, ih _ (fun k hk => hkeys k (by simp [hk])), entryAt_removeDottedKey t hp hq,
      List.mem_cons]
    tauto

theorem find_leaf_removeAll (t : KeyTree String α) (s : String) (a : α) {keys : List String}
    (hkeys : ∀ k ∈ keys, ∃ q : String × String, DotFree q.1 ∧ k = pairKey q) :
    (keys.foldl removeDottedKey t).find s = some (.inl a) ↔ t.find s = some (.inl a) := by
  induction keys generalizing t with
  | nil => rfl
  | cons k keys ih =>
    obtain ⟨⟨c, j⟩, hc, rfl⟩ := hkeys k (by simp)
    rw [List.foldl_cons, ih _ (fun k hk => hkeys k (by simp [hk])), removeDottedKey,
      splitPath_pairKey_cons hc, KeyTree.find_remove_leaf _ _ _ (splitPath_ne_nil j)]

theorem entryAt_withoutOwned (t : KeyTree String α) (container : String) (keys : List String)
    (p : String × String) : entryAt (withoutOwned t container keys) p = none ↔
      entryAt (keys.foldl removeDottedKey t) p = none := by
  unfold withoutOwned
  dsimp only
  split
  · rename_i h
    rw [entryAt, entryAt, get_pair, get_pair]
    by_cases hs : p.1 = container
    · rw [hs, KeyTree.child_erase_self, KeyTree.child_of_find h]
    · have hfind : ((keys.foldl removeDottedKey t).erase container).find p.1 =
          (keys.foldl removeDottedKey t).find p.1 := by
        rw [KeyTree.find_erase, if_neg hs]
      rw [KeyTree.child_congr hfind]
  · rfl

theorem find_leaf_withoutOwned (t : KeyTree String α) (container : String) (keys : List String)
    (s : String) (a : α) : (withoutOwned t container keys).find s = some (.inl a) ↔
      (keys.foldl removeDottedKey t).find s = some (.inl a) := by
  unfold withoutOwned
  dsimp only
  split
  · rename_i h
    rw [KeyTree.find_erase]
    by_cases hs : s = container
    · simp [hs, h]
    · rw [if_neg hs]
  · rfl

section Drop

variable {isNull : α → Bool} {sections : List String} (rt : RuntimeMcp α sections)
  (p : PluginMcp isNull sections)

def Joins : Prop := p.keys = [] ∨ ∃ k ∈ p.keys, k ∉ rt.keys

theorem exists_pair_of_mem_keys {k : String} (hk : k ∈ p.keys) :
    ∃ q : String × String, q.1 ∈ sections ∧ k = pairKey q ∧ entryAt p.top.tree q ≠ none := by
  obtain ⟨s, hs, ids, hids, i, hi, rfl⟩ := (mem_mcpDeepKeys p.accepted).mp hk
  refine ⟨(s, i), hs, rfl, ?_⟩
  rw [entryAt, get_pair, KeyTree.child_of_find hids]
  exact (KeyTree.mem_keys_iff i ids).mp hi

theorem pairKey_mem_keys {q : String × String} (hq : q.1 ∈ sections)
    (h : entryAt p.top.tree q ≠ none) : pairKey q ∈ p.keys := by
  rw [entryAt, get_pair] at h
  cases hf : p.top.tree.find q.1 with
  | none => exact absurd (by rw [KeyTree.child_eq_nil (by simp [hf])]; rfl) h
  | some v =>
    cases v with
    | inl a => exact absurd (by rw [KeyTree.child_eq_nil (by simp [hf])]; rfl) h
    | inr ids =>
      rw [KeyTree.child_of_find hf] at h
      exact (mem_mcpDeepKeys p.accepted).mpr
        ⟨q.1, hq, ids, hf, q.2, (KeyTree.mem_keys_iff q.2 ids).mpr h, rfl⟩

/-- A write that is published after the drop: an owned server is gone from it unless its id has a
dot, and a section without servers stays as it is. -/
structure Dropped (w : FileWrite α) (d : Doc α) : Prop where
  path : w.path = rt.path
  merge : w.merge = .deep
  content : w.content = .doc d
  entry : ∀ q ∈ rt.owned, entryAt d.tree q = none ↔ DotFree q.2 ∨ entryAt p.top.tree q = none
  leaf : ∀ s a, d.tree.find s = some (.inl a) ↔ p.top.tree.find s = some (.inl a)

variable {rt p} {rows : List (FileEntry α)} (hrows : ownedKeys rows rt.path = rt.keys)

include hrows

theorem drop_of_not_joins (h : ¬ Joins rt p) :
    ∃ w, dropRuntimeOwnedMCP (p.write rt.path) rows = some (false, w) := by
  obtain ⟨hne, hall⟩ := not_or.mp h
  have hown : ∀ k ∈ p.keys, k ∈ rt.keys := fun k hk => by_contra fun hn => hall ⟨k, hk, hn⟩
  have hcollide : p.keys.filter (fun k => decide (k ∈ rt.keys)) ≠ [] := by
    rw [List.filter_eq_self.mpr (by simpa using hown)]
    exact hne
  have hsurvive : p.keys.filter (fun k => decide (k ∉ rt.keys)) = [] :=
    List.filter_eq_nil_iff.mpr (by simpa using hown)
  unfold dropRuntimeOwnedMCP
  simp only [PluginMcp.write, hrows, ne_eq, not_true_eq_false, if_false, hcollide, hsurvive]
  split_ifs
  · exact ⟨_, rfl⟩
  · refine ⟨_, congrArg some (Prod.ext ?_ rfl)⟩
    simp

theorem drop_of_joins (h : Joins rt p) :
    ∃ w d, dropRuntimeOwnedMCP (p.write rt.path) rows = some (true, w) ∧ Dropped rt p w d := by
  have hmem : ∀ q ∈ rt.owned, entryAt p.top.tree q ≠ none →
      pairKey q ∈ p.keys.filter (fun k => decide (k ∈ rt.keys)) := fun q hq hne =>
    List.mem_filter.mpr ⟨pairKey_mem_keys p (rt.inSection q hq) hne,
      decide_eq_true ((rt.keys_iff q.1 (rt.inSection q hq) q.2).mpr hq)⟩
  unfold dropRuntimeOwnedMCP
  simp only [PluginMcp.write, hrows, ne_eq, not_true_eq_false, if_false]
  by_cases hcollide : p.keys.filter (fun k => decide (k ∈ rt.keys)) = []
  · rw [if_pos hcollide]
    refine ⟨_, p.top, rfl, rfl, rfl, rfl, fun q hq => ?_, fun s a => Iff.rfl⟩
    have hnone : entryAt p.top.tree q = none := by
      by_contra hne
      have := hmem q hq hne
      rw [hcollide] at this
      cases this
    simp [hnone]
  rw [if_neg hcollide]
  have hkeys : ∀ k ∈ p.keys.filter (fun k => decide (k ∈ rt.keys)),
      ∃ q : String × String, DotFree q.1 ∧ k = pairKey q := by
    intro k hk
    obtain ⟨q, hq, rfl, -⟩ := exists_pair_of_mem_keys p (List.mem_of_mem_filter hk)
    exact ⟨q, rt.dotFree _ hq, rfl⟩
  -- the server that is not owned survives the removals
  obtain ⟨k, hk, hfree⟩ : ∃ k ∈ p.keys, k ∉ rt.keys := h.resolve_left (by
    intro hnil
    simp [hnil] at hcollide)
  obtain ⟨q, hq, rfl, hentry⟩ := exists_pair_of_mem_keys p hk
  have hkept : withoutOwned p.top.tree (mcpContainerFor p.keys)
      (p.keys.filter (fun k => decide (k ∈ rt.keys))) ≠ .nil := by
    intro hnil
    have hgone := (entryAt_withoutOwned p.top.tree (mcpContainerFor p.keys)
      (p.keys.filter (fun k => decide (k ∈ rt.keys))) q).mp
        (by rw [hnil]; exact KeyTree.get_nil _ _)
    rw [entryAt_removeAll _ (rt.dotFree _ hq) hkeys] at hgone
    obtain hgone | ⟨hmem, -⟩ := hgone
    · exact hentry hgone
    · exact hfree (by simpa using (List.mem_filter.mp hmem).2)
  have hsurvive : p.keys.filter (fun k => decide (k ∉ rt.keys)) ≠ [] :=
    List.ne_nil_of_mem (List.mem_filter.mpr ⟨hk, decide_eq_true hfree⟩)
  rw [if_neg hkept]
  refine ⟨_, _, by rw [decide_eq_true hsurvive], rfl, rfl, rfl, fun q hq => ?_, fun s a => ?_⟩
  · rw [entryAt_withoutOwned, entryAt_removeAll _ (rt.dotFree _ (rt.inSection q hq)) hkeys]
    constructor
    · exact fun h => h.elim .inr fun h => .inl h.2
    · intro h
      by_cases hnone : entryAt p.top.tree q = none
      · exact .inl hnone
      · exact .inr ⟨hmem q hq hnone, h.resolve_right hnone⟩
  · rw [find_leaf_withoutOwned, find_leaf_removeAll _ _ _ hkeys]

end Drop

end AchProofs.Hydrate
