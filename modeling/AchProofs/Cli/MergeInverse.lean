import AchProofs.Cli.RenderMcp

namespace AchProofs.Cli.MergeInverse

open Foundation Cli.DottedKey Cli.Merge Cli.SectionKeys
open Cli.RenderMcp

variable {α : Type} (str : String → α)

variable {m : Manifest} {p : String × String} {s cred : String} {d : Doc α}

theorem section_dotFree (hp : p ∈ contributedPairs m) : p.1 ≠ "" ∧ DotFree p.1 := by
  obtain ⟨s, _, rfl⟩ | ⟨a, _, rfl⟩ := mem_contributedPairs.mp hp
  · exact (by decide : "mcpServers" ≠ "" ∧ DotFree "mcpServers")
  · exact (by decide : "a2aAgents" ≠ "" ∧ DotFree "a2aAgents")

theorem plainPair_of_dotFree (hdot : ∀ p ∈ contributedPairs m, DotFree p.2) :
    ∀ p ∈ sortedPairs m, PlainPair p := by
  intro p hp
  have hmem := mem_sortedPairs.mp hp
  exact ⟨(section_dotFree hmem).1, (section_dotFree hmem).2, hdot p hmem⟩

theorem section_restored {d u S : KeyTree String α} {ids : List String} (hd : d.Ordered)
    (hS : S.Ordered) (hu : u.find s = some (.inr S)) (hids : ∀ k, S.find k ≠ none ↔ k ∈ ids)
    (hne : ids ≠ []) (hfree : ∀ i ∈ ids, d.get [s, i] = none) (hfull : d.find s ≠ some (.inr .nil))
    (hobj : ∀ a, d.find s ≠ some (.inl a)) :
    ids.foldl sectionAfter ((d.merge u).find s) = d.find s := by
  obtain ⟨i, hi⟩ := List.exists_mem_of_ne_nil ids hne
  have hSn : S ≠ .nil := by
    rintro rfl
    exact (hids i).mpr hi rfl
  have hnone : ∀ k, k ∉ ids → S.find k = none :=
    fun k hk => not_not.mp (fun h => hk ((hids k).mp h))
  rw [KeyTree.find_merge_of_some hu]
  rcases hf : d.find s with - | v
  · rw [KeyTree.mergeValue_none, foldl_sectionAfter KeyTree.ordered_nil hS (fun _ _ => rfl) hnone]
    simp [hSn]
  cases v with
  | inl a => exact absurd hf (hobj a)
  | inr x =>
    have hx : x.Ordered := KeyTree.orderedValue_of_find hd hf
    have hxn : x ≠ .nil := by
      rintro rfl
      exact hfull hf
    have hin : ∀ i ∈ ids, x.find i = none := by
      intro i hi
      rw [← KeyTree.child_of_find hf]
      exact hfree i hi
    simp only [KeyTree.mergeValue]
    rw [foldl_sectionAfter hx (KeyTree.ordered_merge hx hS) hin
      (fun k hk => KeyTree.find_merge_of_none (hnone k hk))]
    simp [hxn]

theorem extracted_section {d u S e : KeyTree String α} {ids : List String} (hS : S.Ordered)
    (he : e.Ordered) (hu : u.find s = some (.inr S)) (hids : ∀ k, S.find k ≠ none ↔ k ∈ ids)
    (hfree : ∀ i ∈ ids, d.get [s, i] = none)
    (hfind : ∀ i, e.find i = if i ∈ ids then (d.merge u).get [s, i] else none) : e = S := by
  refine KeyTree.ext_of_find he hS (fun i => ?_)
  rw [hfind]
  split
  · rename_i hi
    obtain ⟨v, hv⟩ := Option.ne_none_iff_exists'.mp ((hids i).mpr hi)
    have hget : u.get [s, i] = some v := by
      rw [get_pair, KeyTree.child_of_find hu, hv]
    rw [KeyTree.get_merge_of_get d hget, hfree i hi, KeyTree.mergeValue_none, hv]
  · rename_i hi
    exact (not_not.mp (fun h => hi ((hids i).mp h))).symm

theorem idsOf_servers_ne_nil (h : m.mcpServers ≠ []) : idsOf (sortedPairs m) "mcpServers" ≠ [] := by
  obtain ⟨s, hs⟩ := List.exists_mem_of_ne_nil _ h
  exact List.ne_nil_of_mem (mem_idsOf_servers.mpr (List.mem_map_of_mem hs))

theorem idsOf_agents_eq_nil : idsOf (sortedPairs m) "a2aAgents" = [] ↔ m.a2aAgents = [] := by
  rw [List.eq_nil_iff_forall_not_mem]
  simp only [mem_idsOf_agents, List.mem_map, not_exists, not_and]
  rw [List.eq_nil_iff_forall_not_mem]
  exact ⟨fun h a ha => h a.id a ha rfl, fun h i a ha => absurd ha (h a)⟩

theorem mem_idsOf_iff {i : String} : i ∈ idsOf (sortedPairs m) s ↔ (s, i) ∈ contributedPairs m := by
  rw [← mem_sortedPairs]
  simp only [idsOf, List.mem_map, List.mem_filter, decide_eq_true_eq]
  constructor
  · rintro ⟨⟨c, j⟩, ⟨hp, rfl⟩, rfl⟩
    exact hp
  · intro hp
    exact ⟨(s, i), ⟨hp, rfl⟩, rfl⟩

theorem render_of_ids (cred : String) (h : idsOf (sortedPairs m) s ≠ []) :
    ∃ S, S.Ordered ∧ (renderMcpJSON str m cred).find s = some (.inr S) ∧
      ∀ k, S.find k ≠ none ↔ k ∈ idsOf (sortedPairs m) s := by
  by_cases hm : s = "mcpServers"
  · subst hm
    exact ⟨_, ordered_renderSection str _ _ _, find_render_servers str m cred,
      fun k => (find_renderSection str _ _ _ k).trans mem_idsOf_servers.symm⟩
  by_cases ha : s = "a2aAgents"
  · subst ha
    exact ⟨_, ordered_renderSection str _ _ _,
      by rw [find_render_agents, if_neg ((not_congr idsOf_agents_eq_nil).mp h)],
      fun k => (find_renderSection str _ _ _ k).trans mem_idsOf_agents.symm⟩
  · exact absurd (idsOf_other hm ha) h

theorem render_of_no_ids (cred : String) (hservers : m.mcpServers ≠ [])
    (h : idsOf (sortedPairs m) s = []) : (renderMcpJSON str m cred).find s = none := by
  by_cases hm : s = "mcpServers"
  · subst hm
    exact absurd h (idsOf_servers_ne_nil hservers)
  by_cases ha : s = "a2aAgents"
  · subst ha
    rw [find_render_agents, if_pos (idsOf_agents_eq_nil.mp h)]
  · exact find_render_other str m cred hm ha

theorem render_of_pair (cred : String) (hp : p ∈ contributedPairs m) :
    ∃ S, (renderMcpJSON str m cred).find p.1 = some (.inr S) ∧ S.find p.2 ≠ none := by
  have hi : p.2 ∈ idsOf (sortedPairs m) p.1 := mem_idsOf_iff.mpr hp
  obtain ⟨S, -, hS, hids⟩ := render_of_ids str cred (List.ne_nil_of_mem hi)
  exact ⟨S, hS, (hids p.2).mpr hi⟩

theorem get_render_pair (cred : String) (hp : p ∈ contributedPairs m) :
    ∃ v, (renderMcpJSON str m cred).get [p.1, p.2] = some v := by
  obtain ⟨S, hS, hne⟩ := render_of_pair str cred hp
  rw [get_pair, KeyTree.child_of_find hS]
  exact Option.ne_none_iff_exists'.mp hne

theorem prune_merge (cred : String) (hfree : ∀ p ∈ contributedPairs m, d.tree.get [p.1, p.2] = none)
    (hfull : ∀ p ∈ contributedPairs m, d.tree.find p.1 ≠ some (.inr .nil))
    (hservers : m.mcpServers ≠ []) (hdot : ∀ p ∈ contributedPairs m, DotFree p.2)
    (hobj : ∀ p ∈ contributedPairs m, ∀ a, d.tree.find p.1 ≠ some (.inl a)) :
    (contributedKeys m).foldl pruneDottedKey (d.tree.merge (renderMcpJSON str m cred)) =
      d.tree := by
  have hplain := plainPair_of_dotFree hdot
  refine KeyTree.ext_of_find (ordered_pruneAll (KeyTree.ordered_merge d.ordered
    (ordered_renderMcpJSON str m cred)) _) d.ordered (fun s => ?_)
  rw [contributedKeys, find_pruneAll_pairs _ hplain]
  by_cases hne : idsOf (sortedPairs m) s = []
  · rw [hne]
    exact KeyTree.find_merge_of_none (render_of_no_ids str cred hservers hne)
  · obtain ⟨S, hS, hfind, hids⟩ := render_of_ids str cred hne
    obtain ⟨i, hi⟩ := List.exists_mem_of_ne_nil _ hne
    have hpair := mem_idsOf_iff.mp hi
    exact section_restored d.ordered hS hfind hids hne (fun i hi => hfree _ (mem_idsOf_iff.mp hi))
      (hfull _ hpair) (hobj _ hpair)

theorem extract_merge (cred : String)
    (hfree : ∀ p ∈ contributedPairs m, d.tree.get [p.1, p.2] = none) (hservers : m.mcpServers ≠ [])
    (hdot : ∀ p ∈ contributedPairs m, DotFree p.2) :
    (extractByKeys (d.tree.merge (renderMcpJSON str m cred)) (contributedKeys m)).1 =
      renderMcpJSON str m cred := by
  have hplain := plainPair_of_dotFree hdot
  have hmerged := KeyTree.ordered_merge d.ordered (ordered_renderMcpJSON str m cred)
  have hex := ordered_extractByKeys hmerged (contributedKeys m)
  have hpres : ∀ p ∈ sortedPairs m,
      ∃ v, (d.tree.merge (renderMcpJSON str m cred)).get [p.1, p.2] = some v := by
    intro p hp
    obtain ⟨v, hv⟩ := get_render_pair str cred (mem_sortedPairs.mp hp)
    exact ⟨_, KeyTree.get_merge_of_get d.tree hv⟩
  have hchild := fun s i => find_child_extract hplain hpres (.nil, false) s i
  refine KeyTree.ext_of_find hex (ordered_renderMcpJSON str m cred) (fun s => ?_)
  have hfind := find_extract hplain hpres (.nil, false) s
  change (extractByKeys _ (contributedKeys m)).1.find s = _ at hfind
  rw [hfind]
  by_cases hne : idsOf (sortedPairs m) s = []
  · rw [if_pos hne, render_of_no_ids str cred hservers hne]
    rfl
  · obtain ⟨S, hS, hrender, hids⟩ := render_of_ids str cred hne
    rw [if_neg hne, hrender]
    refine congrArg (fun t => some (Sum.inr t)) ?_
    exact extracted_section hS (KeyTree.ordered_child hex _) hrender hids
      (fun i hi => hfree _ (mem_idsOf_iff.mp hi)) (fun i => hchild s i)

theorem splitPath_contributed (hp : p ∈ contributedPairs m) :
    splitPath (pairKey p) = p.1 :: splitPath p.2 := by
  rw [pairKey, splitPath_append_dot, splitPath_of_dotFree (section_dotFree hp).2]
  rfl

theorem servers_ne_nil_of_extract {src : KeyTree String α}
    (h : (extractByKeys src (contributedKeys m)).1 = renderMcpJSON str m cred) :
    m.mcpServers ≠ [] := by
  intro hn
  have hapart : ∀ k ∈ contributedKeys m, Apart (splitPath k) ["mcpServers"] := by
    intro k hk
    obtain ⟨p, hp, rfl⟩ := List.mem_map.mp hk
    have hmem := mem_sortedPairs.mp hp
    rw [splitPath_contributed hmem]
    obtain ⟨s, hs, rfl⟩ | ⟨a, _, rfl⟩ := mem_contributedPairs.mp hmem
    · simp [hn] at hs
    · simp
  have hget := get_extract_of_apart src hapart (.nil, false)
  change (extractByKeys src (contributedKeys m)).1.find "mcpServers" = none at hget
  rw [h, find_render_servers] at hget
  simp at hget

theorem dotFree_of_extract {src : KeyTree String α}
    (h : (extractByKeys src (contributedKeys m)).1 = renderMcpJSON str m cred) :
    ∀ p ∈ contributedPairs m, DotFree p.2 := by
  intro p hp
  by_contra hdot
  have hapart : ∀ k ∈ contributedKeys m, Apart (splitPath k) [p.1, p.2] := by
    intro k hk
    obtain ⟨q, hq, rfl⟩ := List.mem_map.mp hk
    rw [splitPath_contributed (mem_sortedPairs.mp hq), Apart.cons_cons]
    exact .inr ⟨fun hpre => hdot (dotFree_of_prefix_splitPath hpre),
      fun hpre => hdot (dotFree_of_mem_splitPath (hpre.subset (by simp)))⟩
  have hget := get_extract_of_apart src hapart (.nil, false)
  obtain ⟨v, hv⟩ := get_render_pair str cred hp
  change (extractByKeys src (contributedKeys m)).1.get _ = none at hget
  rw [h, hv] at hget
  simp at hget

theorem objects_of_prune (hdot : ∀ p ∈ contributedPairs m, DotFree p.2)
    (h : (contributedKeys m).foldl pruneDottedKey (d.tree.merge (renderMcpJSON str m cred)) =
      d.tree) :
    ∀ p ∈ contributedPairs m, ∀ a, d.tree.find p.1 ≠ some (.inl a) := by
  intro p hp a hf
  obtain ⟨S, hS, -⟩ := render_of_pair str cred hp
  have hfind := find_pruneAll_pairs (d.tree.merge (renderMcpJSON str m cred))
    (plainPair_of_dotFree hdot) p.1
  rw [← contributedKeys, h, hf, KeyTree.find_merge_of_some hS, hf] at hfind
  exact foldl_sectionAfter_object S _ a hfind.symm

theorem pruneDottedKeys_eq (t : KeyTree String α) (keys : List String) (d : KeyTree String α) :
    pruneDottedKeys t keys = (if d = .nil then none else some d) ↔
      keys.foldl pruneDottedKey t = d := by
  unfold pruneDottedKeys
  split
  · rename_i hn
    rw [hn]
    by_cases hd : d = .nil <;> simp [hd, eq_comm]
  · rename_i hn
    by_cases hd : d = .nil
    · subst hd
      simpa using hn
    · simp [hd]

/-- Merging what an environment renders and pruning its keys again is the identity exactly when
no id holds a dot, some MCP server is rendered and no section of the document is a scalar. -/
theorem inverted_iff (d : Doc α) (m : Manifest) (cred : String)
    (hfree : ∀ p ∈ contributedPairs m, d.tree.get [p.1, p.2] = none)
    (hfull : ∀ p ∈ contributedPairs m, d.tree.find p.1 ≠ some (.inr .nil)) :
    Inverted str d m cred ↔
      m.mcpServers ≠ [] ∧ (∀ p ∈ contributedPairs m, DotFree p.2) ∧
        ∀ p ∈ contributedPairs m, ∀ a, d.tree.find p.1 ≠ some (.inl a) := by
  unfold Inverted
  dsimp only
  rw [pruneDottedKeys_eq]
  constructor
  · rintro ⟨hprune, hextract⟩
    have hdot := dotFree_of_extract str hextract
    exact ⟨servers_ne_nil_of_extract str hextract, hdot, objects_of_prune str hdot hprune⟩
  · rintro ⟨hservers, hdot, hobj⟩
    exact ⟨prune_merge str cred hfree hfull hservers hdot hobj,
      extract_merge str cred hfree hservers hdot⟩

def userDoc : Doc String where
  tree := .node "mcpServers" (.leaf "mine" "local" .nil) (.leaf "theme" "dark" .nil)
  ordered := by decide

def plainManifest : Manifest where
  environment := "dev"
  mcpServers := [⟨"git", "u"⟩]
  a2aAgents := [⟨"ops", "v"⟩]

theorem inverted_plain : Inverted id userDoc plainManifest "k" :=
  (inverted_iff id userDoc plainManifest "k" (by decide) (by decide)).mpr
    ⟨by decide, by decide, by simp [contributedPairs, plainManifest, userDoc, KeyTree.find]⟩

def emptyDoc : Doc String := ⟨.nil, KeyTree.ordered_nil⟩

def dottedManifest : Manifest where
  environment := ""
  mcpServers := [⟨"a.b", "u"⟩]
  a2aAgents := []

/-- An admissible id with a dot is merged under one key and looked for under two. -/
theorem not_inverted_dotted :
    AdmissibleId "a.b" ∧
      (∀ p ∈ contributedPairs dottedManifest, getDottedKey emptyDoc.tree (pairKey p) = none) ∧
      pruneDottedKeys (deepMergeInto emptyDoc.tree (renderMcpJSON id dottedManifest ""))
        (contributedKeys dottedManifest) = some (renderMcpJSON id dottedManifest "") ∧
      ¬ Inverted id emptyDoc dottedManifest "" := by
  refine ⟨by simp [AdmissibleId], by decide, by decide, ?_⟩
  unfold Inverted
  decide

end AchProofs.Cli.MergeInverse
