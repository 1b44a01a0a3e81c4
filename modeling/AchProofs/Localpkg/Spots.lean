import AchProofs.Localpkg.CacheTransparent
import AchProofs.Skills.Transports

namespace AchProofs.Localpkg

open Foundation Foundation.Links Foundation.Percent Cli.Extract Contentkit Gitfetch Skills

def fileLeaf (body : Bytes) (exec : Bool) : Leaf :=
  .file body (maskMode (if exec then 0o755 else 0o644))

/-- What an item makes of a place when it is staged: itself, or a directory above it. -/
def touch (q : List Name) : List Name × Item → Option Leaf
  | (n, .dir) => if q <+: n then some .dir else none
  | (n, .file body exec) =>
    if q = n then some (fileLeaf body exec)
    else if q <+: n then some .dir
    else none
  | (_, .link _) => none

/-- Of several items the last one stays. -/
def laidAt (xs : List (List Name × Item)) (q : List Name) : Option Leaf :=
  xs.reverse.findSome? (touch q)

/-- The directory or file at a place of a commit's tree. -/
def leafAt (t : Worktree) (p : List Name) : Option Leaf :=
  match t.find p with
  | some .dir => some .dir
  | some (.file body exec) => some (fileLeaf body exec)
  | _ => none

section Laid

variable {α β : Type} {c : Tar} {t : Worktree} {p q : List Name} {x : List Name × Item}

theorem findSome?_eq {l : List α} {f : α → Option β} {o : Option β}
    (hall : ∀ x ∈ l, f x = none ∨ f x = o) (hsome : o ≠ none → ∃ x ∈ l, f x ≠ none) :
    l.findSome? f = o := by
  cases h : l.findSome? f with
  | none =>
    by_contra ho
    obtain ⟨x, hx, hne⟩ := hsome fun h => ho h.symm
    exact hne (List.findSome?_eq_none_iff.mp h x hx)
  | some b =>
    obtain ⟨x, hx, hb⟩ := List.exists_of_findSome?_eq_some h
    obtain hnone | ho := hall x hx
    · rw [hb] at hnone
      cases hnone
    · exact hb.symm.trans ho

theorem foldl_put {g : α → Option Member} {f : α → Option Leaf} {l : List α}
    (h : ∀ x ∈ l, ∀ s : Staged, (g x).elim s s.put q = (f x).or (s q)) (s : Staged) :
    (l.filterMap g).foldl Staged.put s q = (l.reverse.findSome? f).or (s q) := by
  induction l generalizing s with
  | nil => rfl
  | cons x l ih =>
    obtain ⟨hx, hl⟩ := List.forall_mem_cons.mp h
    have hlast : ((x :: l).reverse.findSome? f).or (s q) =
        (l.reverse.findSome? f).or ((g x).elim s s.put q) := by
      rw [hx s, List.reverse_cons, List.findSome?_append, Option.or_assoc]
      cases hf : f x <;> simp [hf]
    rw [hlast, ← ih hl, List.filterMap_cons]
    cases g x <;> rfl

theorem place_member {ns : List Name} {text : Text} (h : Spells ns text) (hne : ns ≠ [])
    (hp : ∀ n ∈ ns, proper n) (flag : Typeflag) (mode : ℕ) (body : Bytes) :
    place (c.member text flag mode body) = ns := by
  show (normal (parse text).parts).2 = ns
  rw [parse_spells h hne hp, normal_names]

theorem put_member {ns : List Name} {text : Text} (h : Spells ns text) (hne : ns ≠ [])
    (hp : ∀ n ∈ ns, proper n) (it : Item) (s : Staged) :
    s.put (c.member text (Item.flag it) (Item.mode it) (Item.body it)) q =
      (touch q (ns, it)).or (s q) := by
  have hplace := place_member (c := c) h hne hp
  cases it with
  | dir =>
    show (if q <+: place (c.member text .dir _ _) then some Leaf.dir else s q) = _
    rw [hplace, touch]
    split_ifs <;> rfl
  | file body exec =>
    show (if q = place (c.member text .reg _ body) then some (fileLeaf body exec)
      else if q <+: place (c.member text .reg _ body) then some .dir else s q) = _
    rw [hplace, touch]
    split_ifs <;> rfl
  | link target => rfl

theorem put_pack {slash : Text} (hslash : ∀ ns, Spells ns (render ns ++ slash))
    (hx : x.1 ≠ [] ∧ ∀ n ∈ x.1, proper n) (s : Staged) :
    (c.pack slash x).elim s s.put q = (touch q x).or (s q) := by
  obtain ⟨n, it⟩ := x
  cases it with
  | dir => exact put_member (hslash n) hx.1 hx.2 .dir s
  | file body exec => exact put_member .bare hx.1 hx.2 (.file body exec) s
  | link target => rfl

theorem touch_append (a q r : List Name) (it : Item) :
    touch (a ++ q) (a ++ r, it) = touch q (r, it) := by
  cases it <;> simp [touch, List.prefix_append_right_inj]

theorem touch_of_not_prefix (h : ¬ q <+: x.1) : touch q x = none := by
  obtain ⟨n, it⟩ := x
  have hne : q ≠ n := fun he => h (he ▸ List.prefix_rfl)
  cases it <;> simp_all [touch]

theorem mem_below {n : List Name} {it : Item} :
    (n, it) ∈ t.below p ↔ n ≠ [] ∧ (p ++ n, it) ∈ t.items := by
  rw [Worktree.below, List.mem_filterMap]
  constructor
  · rintro ⟨⟨m, it'⟩, hm, h⟩
    split_ifs at h with hpre
    obtain ⟨⟨r, rfl⟩, hne⟩ := hpre
    cases h
    refine ⟨fun hr => hne ?_, ?_⟩
    · rw [List.drop_left] at hr
      rw [hr, List.append_nil]
    · rwa [List.drop_left]
  · rintro ⟨hn, hm⟩
    refine ⟨_, hm, ?_⟩
    rw [if_pos ⟨List.prefix_append p n, by simpa using hn⟩, List.drop_left]

theorem leafAt_of_touch (hx : x ∈ t.below p) (h : touch q x ≠ none) :
    touch q x = leafAt t (p ++ q) := by
  obtain ⟨n, it⟩ := x
  obtain ⟨hn, hmem⟩ := mem_below.mp hx
  have hfind : t.find (p ++ n) = some it := (find_eq_some_iff (by simp [hn])).mpr hmem
  have habove : q <+: n → q ≠ n → t.find (p ++ q) = some .dir := by
    rintro ⟨r, rfl⟩ hne
    rw [← List.append_assoc] at hfind
    exact find_above hfind (by simpa using hne)
  cases it with
  | link target => exact absurd rfl h
  | dir =>
    have hpre : q <+: n := by
      by_contra hpre
      exact h (if_neg hpre)
    rw [touch, if_pos hpre]
    by_cases hq : q = n
    · rw [hq, leafAt, hfind]
    · rw [leafAt, habove hpre hq]
  | file body exec =>
    rw [touch] at h ⊢
    by_cases hq : q = n
    · rw [if_pos hq, hq, leafAt, hfind]
    · rw [if_neg hq] at h ⊢
      have hpre : q <+: n := by
        by_contra hpre
        exact h (if_neg hpre)
      rw [if_pos hpre, leafAt, habove hpre hq]

theorem laidAt_below (hne : ∃ x ∈ t.below p, touch [] x ≠ none) (q : List Name) :
    laidAt (t.below p) q = leafAt t (p ++ q) := by
  refine findSome?_eq (fun x hx => ?_) fun hleaf => ?_
  · rw [List.mem_reverse] at hx
    by_cases h : touch q x = none
    · exact .inl h
    · exact .inr (leafAt_of_touch hx h)
  · by_cases hq : q = []
    · obtain ⟨x, hx, h⟩ := hne
      exact ⟨x, List.mem_reverse.mpr hx, hq ▸ h⟩
    · have hpq : p ++ q ≠ [] := by simp [hq]
      rw [leafAt] at hleaf
      cases hfind : t.find (p ++ q) with
      | none => simp [hfind] at hleaf
      | some it =>
        refine ⟨(q, it), List.mem_reverse.mpr (mem_below.mpr ⟨hq, (find_eq_some_iff hpq).mp hfind⟩),
          ?_⟩
        cases it with
        | link target => simp [hfind] at hleaf
        | dir => simp [touch]
        | file body exec => simp [touch]

/-- An archive of what is below a directory is staged as the directory. -/
theorem foldl_put_below {slash : Text} (hslash : ∀ ns, Spells ns (render ns ++ slash))
    (hne : (t.below p).filterMap (c.pack slash) ≠ []) :
    ((t.below p).filterMap (c.pack slash)).foldl Staged.put (fun _ => none) =
      fun q => leafAt t (p ++ q) := by
  funext q
  rw [foldl_put (fun x hx s => put_pack hslash (below_named x hx) s), Option.or_none]
  refine laidAt_below ?_ q
  obtain ⟨m, hm⟩ := List.exists_mem_of_ne_nil _ hne
  obtain ⟨⟨n, it⟩, hx, hpack⟩ := List.mem_filterMap.mp hm
  refine ⟨_, hx, ?_⟩
  cases it with
  | link target => cases hpack
  | dir => simp [touch]
  | file body exec => simp [touch]; split_ifs <;> simp

end Laid

section Skill

variable {w : World} {fm : Frontmatter} {host : Host} {ms : List Member} {name sha : Text}
  {s : Staged}
  {r : Resolved} {t : Worktree}

/-- The archive has a manifest in the directory, which is the root or one below it. -/
def Manifest (ms : List Member) (dir : List Name) : Prop :=
  dir.length ≤ 1 ∧ ∃ m ∈ ms, m.typeflag = .reg ∧ place m = dir ++ [skillFile]

theorem manifest_iff {dir : List Name} :
    (∃ h ∈ ms.map (header · 0), ManifestEntry h ∧ h.rel = dir ++ [skillFile]) ↔
      Manifest ms dir := by
  constructor
  · rintro ⟨h, hh, ⟨hreg, hshape⟩, hrel⟩
    obtain ⟨m, hm, rfl⟩ := List.mem_map.mp hh
    refine ⟨?_, m, hm, hreg, hrel⟩
    have hlen := congrArg List.length hrel
    obtain hs | ⟨e, hs⟩ := hshape
    all_goals
      rw [hs] at hlen
      simp only [List.length_append, List.length_cons, List.length_nil] at hlen
      omega
  · rintro ⟨hlen, m, hm, hreg, hrel⟩
    have hrel : (header m 0).rel = dir ++ [skillFile] := hrel
    refine ⟨header m 0, List.mem_map_of_mem hm, ⟨hreg, ?_⟩, hrel⟩
    rcases dir with _ | ⟨e, _ | ⟨e', dir⟩⟩
    · exact .inl hrel
    · exact .inr ⟨e, hrel⟩
    · simp at hlen

theorem stageSkillNested_ok (hplain : ∀ m ∈ ms, m.typeflag ≠ .symlink)
    (h : stageSkillNested host ms name = .ok s) :
    ∃ dir, s = nest (ms.foldl Staged.put fun _ => none) name dir ∧ Manifest ms dir ∧
      ∀ dir', Manifest ms dir' → dir ≤ dir' := by
  unfold stageSkillNested at h
  split at h
  · cases h
  rename_i done hextract
  split at h
  · cases h
  rename_i dir hdir
  cases h
  have hempty : ∀ q, q ≠ [] → host.tree ((skillStageConfig host).dst ++ q) = none := by
    intro q hq
    obtain ⟨n, q, rfl⟩ := List.exists_cons_of_ne_nil hq
    exact host.empty n q
  have hplain : ∀ h ∈ ms.map (header · 0), h.typeflag ≠ .symlink := by
    intro h hh
    obtain ⟨m, hm, rfl⟩ := List.mem_map.mp hh
    exact hplain m hm
  have hentries : ms.map (fun m => (header m 0).entry host.privileged) =
      (ms.map (header · 0)).map (Header.entry host.privileged) := by
    rw [List.map_map]
    rfl
  rw [hentries] at hextract
  have hdisk : extracted (skillStageConfig host) host.privileged host.tree (ms.map (header · 0)) =
      done.disk := by rw [extracted, hextract]
  have hman : ∀ dir, HasManifest done.disk (skillStageConfig host).dst dir ↔ Manifest ms dir := by
    intro dir
    rw [← hdisk, hasManifest_iff hempty hplain (by rw [hextract]), manifest_iff]
  have hmade := fun e => hdisk ▸ extracted_made hempty e
  obtain ⟨hhas, hleast⟩ := (contentDir_eq_some_iff hmade).mp hdir
  exact ⟨dir, rfl, (hman dir).mp hhas, fun dir' h => hleast dir' ((hman dir').mpr h)⟩

theorem stageSkill_ok (h : stageSkill w fm ms sha name = .ok r) :
    ∃ s, stageSkillNested w.host ms name = .ok s ∧ r = ⟨sha, s⟩ := by
  unfold stageSkill at h
  split at h
  · cases h
  · split_ifs at h
    split at h <;> cases h
    rename_i s hs
    exact ⟨s, hs, rfl⟩

/-- The directory of the tree has a manifest, and is the root or one below it. -/
def HasSkill (t : Worktree) (p : List Name) : Prop :=
  p.length ≤ 1 ∧ ∃ body exec, t.find (p ++ [skillFile]) = some (.file body exec)

theorem manifest_packed_iff {c : Tar} {p : List Name} :
    Manifest (packed c t []) p ↔ HasSkill t p := by
  refine and_congr Iff.rfl ⟨?_, ?_⟩
  · rintro ⟨m, hm, hreg, hplace⟩
    rw [packed, below_nil] at hm
    obtain ⟨⟨n, it⟩, hx, hpack⟩ := List.mem_filterMap.mp hm
    obtain ⟨hne, hp⟩ := t.named _ hx
    cases it with
    | dir => cases hpack; cases hreg
    | link target => cases hpack
    | file body exec =>
      cases hpack
      rw [place_member .bare hne hp] at hplace
      exact ⟨body, exec, (find_eq_some_iff (by simp)).mpr (hplace ▸ hx)⟩
  · rintro ⟨body, exec, hfind⟩
    have hx := (find_eq_some_iff (by simp)).mp hfind
    obtain ⟨hne, hp⟩ := t.named _ hx
    refine ⟨c.member (render (p ++ [skillFile])) .reg (if exec then 0o755 else 0o644) body, ?_, rfl,
      place_member .bare hne hp ..⟩
    rw [packed, below_nil]
    exact List.mem_filterMap.mpr ⟨_, hx, rfl⟩

theorem staged_directSkill (h : directSkill w fm (.tar (packed w.tar t [])) sha name = .ok r) :
    ∃ p, HasSkill t p ∧ (∀ p', HasSkill t p' → p ≤ p') ∧ r = ⟨sha, nest (leafAt t) name p⟩ := by
  obtain ⟨s, hs, rfl⟩ := stageSkill_ok h
  have hplain : ∀ m ∈ packed w.tar t [], m.typeflag ≠ .symlink := by
    intro m hm
    obtain ⟨⟨n, it⟩, -, hpack⟩ := List.mem_filterMap.mp hm
    cases it <;> cases hpack <;> simp [Tar.member]
  obtain ⟨p, rfl, hman, hleast⟩ := stageSkillNested_ok hplain hs
  refine ⟨p, manifest_packed_iff.mp hman, fun p' h => hleast p' (manifest_packed_iff.mpr h), ?_⟩
  obtain ⟨-, m, hm, -⟩ := hman
  rw [packed, foldl_put_below (fun _ => .slash) (List.ne_nil_of_mem hm)]
  rfl

theorem nest_congr {s s' : Staged} {dir dir' : List Name} (h : ∀ q, s (dir ++ q) = s' (dir' ++ q)) :
    nest s name dir = nest s' name dir' := by
  funext p
  rcases p with _ | ⟨top, _ | ⟨n, q⟩⟩
  · rfl
  · rfl
  · simp only [nest, h]

theorem put_leaf {c : Tar} {xs : List (List Name × Item)} (hproper : ProperPaths xs)
    {x : List Name × Item} (hx : x ∈ xs) (sub q : List Name) (d : Name) (s : Staged) :
    (leaf c (sub ++ [d]) x).elim s s.put (d :: q) =
    (touch (sub ++ [d] ++ q) x).or (s (d :: q)) := by
  obtain ⟨n, it⟩ := x
  rw [leaf_eq]
  by_cases hpre : sub ++ [d] <+: n
  · have hnames := proper_leaf hproper hx hpre
    rw [if_pos hpre]
    obtain ⟨r, rfl⟩ := hpre
    rw [List.drop_left] at hnames ⊢
    rw [touch_append, ← touch_append [d]]
    exact put_member .bare (List.cons_ne_nil _ _) hnames it s
  · rw [if_neg hpre, touch_of_not_prefix fun h => hpre ((List.prefix_append _ _).trans h)]
    rfl

theorem name_of_skillIn {dir : Text} {body : Bytes} {skill : DiscoveredSkill}
    (h : skillIn fm dir body = some skill) : skill.name = dir := by
  rw [skillIn] at h
  split at h
  · cases h
  · split_ifs at h with hvalid
    cases h
    exact hvalid.2.1

theorem plain_slice {c : Tar} (t : Worktree) (p : List Name) :
    ∀ m ∈ (gitView t).filterMap (leaf c p), m.typeflag ≠ .symlink := by
  intro m hm
  obtain ⟨x, hx, hleaf⟩ := List.mem_filterMap.mp hm
  obtain ⟨y, hy, rfl⟩ := List.mem_map.mp hx
  rw [leaf] at hleaf
  split_ifs at hleaf
  cases hleaf
  exact of_decide_eq_true (List.mem_filter.mp hy).2

theorem dir_of_manifest_slice {c : Tar} {xs : List (List Name × Item)} {sub dir : List Name}
    {d : Name}
    (hd : validSkillName d = true) (hproper : ProperPaths xs)
    (h : Manifest (xs.filterMap (leaf c (sub ++ [d]))) dir) : dir = [d] := by
  obtain ⟨hlen, m, hm, -, hplace⟩ := h
  obtain ⟨x, hx, hleaf⟩ := List.mem_filterMap.mp hm
  rw [leaf_eq] at hleaf
  split_ifs at hleaf with hpre
  cases hleaf
  rw [place_member .bare (List.cons_ne_nil _ _) (proper_leaf hproper hx hpre)] at hplace
  rcases dir with _ | ⟨e, _ | ⟨e', dir⟩⟩
  · obtain ⟨rfl, -⟩ := List.cons.inj hplace
    revert hd
    decide
  · rw [(List.cons.inj hplace).1]
  · simp at hlen

theorem staged_marketplaceSkill {hint : Text}
    (h : marketplaceSkill w fm hint (.tar (packed w.tar t [])) sha name = .ok r) :
    r = ⟨sha, nest (laidAt (gitView t)) name ((clean (hintPath hint)).segs ++ [name])⟩ := by
  have hpacked : packed w.tar t [] = gitArchive w.tar t := by
    rw [packed, below_nil]
    rfl
  have hshow : List.Forall₂ (Shows (commonTop t)) (gitArchive w.tar t) (gitView t) :=
    shows_git w.tar (commonTop t) (properPaths_items t)
  unfold marketplaceSkill at h
  rw [hpacked] at h
  simp only [Tar.read, discoverSkillsInTree_eq hshow (detectArchiveRoot_git w.tar t)
    (distinctFiles_gitView t)] at h
  split_ifs at h
  dsimp only at h
  split at h
  · cases h
  rename_i skill hfind
  split at h
  · cases h
  rename_i sliced hslice
  -- the skill that is found is the directory of its name
  have hmem := List.mem_of_find?_eq_some hfind
  rw [List.mem_mergeSort, List.mem_reverse] at hmem
  obtain ⟨x, hx, hskill⟩ := List.mem_filterMap.mp hmem
  obtain ⟨hpath, body, exec, -, hin⟩ := itemSkill_eq_some hskill
  have hname : skill.dir = name :=
    (name_of_skillIn hin).symm.trans (by simpa using List.find?_some hfind)
  have hproper : proper skill.dir := (properPaths_gitView t x hx).2 _ (by rw [hpath]; simp)
  rw [skillPath, subtreePath_eq hproper] at hslice
  cases habs : (clean (hintPath hint)).absolute with
  | true =>
    rw [habs, sliceSkillSubtree_absolute hshow] at hslice
    cases hslice
  | false =>
    rw [habs] at hslice
    obtain rfl := eq_of_sliceSkillSubtree hshow hslice
    obtain ⟨s, hs, rfl⟩ := stageSkill_ok h
    obtain ⟨dir, rfl, hman, -⟩ := stageSkillNested_ok (plain_slice t _) hs
    rw [hname] at hman ⊢
    rw [dir_of_manifest_slice (hname ▸ (skillIn_valid hin).2) (properPaths_gitView t) hman]
    refine congrArg _ (nest_congr fun q => ?_)
    rw [List.singleton_append,
      foldl_put fun x hx s => put_leaf (properPaths_gitView t) hx _ q name s]
    exact Option.or_none

end Skill

end AchProofs.Localpkg
