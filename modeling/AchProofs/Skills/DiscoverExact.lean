import AchProofs.Skills.Discover

namespace AchProofs.Skills

open Foundation.Links Foundation.Percent Cli.Extract
  Contentkit Gitfetch Localpkg

def Item.flag : Item → Typeflag
  | .dir => .dir
  | .file _ _ => .reg
  | .link _ => .symlink

def Item.mode : Item → ℕ
  | .dir => 0o755
  | .file _ exec => if exec then 0o755 else 0o644
  | .link _ => 0o777

def Item.body : Item → Bytes
  | .file body _ => body
  | _ => []

/-- The member stands for the item, at the path that is left without the root of the archive. -/
structure Shows (root : Name) (m : Member) (x : List Name × Item) : Prop where
  rel : normRel m.name root = ⟨false, x.1⟩
  flag : m.typeflag = Item.flag x.2
  mode : m.mode = Item.mode x.2
  body : m.body = Item.body x.2

def leaf (c : Tar) (p : List Name) (x : List Name × Item) : Option Member :=
  if p <+: x.1 then
    some (c.member (render (p.getLast?.toList ++ x.1.drop p.length)) (Item.flag x.2) (Item.mode x.2)
      (Item.body x.2))
  else none

def DistinctFiles (xs : List (List Name × Item)) : Prop :=
  xs.Pairwise fun x y => Item.flag x.2 = .reg → Item.flag y.2 = .reg → x.1 ≠ y.1

theorem DistinctFiles.eq {xs : List (List Name × Item)} (h : DistinctFiles xs)
    {x y : List Name × Item}
    (hx : x ∈ xs) (hy : y ∈ xs) (hxf : Item.flag x.2 = .reg) (hyf : Item.flag y.2 = .reg)
    (he : x.1 = y.1) : x = y := by
  by_contra hne
  have hsymm : Std.Symm fun x y : List Name × Item =>
      Item.flag x.2 = .reg → Item.flag y.2 = .reg → x.1 ≠ y.1 :=
    ⟨fun _ _ hr hb ha he => hr ha hb he.symm⟩
  exact h.forall hx hy hne hxf hyf he

section View

variable {fm : Frontmatter} {c : Tar} {root : Name} {sub : List Name} {m : Member}
  {x : List Name × Item} {ms : List Member} {xs : List (List Name × Item)}

theorem manifestDir_rel (p : List Name) :
    manifestDir ⟨false, p⟩ = match p with
      | [dir, file] => if file = skillFile then some dir else none
      | _ => none := by
  rcases p with _ | ⟨a, _ | ⟨b, _ | ⟨d, p⟩⟩⟩ <;> rfl

theorem skillOf_shows (h : Shows root m x) : skillOf fm root sub m = itemSkill fm sub x := by
  obtain ⟨p, it⟩ := x
  rw [skillOf, h.flag, h.rel]
  cases it with
  | dir => rfl
  | link target => rfl
  | file body exec =>
    have hreg : Item.flag (p, Item.file body exec).2 = .reg := rfl
    rw [if_pos hreg, relUnderSubPath, itemSkill, h.body]
    by_cases hsub : sub = []
    · subst hsub
      rw [if_pos rfl, if_pos List.nil_prefix, Option.bind_some, manifestDir_rel]
      rcases p with _ | ⟨a, _ | ⟨b, _ | ⟨d, p⟩⟩⟩ <;> simp [Item.body]
      split_ifs <;> rfl
    · rw [if_neg hsub]
      by_cases hpre : sub <+: p
      · rw [if_pos hpre]
        by_cases hne : p = sub
        · rw [if_neg (fun h => h.2.2 hne), hne, List.drop_length]
          rfl
        · rw [if_pos ⟨rfl, hpre, hne⟩, Option.bind_some, manifestDir_rel]
          rcases p.drop sub.length with _ | ⟨a, _ | ⟨b, _ | ⟨d, p⟩⟩⟩ <;> simp [Item.body]
          split_ifs <;> rfl
      · rw [if_neg hpre, if_neg fun h => hpre h.2.1]
        rfl

theorem rerootLeaf_shows (h : Shows root m x) (p : List Name) :
    rerootLeaf c root ⟨false, p⟩ m = leaf c p x := by
  rw [rerootLeaf, h.rel, leaf, h.flag, h.mode, h.body]
  simp

theorem rerootLeaf_absolute (h : Shows root m x) (p : List Name) :
    rerootLeaf c root ⟨true, p⟩ m = none := by
  rw [rerootLeaf, h.rel]
  simp

theorem filterMap_shows {β : Type} {f : Member → Option β} {g : List Name × Item → Option β}
    (hfg : ∀ m x, Shows root m x → f m = g x) (h : List.Forall₂ (Shows root) ms xs) :
    ms.filterMap f = xs.filterMap g := by
  induction h with
  | nil => rfl
  | cons hm _ ih => rw [List.filterMap_cons, List.filterMap_cons, hfg _ _ hm, ih]

theorem itemSkill_eq_some {s : DiscoveredSkill} (h : itemSkill fm sub x = some s) :
    x.1 = sub ++ [s.dir, skillFile] ∧
      ∃ body exec, x.2 = .file body exec ∧ skillIn fm s.dir body = some s := by
  obtain ⟨p, it⟩ := x
  cases it with
  | dir => cases h
  | link target => cases h
  | file body exec =>
    rw [itemSkill] at h
    split_ifs at h with hpre
    obtain ⟨r, rfl⟩ := hpre
    rw [List.drop_left] at h
    rcases r with _ | ⟨dir, _ | ⟨file, _ | ⟨d, r⟩⟩⟩
    · cases h
    · cases h
    · dsimp only at h
      split_ifs at h with hfile
      have hdir : s.dir = dir := by
        rw [skillIn] at h
        split at h
        · cases h
        · split_ifs at h
          cases h
          rfl
      exact ⟨by rw [hdir, hfile], body, exec, rfl, by rw [hdir]; exact h⟩
    · cases h

theorem itemSkill_file {dir : Text} {body : Bytes} {exec : Bool} :
    itemSkill fm sub (sub ++ [dir, skillFile], .file body exec) = skillIn fm dir body := by
  rw [itemSkill, if_pos (List.prefix_append _ _), List.drop_left]
  exact if_pos rfl

theorem discoverLoop_eq (found : List DiscoveredSkill)
    (hnd : ((ms.filterMap (skillOf fm root sub)).reverse ++ found).map DiscoveredSkill.dir |>.Nodup)
    (hle : found.length ≤ skillMarketplaceMaxSkills) :
    discoverLoop fm root sub found ms =
      if found.length + (ms.filterMap (skillOf fm root sub)).length > skillMarketplaceMaxSkills then
        none
      else some ((ms.filterMap (skillOf fm root sub)).reverse ++ found) := by
  induction ms generalizing found with
  | nil =>
    rw [discoverLoop, List.filterMap_nil, List.length_nil, if_neg (by omega)]
    rfl
  | cons m ms ih =>
    rw [discoverLoop]
    cases hs : skillOf fm root sub m with
    | none =>
      rw [List.filterMap_cons_none hs] at hnd ⊢
      exact ih found hnd hle
    | some s =>
      rw [List.filterMap_cons_some hs] at hnd ⊢
      rw [List.reverse_cons, List.append_assoc, List.singleton_append] at hnd ⊢
      have hput : putSkill found s = s :: found := by
        rw [putSkill, List.filter_eq_self.mpr]
        intro y hy
        rw [List.map_append, List.map_cons, List.nodup_append] at hnd
        have hne := (List.nodup_cons.mp hnd.2.1).1
        exact decide_eq_true fun he => hne (List.mem_map.mpr ⟨y, hy, he⟩)
      dsimp only
      rw [hput]
      by_cases hcap : (s :: found).length > skillMarketplaceMaxSkills
      · rw [if_pos hcap, if_pos]
        rw [List.length_cons] at hcap ⊢
        omega
      · rw [if_neg hcap, ih (s :: found) hnd (by omega)]
        simp only [List.length_cons]
        exact if_congr (by omega) rfl rfl

end View

section Verified

variable {fm : Frontmatter} {c : Tar} {ms : List Member}

def ValidManifest (fm : Frontmatter) (body : Bytes) : Prop :=
  ∃ name description, fm (body.take skillMaxManifestBytes) = some (name, description) ∧
    validSkillName name = true ∧ validDescription description = true

theorem skillIn_valid {dir : Text} {body : Bytes} {s : DiscoveredSkill}
    (h : skillIn fm dir body = some s) :
    ValidManifest fm body ∧ validSkillName dir = true := by
  rw [skillIn] at h
  split at h
  · cases h
  · rename_i name description hfm
    split_ifs at h with hvalid
    exact ⟨⟨name, description, hfm, hvalid.1, hvalid.2.2⟩, hvalid.2.1 ▸ hvalid.1⟩

def isManifest (m : Member) : Bool := m.typeflag = .reg && skillManifest (header m 0)

theorem markSkill_valid {m : Member} {k : ℕ} {found : Bool}
    (hvalid : isManifest m = true → ValidManifest fm m.body) :
    markSkill { header m k with frontmatter := fm (m.body.take skillMaxManifestBytes) } found =
      .ok (found || isManifest m) := by
  have hname :
      skillManifest { header m k with frontmatter := fm (m.body.take skillMaxManifestBytes) } =
      skillManifest (header m 0) := rfl
  rw [markSkill, hname]
  cases found with
  | true => rfl
  | false =>
    by_cases hm : isManifest m = true
    · obtain ⟨name, description, hfm, hn, hd⟩ := hvalid hm
      have hboth := hm
      rw [isManifest, Bool.and_eq_true, decide_eq_true_eq] at hboth
      rw [if_neg, hm]
      · dsimp only
        rw [hfm]
        dsimp only
        rw [validDescription, Bool.and_eq_true, decide_eq_true_eq, decide_eq_true_eq] at hd
        rw [if_neg (not_not.mpr hn), if_neg]
        · rfl
        · rintro (h | h)
          · exact hd.1 h
          · omega
      · rintro (h | h | h)
        · cases h
        · exact h hboth.1
        · exact h hboth.2
    · rw [if_pos, Bool.eq_false_of_not_eq_true hm]
      · rfl
      · rw [isManifest, Bool.and_eq_true, decide_eq_true_eq, not_and_or] at hm
        exact .inr hm

theorem verifyWalk_skill_iff {k seen : ℕ} {found r : Bool}
    (hvalid : ∀ m ∈ ms, isManifest m = true → ValidManifest fm m.body)
    (hseen : seen ≤ maxVerifyEntries) :
    verifyWalk markSkill seen found (skillHeaders fm k ms) = .ok r ↔
      seen + ms.length ≤ maxVerifyEntries ∧
        (∀ h ∈ headers k ms, h.offset ≤ maxVerifyDecompressedBytes) ∧
        (∀ m ∈ ms, tarEntrySafe (header m 0) = none) ∧ r = (found || ms.any isManifest) := by
  induction ms generalizing k seen found with
  | nil =>
    rw [skillHeaders, verifyWalk, headers]
    simp [hseen, eq_comm]
  | cons m ms ih =>
    obtain ⟨hm, hms⟩ := List.forall_mem_cons.mp hvalid
    have hsafe : tarEntrySafe { header m (k + 512) with
        frontmatter := fm (m.body.take skillMaxManifestBytes) } = tarEntrySafe (header m 0) := rfl
    rw [skillHeaders, verifyWalk, headers, hsafe, markSkill_valid hm]
    by_cases hcap : seen + 1 > maxVerifyEntries
    · rw [if_pos hcap]
      refine iff_of_false (by simp) ?_
      rw [List.length_cons]
      omega
    rw [if_neg hcap]
    by_cases hoff : k + 512 > maxVerifyDecompressedBytes
    · rw [if_pos (show (header m (k + 512)).offset > _ from hoff)]
      refine iff_of_false (by simp) fun h => ?_
      have := h.2.1 _ (List.mem_cons_self ..)
      exact absurd this (Nat.not_le.mpr hoff)
    rw [if_neg (show ¬ (header m (k + 512)).offset > _ from hoff)]
    cases hs : tarEntrySafe (header m 0) with
    | some u =>
      refine iff_of_false (by simp) fun h => ?_
      have := h.2.2.1 m (List.mem_cons_self ..)
      rw [hs] at this
      cases this
    | none =>
      dsimp only
      rw [ih hms (by omega), List.length_cons, List.forall_mem_cons, List.forall_mem_cons,
        List.any_cons, Bool.or_assoc]
      have hle : (header m (k + 512)).offset ≤ maxVerifyDecompressedBytes := Nat.not_lt.mp hoff
      constructor
      · rintro ⟨h₁, h₂, h₃, h₄⟩
        exact ⟨by omega, ⟨hle, h₂⟩, ⟨hs, h₃⟩, h₄⟩
      · rintro ⟨h₁, ⟨-, h₂⟩, ⟨-, h₃⟩, h₄⟩
        exact ⟨by omega, h₂, h₃, h₄⟩

theorem verifySkillContents_iff (hvalid : ∀ m ∈ ms, isManifest m = true → ValidManifest fm m.body)
    (hsome : ms.any isManifest = true) :
    verifySkillContents (skillHeaders fm 0 ms) = .ok () ↔
      ms.length ≤ maxVerifyEntries ∧ (∀ h ∈ headers 0 ms, h.offset ≤ maxVerifyDecompressedBytes) ∧
        ∀ m ∈ ms, tarEntrySafe (header m 0) = none := by
  rw [verifySkillContents, verify]
  constructor
  · intro h
    cases hw : verifyWalk markSkill 0 false (skillHeaders fm 0 ms) with
    | error e =>
      rw [hw] at h
      cases h
    | ok r =>
      obtain ⟨h₁, h₂, h₃, -⟩ := (verifyWalk_skill_iff hvalid (Nat.zero_le _)).mp hw
      exact ⟨by omega, h₂, h₃⟩
  · rintro ⟨h₁, h₂, h₃⟩
    rw [(verifyWalk_skill_iff hvalid (Nat.zero_le _)).mpr ⟨by omega, h₂, h₃, rfl⟩, hsome]
    rfl

end Verified

section Leaf

variable {fm : Frontmatter} {c : Tar}

variable {a : Char} {ns : List Name}

theorem mem_intercalate {sep : Char} {ns : List (List Char)} (h : a ∈ [sep].intercalate ns) :
    a = sep ∨ ∃ n ∈ ns, a ∈ n := by
  induction ns with
  | nil => simp [List.intercalate] at h
  | cons n ns ih =>
    cases ns with
    | nil =>
      rw [List.intercalate_singleton] at h
      exact .inr ⟨n, by simp, h⟩
    | cons n' ns =>
      rw [List.intercalate_cons_cons, List.mem_append, List.mem_append, List.mem_singleton] at h
      obtain (h | h) | h := h
      · exact .inr ⟨n, by simp, h⟩
      · exact .inl h
      · obtain h | ⟨m, hm, h⟩ := ih h
        · exact .inl h
        · exact .inr ⟨m, List.mem_cons_of_mem _ hm, h⟩

theorem mem_render_of_mem {n : Name} (hn : n ∈ ns) (h : a ∈ n) : a ∈ render ns := by
  induction ns with
  | nil => cases hn
  | cons n' ns ih =>
    cases ns with
    | nil =>
      rw [render, List.intercalate_singleton, ← List.mem_singleton.mp hn]
      exact h
    | cons m ns =>
      rw [render, List.intercalate_cons_cons, List.mem_append, List.mem_append]
      obtain rfl | hn := List.mem_cons.mp hn
      · exact .inl (.inl h)
      · exact .inr (ih hn)

theorem mem_of_validSkillName {d : Text} (h : validSkillName d = true) (ha : a ∈ d) :
    a = '-' ∨ lowerAlnum a = true := by
  rw [validSkillName, Bool.and_eq_true, List.all_eq_true] at h
  have hjoin : ['-'].intercalate (d.splitOn '-') = d := List.intercalate_splitOn '-'
  rw [← hjoin] at ha
  obtain ha | ⟨n, hn, ha⟩ := mem_intercalate ha
  · exact .inl ha
  · have hall := h.2 n hn
    rw [Bool.and_eq_true, List.all_eq_true] at hall
    exact .inr (hall.2 a ha)

theorem not_windowsVolume {d : Text} (h : validSkillName d = true) (ns : List Name) :
    hasWindowsVolume (render (d :: ns)) = false := by
  have hcolon : ':' ∉ d := fun hm => by
    obtain h | h := mem_of_validSkillName h hm <;> exact absurd h (by decide)
  obtain ⟨tail, htail, hslash⟩ : ∃ tail, render (d :: ns) = d ++ tail ∧ tail.head? ≠ some ':' := by
    cases ns with
    | nil => exact ⟨[], by simp [render, List.intercalate_singleton], by simp⟩
    | cons n ns =>
        exact ⟨'/' :: render (n :: ns), by simp [render, List.intercalate_cons_cons], by simp⟩
  rw [htail]
  rcases d with _ | ⟨a, _ | ⟨b, d⟩⟩
  · rcases tail with _ | ⟨a, _ | ⟨b, tail⟩⟩
    · rfl
    · rfl
    · exact absurd h (by decide)
  · rcases tail with _ | ⟨b, tail⟩
    · rfl
    · have hb : b ≠ ':' := fun he => hslash (by rw [he]; rfl)
      simp [hasWindowsVolume, hb]
  · have hb : b ≠ ':' := fun he => hcolon (by simp [he])
    simp [hasWindowsVolume, hb]

theorem safeRelLexical_skill {d : Text} (h : validSkillName d = true)
    (hp : ∀ n ∈ d :: ns, proper n) :
    safeRelLexical (render (d :: ns)) = none ↔ ∀ n ∈ ns, '\\' ∉ n := by
  have hempty : render (d :: ns) ≠ [] := by
    intro he
    have hparse := parse_spells .bare (List.cons_ne_nil d ns) hp
    rw [he] at hparse
    cases hparse
  have hback : '\\' ∈ render (d :: ns) ↔ ∃ n ∈ ns, '\\' ∈ n := by
    constructor
    · intro hm
      obtain hsep | ⟨n, hn, hmem⟩ := mem_intercalate hm
      · exact absurd hsep (by decide)
      · obtain rfl | hn := List.mem_cons.mp hn
        · obtain h | h := mem_of_validSkillName h hmem <;> exact absurd h (by decide)
        · exact ⟨n, hn, hmem⟩
    · rintro ⟨n, hn, hm⟩
      exact mem_render_of_mem (List.mem_cons_of_mem _ hn) hm
  rw [safeRelLexical, if_neg hempty, not_windowsVolume h,
    parse_spells .bare (List.cons_ne_nil d ns) hp, normal_names]
  by_cases hb : '\\' ∈ render (d :: ns)
  · rw [if_pos hb]
    obtain ⟨n, hn, hm⟩ := hback.mp hb
    exact iff_of_false (nomatch ·) fun hall => hall n hn hm
  · rw [if_neg hb]
    refine iff_of_true rfl fun n hn hm => hb (hback.mpr ⟨n, hn, hm⟩)

theorem tarEntrySafe_leaf {d : Text} {it : Item} (h : validSkillName d = true)
    (hp : ∀ n ∈ d :: ns, proper n) :
    tarEntrySafe
      (header (c.member (render (d :: ns)) (Item.flag it) (Item.mode it) (Item.body it)) 0) =
        none ↔ (∀ target, it ≠ .link target) ∧ ∀ n ∈ ns, '\\' ∉ n := by
  rw [tarEntrySafe_member, ← safeRelLexical_skill h hp]
  cases hs : safeRelLexical (render (d :: ns)) with
  | some r => exact iff_of_false (nomatch ·) fun h => nomatch h.2
  | none =>
    have hrel :
        ∀ flag mode body, (header (c.member (render (d :: ns)) flag mode body) 0).rel = d :: ns :=
      fun flag mode body => by
        show (normal (parse (render (d :: ns))).parts).2 = d :: ns
        rw [parse_spells .bare (List.cons_ne_nil d ns) hp, normal_names]
    dsimp only
    rw [typeflagSafe, hrel]
    cases it with
    | dir => exact iff_of_true rfl ⟨fun _ => nofun, rfl⟩
    | file body exec => exact iff_of_true rfl ⟨fun _ => nofun, rfl⟩
    | link target => exact iff_of_false (nomatch ·) fun h => h.1 target rfl

theorem cleanName_render (hne : ns ≠ []) (hp : ∀ n ∈ ns, proper n) :
    cleanName (render ns) = ⟨false, ns⟩ := clean_spells .bare hne hp

theorem isManifest_leaf {d : Text} {it : Item} (h : validSkillName d = true)
    (hp : ∀ n ∈ d :: ns, proper n) :
    isManifest (c.member (render (d :: ns)) (Item.flag it) (Item.mode it) (Item.body it)) = true ↔
      Item.flag it = .reg ∧ ns = [skillFile] := by
  have hparse := parse_spells .bare (List.cons_ne_nil d ns) hp
  have hname : skillManifest (header (c.member (render (d :: ns)) (Item.flag it) (Item.mode it)
      (Item.body it)) 0) = decide ((d :: ns).getLast? = some skillFile ∧ ns.length ≤ 1) := by
    have hpath :
        parse (trimDotSlash (header (c.member (render (d :: ns)) (Item.flag it) (Item.mode it)
        (Item.body it)) 0).name) = ⟨false, names (d :: ns)⟩ := by
      rw [← hparse]
      exact congrArg parse (trimDotSlash_spells .bare (List.cons_ne_nil d ns) hp)
    unfold skillManifest
    rw [hpath]
    generalize hfile : "SKILL.md".toList = file
    obtain rfl : skillFile = file := hfile
    dsimp only
    rw [normal_names, if_neg Bool.false_ne_true, Bool.decide_and]
    simp
  have hdir : d ≠ skillFile := fun he => absurd h (by rw [he]; decide)
  rw [isManifest, hname, Bool.and_eq_true, decide_eq_true_eq, decide_eq_true_eq]
  refine and_congr Iff.rfl ⟨?_, ?_⟩
  · rintro ⟨hlast, hlen⟩
    rcases ns with _ | ⟨n, _ | ⟨m, ns⟩⟩
    · exact absurd (Option.some.inj hlast) hdir
    · have hn : n = skillFile := Option.some.inj hlast
      rw [hn]
    · simp at hlen
  · rintro rfl
    exact ⟨rfl, Nat.le_refl _⟩

end Leaf

/-- What lies at a place and below passes the verifier: no links, no backslashes, within its
caps. -/
structure Accepted (c : Tar) (xs : List (List Name × Item)) (p : List Name) : Prop where
  plain : ∀ x ∈ xs, p <+: x.1 → (∀ target, x.2 ≠ .link target) ∧ ∀ n ∈ x.1.drop p.length, '\\' ∉ n
  entries : (xs.filterMap (leaf c p)).length ≤ maxVerifyEntries
  offsets : ∀ h ∈ headers 0 (xs.filterMap (leaf c p)), h.offset ≤ maxVerifyDecompressedBytes

def ProperPaths (xs : List (List Name × Item)) : Prop := ∀ x ∈ xs, x.1 ≠ [] ∧ ∀ n ∈ x.1, proper n

section Slice

variable {fm : Frontmatter} {c : Tar} {sub : List Name} {d : Text} {xs : List (List Name × Item)}
  {x : List Name × Item}

theorem leaf_eq (c : Tar) (sub : List Name) (d : Text) (x : List Name × Item) :
    leaf c (sub ++ [d]) x =
      if sub ++ [d] <+: x.1 then
        some (c.member (render (d :: x.1.drop (sub ++ [d]).length)) (Item.flag x.2) (Item.mode x.2)
          (Item.body x.2))
      else none := by
  rw [leaf, List.getLast?_concat]
  rfl

theorem proper_leaf (hproper : ProperPaths xs) (hx : x ∈ xs) (hpre : sub ++ [d] <+: x.1) :
    ∀ n ∈ d :: x.1.drop (sub ++ [d]).length, proper n := by
  obtain ⟨-, hall⟩ := hproper x hx
  obtain ⟨r, hr⟩ := hpre
  intro n hn
  apply hall
  rw [← hr, List.drop_left] at hn
  rw [← hr, List.append_assoc]
  exact List.mem_append_right sub hn

theorem mem_skillDirs : d ∈ skillDirs fm xs sub ↔
    ∃ body exec s, (sub ++ [d, skillFile], Item.file body exec) ∈ xs ∧
      skillIn fm d body = some s := by
  rw [skillDirs, List.mem_map]
  constructor
  · rintro ⟨s, hs, rfl⟩
    obtain ⟨⟨p, it⟩, hx, hskill⟩ := List.mem_filterMap.mp hs
    obtain ⟨hp, body, exec, hit, hin⟩ := itemSkill_eq_some hskill
    dsimp only at hp hit
    rw [hp, hit] at hx
    exact ⟨body, exec, s, hx, hin⟩
  · rintro ⟨body, exec, s, hx, hin⟩
    have hskill : itemSkill fm sub (sub ++ [d, skillFile], .file body exec) = some s :=
      itemSkill_file.trans hin
    obtain ⟨hpath, -⟩ := itemSkill_eq_some hskill
    have hd := List.append_cancel_left hpath
    exact ⟨s, List.mem_filterMap.mpr ⟨_, hx, hskill⟩, (List.cons.inj hd).1.symm⟩

theorem verify_slice_iff (hproper : ProperPaths xs) (hdist : DistinctFiles xs)
    (hd : d ∈ skillDirs fm xs sub) :
    verifySkillContents (skillHeaders fm 0 (xs.filterMap (leaf c (sub ++ [d])))) = .ok () ↔
      Accepted c xs (sub ++ [d]) := by
  obtain ⟨body, exec, s, hfile, hin⟩ := mem_skillDirs.mp hd
  obtain ⟨hvalid, hname⟩ := skillIn_valid hin
  have hpre : sub ++ [d] <+: sub ++ [d, skillFile] := ⟨[skillFile], by simp⟩
  have hdrop : (sub ++ [d, skillFile]).drop (sub ++ [d]).length = [skillFile] := by
    rw [show sub ++ [d, skillFile] = sub ++ [d] ++ [skillFile] by simp, List.drop_left]
  rw [verifySkillContents_iff]
  · constructor
    · rintro ⟨hlen, hoff, hsafe⟩
      refine ⟨fun x hx hp => ?_, hlen, hoff⟩
      rw [← tarEntrySafe_leaf (c := c) hname (proper_leaf hproper hx hp)]
      exact hsafe _ (List.mem_filterMap.mpr ⟨x, hx, by rw [leaf_eq, if_pos hp]⟩)
    · intro hacc
      refine ⟨hacc.entries, hacc.offsets, fun m hm => ?_⟩
      obtain ⟨x, hx, hleaf⟩ := List.mem_filterMap.mp hm
      rw [leaf_eq] at hleaf
      split_ifs at hleaf with hp
      cases hleaf
      exact (tarEntrySafe_leaf hname (proper_leaf hproper hx hp)).mpr (hacc.plain x hx hp)
  -- the only manifest is the file that was discovered
  · intro m hm hman
    obtain ⟨⟨p, it⟩, hx, hleaf⟩ := List.mem_filterMap.mp hm
    rw [leaf_eq] at hleaf
    split_ifs at hleaf with hp
    cases hleaf
    obtain ⟨hreg, hns⟩ := (isManifest_leaf hname (proper_leaf hproper hx hp)).mp hman
    obtain ⟨r, rfl⟩ := hp
    rw [List.drop_left] at hns
    subst hns
    obtain ⟨-, rfl⟩ := Prod.mk.inj (hdist.eq hx hfile hreg rfl (by simp))
    exact hvalid
  · rw [List.any_eq_true]
    refine ⟨_, List.mem_filterMap.mpr ⟨_, hfile, by rw [leaf_eq, if_pos hpre]⟩, ?_⟩
    refine (isManifest_leaf hname (proper_leaf hproper hfile hpre)).mpr ⟨rfl, hdrop⟩

theorem mem_regularFiles_slice (hproper : ProperPaths xs) (f : List Name × Bytes) :
    f ∈ regularFiles (xs.filterMap (leaf c (sub ++ [d]))) ↔
      ∃ q, f.1 = d :: q ∧ FileBelow xs (sub ++ [d]) q f.2 := by
  rw [regularFiles, List.mem_map]
  constructor
  · rintro ⟨m, hm, rfl⟩
    obtain ⟨hm, hreg⟩ := List.mem_filter.mp hm
    obtain ⟨⟨p, it⟩, hx, hleaf⟩ := List.mem_filterMap.mp hm
    rw [leaf_eq] at hleaf
    split_ifs at hleaf with hp
    cases hleaf
    have hclean := cleanName_render (List.cons_ne_nil d _) (proper_leaf hproper hx hp)
    obtain ⟨r, rfl⟩ := hp
    cases it with
    | dir => cases of_decide_eq_true hreg
    | link target => cases of_decide_eq_true hreg
    | file body exec =>
      rw [List.drop_left] at hclean
      refine ⟨r, ?_, exec, hx⟩
      dsimp only [Tar.member]
      rw [List.drop_left, hclean]
  · rintro ⟨q, hq, exec, hx⟩
    have hpre : sub ++ [d] <+: sub ++ [d] ++ q := List.prefix_append _ _
    have hclean := cleanName_render (List.cons_ne_nil d _) (proper_leaf hproper hx hpre)
    refine ⟨_, List.mem_filter.mpr ⟨List.mem_filterMap.mpr ⟨_, hx, by rw [leaf_eq, if_pos hpre]⟩,
      rfl⟩, ?_⟩
    dsimp only [Tar.member]
    rw [hclean, List.drop_left, ← hq]
    rfl

end Slice

section Discovery

variable {fm : Frontmatter} {c : Tar} {t : Worktree} {root : Name} {subPath : Text}
  {ms : List Member}
  {xs : List (List Name × Item)}

theorem nodup_skillDirs (hdist : DistinctFiles xs) (sub : List Name) :
    (skillDirs fm xs sub).Nodup := by
  rw [skillDirs, List.Nodup, List.pairwise_map, List.pairwise_filterMap]
  refine hdist.imp fun {x y} hne s hs s' hs' he => ?_
  obtain ⟨hx, body, exec, hbody, -⟩ := itemSkill_eq_some hs
  obtain ⟨hy, body', exec', hbody', -⟩ := itemSkill_eq_some hs'
  exact hne (by rw [hbody]; rfl) (by rw [hbody']; rfl) (by rw [hx, hy, he])

theorem discoverSkillsInTree_eq (hshow : List.Forall₂ (Shows root) ms xs)
    (hroot : detectArchiveRoot (tarRegularNames ms) = root) (hdist : DistinctFiles xs) :
    discoverSkillsInTree fm ms subPath =
      if (skillDirs fm xs (normSubPath subPath)).length > skillMarketplaceMaxSkills then none
      else some (root,
        ((xs.filterMap (itemSkill fm (normSubPath subPath))).reverse).mergeSort nameLE) := by
  have hskills : ms.filterMap (skillOf fm root (normSubPath subPath)) =
      xs.filterMap (itemSkill fm (normSubPath subPath)) :=
    filterMap_shows (fun _ _ h => skillOf_shows h) hshow
  have hnd : (skillDirs fm xs (normSubPath subPath)).Nodup := nodup_skillDirs hdist _
  rw [discoverSkillsInTree, hroot, discoverLoop_eq [] _ (Nat.zero_le _), hskills, skillDirs,
    List.length_map]
  · simp only [List.length_nil, Nat.zero_add, List.append_nil]
    split_ifs <;> rfl
  · rw [hskills, List.append_nil, List.map_reverse, List.nodup_reverse]
    exact hnd

theorem subtreePath_eq {d : Text} (hd : proper d) (subPath : Text) :
    subtreePath subPath d = ⟨(clean subPath).absolute, (clean subPath).segs ++ [d]⟩ := by
  have hname : parse d = ⟨false, names [d]⟩ := by
    have hbare : Spells [d] (render [d]) := .bare
    rw [render, List.intercalate_singleton] at hbare
    exact parse_spells hbare (List.cons_ne_nil _ _) (List.forall_mem_singleton.mpr hd)
  cases subPath with
  | nil =>
    rw [subtreePath, if_pos rfl, clean, hname, normal_names]
    rfl
  | cons a s =>
    have habs : (parse (a :: s ++ '/' :: d)).absolute = (parse (a :: s)).absolute := rfl
    rw [subtreePath, if_neg (List.cons_ne_nil _ _), clean, clean, parts_append, hname,
      normal_append_names, habs, List.append_assoc]

theorem sliceSkillSubtree_absolute (hshow : List.Forall₂ (Shows root) ms xs) (p : List Name) :
    sliceSkillSubtree c ms root ⟨true, p⟩ = none := by
  have hout : ms.filterMap (rerootLeaf c root ⟨true, p⟩) = xs.filterMap fun _ => none :=
    filterMap_shows (fun _ _ h => rerootLeaf_absolute h p) hshow
  rw [sliceSkillSubtree, hout, if_pos (.inr (List.filterMap_eq_nil_iff.mpr fun _ _ => rfl))]

theorem eq_of_sliceSkillSubtree (hshow : List.Forall₂ (Shows root) ms xs) {p : List Name}
    {out : List Member} (h : sliceSkillSubtree c ms root ⟨false, p⟩ = some out) :
    out = xs.filterMap (leaf c p) := by
  rw [sliceSkillSubtree, filterMap_shows (fun _ _ h => rerootLeaf_shows h p) hshow] at h
  split_ifs at h
  exact (Option.some.inj h).symm

theorem sliceSkillSubtree_eq (hshow : List.Forall₂ (Shows root) ms xs)
    (hsize : ∀ x ∈ xs, (Item.body x.2).length ≤ skillMarketplaceMaxFileBytes) {d : Text}
    {sub : List Name}
    (hd : d ∈ skillDirs fm xs sub) :
    sliceSkillSubtree c ms root ⟨false, sub ++ [d]⟩ =
      some (xs.filterMap (leaf c (sub ++ [d]))) := by
  have hout :
      ms.filterMap (rerootLeaf c root ⟨false, sub ++ [d]⟩) = xs.filterMap (leaf c (sub ++ [d])) :=
    filterMap_shows (fun _ _ h => rerootLeaf_shows h _) hshow
  obtain ⟨body, exec, s, hfile, -⟩ := mem_skillDirs.mp hd
  rw [sliceSkillSubtree, hout, if_neg]
  rintro (hlong | hnil)
  · obtain ⟨m, hm, hlong⟩ := List.any_eq_true.mp hlong
    obtain ⟨x, hx, hleaf⟩ := List.mem_filterMap.mp hm
    rw [leaf_eq] at hleaf
    split_ifs at hleaf
    cases hleaf
    rw [tooLong, Bool.and_eq_true, decide_eq_true_eq, decide_eq_true_eq] at hlong
    exact absurd (hsize x hx) (Nat.not_le.mpr hlong.2)
  · rw [List.filterMap_eq_nil_iff] at hnil
    have hnone := hnil _ hfile
    rw [leaf_eq, if_pos ⟨[skillFile], by simp⟩] at hnone
    cases hnone

theorem mem_skillDirs_of_fileBelow {ys : List (List Name × Item)} {sub p : List Name} {d : Text}
    (hsame : ∀ q body, FileBelow xs (p ++ [d]) q body ↔ FileBelow ys (sub ++ [d]) q body)
    (hd : d ∈ skillDirs fm ys sub) : d ∈ skillDirs fm xs p := by
  obtain ⟨body, exec, s, hfile, hin⟩ := mem_skillDirs.mp hd
  obtain ⟨exec', hfile'⟩ := (hsame [skillFile] body).mpr ⟨exec, by rwa [List.append_assoc]⟩
  rw [List.append_assoc] at hfile'
  exact mem_skillDirs.mpr ⟨body, exec', s, hfile', hin⟩

theorem proper_of_mem_skillDirs {sub : List Name} {d : Text} (hproper : ProperPaths xs)
    (hd : d ∈ skillDirs fm xs sub) : proper d := by
  obtain ⟨body, exec, s, hfile, -⟩ := mem_skillDirs.mp hd
  exact (hproper _ hfile).2 d (by simp)

theorem discoversExactly_iff (hshow : List.Forall₂ (Shows root) ms xs)
    (hroot : detectArchiveRoot (tarRegularNames ms) = root) (hproper : ProperPaths xs)
    (hdist : DistinctFiles xs)
    (hsize : ∀ x ∈ xs, (Item.body x.2).length ≤ skillMarketplaceMaxFileBytes) :
    DiscoversExactly fm c t subPath ms ↔
      (skillDirs fm xs (normSubPath subPath)).length ≤ skillMarketplaceMaxSkills ∧
      (∀ d, d ∈ skillDirs fm xs (normSubPath subPath) ↔
        d ∈ skillDirs fm t.items (normSubPath subPath)) ∧
      ∀ d ∈ skillDirs fm xs (normSubPath subPath), (clean subPath).absolute = false ∧
        Accepted c xs ((clean subPath).segs ++ [d]) ∧
        ∀ q body, FileBelow xs ((clean subPath).segs ++ [d]) q body ↔
          FileBelow t.items (normSubPath subPath ++ [d]) q body := by
  have hmem : ∀ d, d ∈ (((xs.filterMap (itemSkill fm (normSubPath subPath))).reverse).mergeSort
      nameLE).map DiscoveredSkill.dir ↔ d ∈ skillDirs fm xs (normSubPath subPath) := by
    intro d
    rw [skillDirs]
    simp only [List.mem_map, List.mem_mergeSort, List.mem_reverse]
  have hfiles : ∀ d, (∀ x, x ∈ regularFiles (xs.filterMap (leaf c ((clean subPath).segs ++ [d]))) ↔
      ∃ q, x.1 = d :: q ∧ FileBelow t.items (normSubPath subPath ++ [d]) q x.2) ↔
      ∀ q body, FileBelow xs ((clean subPath).segs ++ [d]) q body ↔
        FileBelow t.items (normSubPath subPath ++ [d]) q body := by
    intro d
    simp only [mem_regularFiles_slice hproper]
    constructor
    · intro h q body
      have hq := h (d :: q, body)
      simpa using hq
    · intro h x
      simp only [h]
  rw [DiscoversExactly, discoverSkillsInTree_eq hshow hroot hdist]
  constructor
  · rintro ⟨root', skills, hdisc, hdirs, hslices⟩
    split_ifs at hdisc with hcap
    cases hdisc
    refine ⟨Nat.not_lt.mp hcap, fun d => (hmem d).symm.trans (hdirs d), fun d hd => ?_⟩
    obtain ⟨out, hout, hver, hreg⟩ := hslices d ((hmem d).mpr hd)
    rw [subtreePath_eq (proper_of_mem_skillDirs hproper hd)] at hout
    cases habs : (clean subPath).absolute with
    | true =>
      rw [habs, sliceSkillSubtree_absolute hshow] at hout
      cases hout
    | false =>
      rw [habs] at hout
      obtain rfl := eq_of_sliceSkillSubtree hshow hout
      have hbelow := (hfiles d).mp hreg
      -- the directory that is sliced holds the same manifest, so what is verified is that one
      have hd' := mem_skillDirs_of_fileBelow hbelow ((hdirs d).mp ((hmem d).mpr hd))
      exact ⟨rfl, (verify_slice_iff hproper hdist hd').mp hver, hbelow⟩
  · rintro ⟨hcap, hdirs, hslices⟩
    rw [if_neg (Nat.not_lt.mpr hcap)]
    refine ⟨_, _, rfl, fun d => (hmem d).trans (hdirs d), fun d hd => ?_⟩
    obtain ⟨habs, hacc, hbelow⟩ := hslices d ((hmem d).mp hd)
    have hd' := mem_skillDirs_of_fileBelow hbelow ((hdirs d).mp ((hmem d).mp hd))
    rw [subtreePath_eq (proper_of_mem_skillDirs hproper hd'), habs]
    exact ⟨_, sliceSkillSubtree_eq hshow hsize hd', (verify_slice_iff hproper hdist hd').mpr hacc,
      (hfiles d).mpr hbelow⟩

end Discovery

end AchProofs.Skills
