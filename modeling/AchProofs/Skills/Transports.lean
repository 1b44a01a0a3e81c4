import AchProofs.Skills.DiscoverExact

namespace AchProofs.Skills

open Foundation.Links Foundation.Percent Cli.Extract
  Contentkit Gitfetch Localpkg

def filePaths (xs : List (List Name × Item)) : List (List Name) :=
  (xs.filter fun x => Item.flag x.2 = .reg).map Prod.fst

def startsIn (dir : Name) (p : List Name) : Bool := p.head? = some dir && p.tail ≠ []

def topOf : List (List Name) → Name
  | (x :: p) :: ps => if ((x :: p) :: ps).all (startsIn x) then x else []
  | _ => []

def commonTop (t : Worktree) : Name := topOf (filePaths t.items)

def strip (root : Name) (p : List Name) : List Name :=
  if root ≠ [] ∧ startsIn root p then p.tail else p

def gitView (t : Worktree) : List (List Name × Item) :=
  (t.items.filter fun x => Item.flag x.2 ≠ .symlink).map fun x => (strip (commonTop t) x.1, x.2)

def restView (wrapper : Name) (t : Worktree) : List (List Name × Item) :=
  ([wrapper], .dir) :: t.items

/-- The skills pass the verifier where they are sliced, which is under the sub-path as it is
written, and there are the same files there as where they are discovered. If one top directory holds
all regular files then there are the same skills with the same files below it once more. -/
structure Clear (fm : Frontmatter) (c : Tar) (t : Worktree) (wrapper : Name) (subPath : Text) :
    Prop where
  relative : ∀ d ∈ skillDirs fm t.items (normSubPath subPath), (clean subPath).absolute = false
  rest : ∀ d ∈ skillDirs fm t.items (normSubPath subPath),
    Accepted c (restView wrapper t) ((clean subPath).segs ++ [d])
  git : ∀ d ∈ skillDirs fm t.items (normSubPath subPath),
    Accepted c (gitView t) ((clean subPath).segs ++ [d])
  written : ∀ d ∈ skillDirs fm t.items (normSubPath subPath), ∀ q body,
    FileBelow t.items ((clean subPath).segs ++ [d]) q body ↔
      FileBelow t.items (normSubPath subPath ++ [d]) q body
  dirs : commonTop t ≠ [] → ∀ d, d ∈ skillDirs fm t.items (commonTop t :: normSubPath subPath) ↔
    d ∈ skillDirs fm t.items (normSubPath subPath)
  files : commonTop t ≠ [] → ∀ d ∈ skillDirs fm t.items (normSubPath subPath), ∀ q body,
    FileBelow t.items (commonTop t :: (clean subPath).segs ++ [d]) q body ↔
      FileBelow t.items (normSubPath subPath ++ [d]) q body

section Root

theorem startsIn_iff {dir : Name} {p : List Name} :
    startsIn dir p = true ↔ ∃ q, q ≠ [] ∧ p = dir :: q := by
  rw [startsIn, Bool.and_eq_true, decide_eq_true_eq, decide_eq_true_eq]
  constructor
  · rintro ⟨hhead, htail⟩
    cases p with
    | nil => cases hhead
    | cons x p => exact ⟨p, htail, by rw [Option.some.inj hhead]⟩
  · rintro ⟨q, hq, rfl⟩
    exact ⟨rfl, hq⟩

theorem firstSegment_eq {p : List Name} {dir : Name} :
    firstSegment ⟨false, p⟩ = some dir ↔ startsIn dir p = true := by
  rw [startsIn_iff]
  rcases p with _ | ⟨x, _ | ⟨y, p⟩⟩ <;> simp [firstSegment, eq_comm]

variable {α : Type} {f : α → Text} {g : α → List Name}

theorem detectLoop_eq {root : Name} (hroot : root ≠ []) (ps : List α)
    (hclean : ∀ p ∈ ps, cleanName (f p) = ⟨false, g p⟩) :
    detectLoop root (ps.map f) = if (ps.map g).all (startsIn root) then root else [] := by
  induction ps with
  | nil => rfl
  | cons p ps ih =>
    obtain ⟨hp, hps⟩ := List.forall_mem_cons.mp hclean
    rw [List.map_cons, detectLoop, hp, List.map_cons, List.all_cons]
    cases hfirst : firstSegment ⟨false, g p⟩ with
    | none =>
      have hnot : startsIn root (g p) = false := by
        rw [Bool.eq_false_iff, Ne, ← firstSegment_eq, hfirst]
        nofun
      rw [hnot]
      rfl
    | some first =>
      dsimp only
      rw [if_neg hroot]
      by_cases he : root = first
      · subst he
        rw [if_neg (not_not.mpr rfl), ih hps, firstSegment_eq.mp hfirst, Bool.true_and]
      · have hnot : startsIn root (g p) = false := by
          rw [Bool.eq_false_iff, Ne, ← firstSegment_eq, hfirst, Option.some_inj]
          exact fun h => he h.symm
        rw [if_pos he, hnot]
        rfl

theorem detectArchiveRoot_eq (ps : List α) (hclean : ∀ p ∈ ps, cleanName (f p) = ⟨false, g p⟩)
    (hproper : ∀ p ∈ ps, ∀ n ∈ g p, proper n) :
    detectArchiveRoot (ps.map f) = topOf (ps.map g) := by
  cases ps with
  | nil => rfl
  | cons p ps =>
    obtain ⟨hp, hps⟩ := List.forall_mem_cons.mp hclean
    rw [detectArchiveRoot, List.map_cons, detectLoop, hp, List.map_cons]
    have hne : ∀ x q, g p = x :: q → x ≠ [] := by
      rintro x q hg rfl
      have := hproper p (List.mem_cons_self ..) [] (by rw [hg]; simp)
      simp [proper] at this
    rcases hg : g p with _ | ⟨x, _ | ⟨y, q⟩⟩
    · rfl
    · simp [firstSegment, topOf, startsIn]
    · have hx := hne x _ hg
      show (if ([] : Name) = [] then detectLoop x (ps.map f) else _) = _
      rw [if_pos rfl, detectLoop_eq hx ps hps, topOf, List.all_cons]
      have hself : startsIn x (x :: y :: q) = true :=
        startsIn_iff.mpr ⟨_, List.cons_ne_nil _ _, rfl⟩
      rw [hself, Bool.true_and]

theorem topOf_ne_nil {ps : List (List Name)} (h : topOf ps ≠ []) :
    ∀ p ∈ ps, ∃ q, q ≠ [] ∧ p = topOf ps :: q := by
  rcases ps with _ | ⟨_ | ⟨x, p⟩, ps⟩
  · exact absurd rfl h
  · exact absurd rfl h
  · rw [topOf] at h ⊢
    split_ifs at h ⊢ with hall
    · exact fun p hp => startsIn_iff.mp (List.all_eq_true.mp hall p hp)
    · exact absurd rfl h

end Root

section Views

variable {fm : Frontmatter} {c : Tar} {t : Worktree} {wrapper : Name}

theorem properPaths_items (t : Worktree) : ProperPaths t.items := t.named

theorem distinctFiles_items (t : Worktree) : DistinctFiles t.items := by
  have hnd := t.distinct
  rw [List.Nodup, List.pairwise_map] at hnd
  exact hnd.imp fun hne _ _ => hne

variable {p : List Name} {xs : List (List Name × Item)}

theorem mem_filePaths {body : Bytes} {exec : Bool} (h : (p, Item.file body exec) ∈ xs) :
    p ∈ filePaths xs :=
  List.mem_map.mpr ⟨_, List.mem_filter.mpr ⟨h, rfl⟩, rfl⟩

theorem exists_mem_of_mem_filePaths (h : p ∈ filePaths xs) : ∃ x ∈ xs, x.1 = p := by
  obtain ⟨x, hx, rfl⟩ := List.mem_map.mp h
  exact ⟨x, (List.mem_filter.mp hx).1, rfl⟩

theorem tarRegularNames_git (c : Tar) (xs : List (List Name × Item)) :
    tarRegularNames (xs.filterMap (c.pack ['/'])) = (filePaths xs).map render := by
  induction xs with
  | nil => rfl
  | cons x xs ih =>
    obtain ⟨p, it⟩ := x
    cases it with
    | dir => exact ih
    | link target => exact ih
    | file body exec => exact congrArg (render p :: ·) ih

theorem tarRegularNames_rest (c : Tar) (wrapper : Name) (xs : List (List Name × Item)) :
    tarRegularNames (xs.map (packWrapped c wrapper)) = (filePaths xs).map fun p =>
      render (wrapper :: p) := by
  induction xs with
  | nil => rfl
  | cons x xs ih =>
    obtain ⟨p, it⟩ := x
    cases it with
    | dir => exact ih
    | link target => exact ih
    | file body exec => exact congrArg (render (wrapper :: p) :: ·) ih

theorem detectArchiveRoot_git (c : Tar) (t : Worktree) :
    detectArchiveRoot (tarRegularNames (gitArchive c t)) = commonTop t := by
  have hpaths : ∀ p ∈ filePaths t.items, p ≠ [] ∧ ∀ n ∈ p, proper n := by
    intro p hp
    obtain ⟨x, hx, rfl⟩ := exists_mem_of_mem_filePaths hp
    exact t.named x hx
  rw [gitArchive, tarRegularNames_git,
    detectArchiveRoot_eq (f := render) (g := id) (filePaths t.items)
    (fun p hp => cleanName_render (hpaths p hp).1 (hpaths p hp).2)
    (fun p hp => (hpaths p hp).2), List.map_id]
  rfl

theorem topOf_wrapped {ps : List (List Name)} (hne : ∀ p ∈ ps, p ≠ []) (hps : ps ≠ []) :
    topOf (ps.map (wrapper :: ·)) = wrapper := by
  obtain ⟨p, ps, rfl⟩ := List.exists_cons_of_ne_nil hps
  rw [List.map_cons, topOf, if_pos]
  rw [List.all_eq_true]
  intro q hq
  rw [← List.map_cons (f := (wrapper :: ·))] at hq
  obtain ⟨q', hq', rfl⟩ := List.mem_map.mp hq
  exact startsIn_iff.mpr ⟨q', hne q' hq', rfl⟩

theorem detectArchiveRoot_rest (c : Tar) (t : Worktree) (hw : proper wrapper)
    (hfiles : filePaths t.items ≠ []) :
    detectArchiveRoot (tarRegularNames (restArchive c wrapper t)) = wrapper := by
  have hpaths : ∀ p ∈ filePaths t.items, p ≠ [] ∧ ∀ n ∈ p, proper n := by
    intro p hp
    obtain ⟨x, hx, rfl⟩ := exists_mem_of_mem_filePaths hp
    exact t.named x hx
  have hwrapped : ∀ p ∈ filePaths t.items, ∀ n ∈ wrapper :: p, proper n := fun p hp =>
    List.forall_mem_cons.mpr ⟨hw, (hpaths p hp).2⟩
  have hnames : tarRegularNames (restArchive c wrapper t) =
      (filePaths t.items).map fun p => render (wrapper :: p) :=
        tarRegularNames_rest c wrapper t.items
  rw [hnames, detectArchiveRoot_eq (g := (wrapper :: ·)) (filePaths t.items)
    (fun p hp => cleanName_render (List.cons_ne_nil _ _) (hwrapped p hp)) hwrapped]
  exact topOf_wrapped (fun p hp => (hpaths p hp).1) hfiles

theorem normRel_spells {ns : List Name} {text : Text} (h : Spells ns text) (hne : ns ≠ [])
    (hp : ∀ n ∈ ns, proper n) (root : Name) : normRel text root = ⟨false, strip root ns⟩ := by
  have hclean : cleanName text = ⟨false, ns⟩ := clean_spells h hne hp
  rw [normRel, hclean, strip, startsIn]
  by_cases hs : root ≠ [] ∧ ns.head? = some root ∧ ns.tail ≠ []
  · rw [if_pos ⟨hs.1, rfl, hs.2.1, hs.2.2⟩, if_pos ⟨hs.1, by simp [hs.2.1, hs.2.2]⟩]
  · rw [if_neg fun h => hs ⟨h.1, h.2.2.1, h.2.2.2⟩, if_neg fun h => hs ⟨h.1, by simpa using h.2⟩]

theorem shows_git (c : Tar) (root : Name) (hxs : ProperPaths xs) :
    List.Forall₂ (Shows root) (xs.filterMap (c.pack ['/']))
      ((xs.filter fun x => Item.flag x.2 ≠ .symlink).map fun x => (strip root x.1, x.2)) := by
  induction xs with
  | nil => exact .nil
  | cons x xs ih =>
    obtain ⟨⟨hne, hp⟩, hrest⟩ := List.forall_mem_cons.mp hxs
    obtain ⟨p, it⟩ := x
    cases it with
    | dir => exact .cons ⟨normRel_spells .slash hne hp root, rfl, rfl, rfl⟩ (ih hrest)
    | link target => exact ih hrest
    | file body exec => exact .cons ⟨normRel_spells .bare hne hp root, rfl, rfl, rfl⟩ (ih hrest)

theorem strip_wrapped (hw : proper wrapper) (hp : p ≠ []) : strip wrapper (wrapper :: p) = p := by
  have hne : wrapper ≠ [] := by
    rintro rfl
    simp [proper] at hw
  rw [strip, if_pos ⟨hne, startsIn_iff.mpr ⟨p, hp, rfl⟩⟩]
  rfl

theorem shows_rest (c : Tar) (t : Worktree) (hw : proper wrapper) :
    List.Forall₂ (Shows wrapper) (restArchive c wrapper t) (restView wrapper t) := by
  have hone : ∀ n ∈ [wrapper], proper n := by simpa using hw
  have htop : strip wrapper [wrapper] = [wrapper] := by
    rw [strip, if_neg]
    simp [startsIn]
  refine .cons ⟨?_, rfl, rfl, rfl⟩ ?_
  · have hname : wrapper ++ ['/'] = render [wrapper] ++ ['/'] := by
      rw [render, List.intercalate_singleton]
    show normRel (wrapper ++ ['/']) wrapper = _
    rw [hname, normRel_spells .slash (List.cons_ne_nil _ _) hone, htop]
  · have hitems := properPaths_items t
    generalize t.items = xs at hitems
    induction xs with
    | nil => exact .nil
    | cons x xs ih =>
      obtain ⟨⟨hne, hp⟩, hrest⟩ := List.forall_mem_cons.mp hitems
      obtain ⟨p, it⟩ := x
      have hall : ∀ n ∈ wrapper :: p, proper n := List.forall_mem_cons.mpr ⟨hw, hp⟩
      have hrel : ∀ text, Spells (wrapper :: p) text → normRel text wrapper = ⟨false, p⟩ := by
        intro text htext
        rw [normRel_spells htext (List.cons_ne_nil _ _) hall, strip_wrapped hw hne]
      cases it with
      | dir => exact .cons ⟨hrel _ .slash, rfl, rfl, rfl⟩ (ih hrest)
      | link target => exact .cons ⟨hrel _ .bare, rfl, rfl, rfl⟩ (ih hrest)
      | file body exec => exact .cons ⟨hrel _ .bare, rfl, rfl, rfl⟩ (ih hrest)

end Views

section Both

variable {fm : Frontmatter} {c : Tar} {t : Worktree} {wrapper : Name}

variable {body : Bytes} {p : List Name}

theorem mem_gitView_file {exec : Bool} :
    (p, Item.file body exec) ∈ gitView t ↔
      ((if commonTop t = [] then p else commonTop t :: p), Item.file body exec) ∈ t.items := by
  rw [gitView, List.mem_map]
  constructor
  · rintro ⟨⟨q, it⟩, hx, he⟩
    obtain ⟨hx, -⟩ := List.mem_filter.mp hx
    obtain ⟨rfl, rfl⟩ := Prod.mk.inj he
    by_cases htop : commonTop t = []
    · rw [if_pos htop, strip, if_neg fun h => h.1 htop]
      exact hx
    · obtain ⟨r, hr, hq⟩ := topOf_ne_nil htop q (mem_filePaths hx)
      have hstrip : strip (commonTop t) q = r := by
        rw [strip, if_pos ⟨htop, startsIn_iff.mpr ⟨r, hr, hq⟩⟩, hq]
        rfl
      rw [if_neg htop, hstrip, commonTop, ← hq]
      exact hx
  · intro hx
    refine ⟨_, List.mem_filter.mpr ⟨hx, rfl⟩, Prod.ext ?_ rfl⟩
    show strip (commonTop t) _ = p
    by_cases htop : commonTop t = []
    · rw [if_pos htop, strip, if_neg fun h => h.1 htop]
    · rw [if_neg htop] at hx ⊢
      obtain ⟨r, hr, hq⟩ := topOf_ne_nil htop _ (mem_filePaths hx)
      obtain ⟨-, rfl⟩ := List.cons.inj hq
      rw [strip, if_pos ⟨htop, startsIn_iff.mpr ⟨p, hr, rfl⟩⟩]
      rfl

theorem distinctFiles_gitView (t : Worktree) : DistinctFiles (gitView t) := by
  have hinj : ∀ {x y : List Name × Item}, x ∈ t.items → y ∈ t.items → Item.flag x.2 = .reg →
      Item.flag y.2 = .reg → strip (commonTop t) x.1 = strip (commonTop t) y.1 → x.1 = y.1 := by
    intro x y hx hy hxf hyf he
    by_cases htop : commonTop t = []
    · rwa [strip, strip, if_neg (fun h => h.1 htop), if_neg (fun h => h.1 htop)] at he
    · have hfile : ∀ {z : List Name × Item}, z ∈ t.items → Item.flag z.2 = .reg →
          z.1 = commonTop t :: strip (commonTop t) z.1 := by
        intro z hz hzf
        obtain ⟨r, hr, hq⟩ := topOf_ne_nil htop z.1
          (List.mem_map.mpr ⟨z, List.mem_filter.mpr ⟨hz, decide_eq_true hzf⟩, rfl⟩)
        rw [strip, if_pos ⟨htop, startsIn_iff.mpr ⟨r, hr, hq⟩⟩]
        rw [hq]
        rfl
      rw [hfile hx hxf, hfile hy hyf, he]
  rw [DistinctFiles, gitView, List.pairwise_map]
  have hitems := List.Pairwise.and_mem.mp (distinctFiles_items t)
  refine (hitems.imp fun {x y} h hxf hyf he => ?_).filter _
  exact h.2.2 hxf hyf (hinj h.1 h.2.1 hxf hyf he)

theorem properPaths_gitView (t : Worktree) : ProperPaths (gitView t) := by
  intro x hx
  obtain ⟨y, hy, rfl⟩ := List.mem_map.mp hx
  obtain ⟨hne, hp⟩ := t.named y (List.mem_filter.mp hy).1
  show strip (commonTop t) y.1 ≠ [] ∧ ∀ n ∈ strip (commonTop t) y.1, proper n
  rw [strip]
  split_ifs with h
  · obtain ⟨q, hq, hy⟩ := startsIn_iff.mp h.2
    rw [hy] at hp ⊢
    exact ⟨hq, fun n hn => hp n (List.mem_cons_of_mem _ hn)⟩
  · exact ⟨hne, hp⟩

theorem mem_skillDirs_gitView {sub : List Name} {d : Text} :
    d ∈ skillDirs fm (gitView t) sub ↔
      d ∈ skillDirs fm t.items (if commonTop t = [] then sub else commonTop t :: sub) := by
  rw [mem_skillDirs, mem_skillDirs]
  simp only [mem_gitView_file]
  split_ifs <;> rfl

theorem fileBelow_gitView {q : List Name} :
    FileBelow (gitView t) p q body ↔
      FileBelow t.items (if commonTop t = [] then p else commonTop t :: p) q body := by
  rw [FileBelow, FileBelow]
  simp only [mem_gitView_file]
  split_ifs <;> rfl

theorem body_le_gitView
    (hsize : ∀ x ∈ t.items, (Item.body x.2).length ≤ skillMarketplaceMaxFileBytes) :
    ∀ x ∈ gitView t, (Item.body x.2).length ≤ skillMarketplaceMaxFileBytes := by
  intro x hx
  obtain ⟨y, hy, rfl⟩ := List.mem_map.mp hx
  exact hsize y (List.mem_filter.mp hy).1

theorem discoversExactly_git_iff {subPath : Text}
    (hsize : ∀ x ∈ t.items, (Item.body x.2).length ≤ skillMarketplaceMaxFileBytes)
    (hcount : (skillDirs fm t.items (normSubPath subPath)).length ≤ skillMarketplaceMaxSkills) :
    DiscoversExactly fm c t subPath (gitArchive c t) ↔
      (∀ d ∈ skillDirs fm t.items (normSubPath subPath), (clean subPath).absolute = false ∧
        Accepted c (gitView t) ((clean subPath).segs ++ [d]) ∧
        ∀ q body, FileBelow t.items (if commonTop t = [] then (clean subPath).segs ++ [d]
            else commonTop t :: (clean subPath).segs ++ [d]) q body ↔
          FileBelow t.items (normSubPath subPath ++ [d]) q body) ∧
      (commonTop t ≠ [] → ∀ d, d ∈ skillDirs fm t.items (commonTop t :: normSubPath subPath) ↔
        d ∈ skillDirs fm t.items (normSubPath subPath)) := by
  have hshow : List.Forall₂ (Shows (commonTop t)) (gitArchive c t) (gitView t) :=
    shows_git c (commonTop t) (properPaths_items t)
  rw [discoversExactly_iff hshow (detectArchiveRoot_git c t) (properPaths_gitView t)
    (distinctFiles_gitView t) (body_le_gitView hsize)]
  have hnd : (skillDirs fm (gitView t) (normSubPath subPath)).Nodup :=
    nodup_skillDirs (distinctFiles_gitView t) _
  have hnd' : (skillDirs fm t.items (normSubPath subPath)).Nodup :=
    nodup_skillDirs (distinctFiles_items t) _
  constructor
  · rintro ⟨-, hdirs, hslices⟩
    refine ⟨fun d hd => ?_, fun htop d => ?_⟩
    · obtain ⟨habs, hacc, hfiles⟩ := hslices d ((hdirs d).mpr hd)
      exact ⟨habs, hacc, fun q body => fileBelow_gitView.symm.trans (hfiles q body)⟩
    · rw [← hdirs d, mem_skillDirs_gitView, if_neg htop]
  · rintro ⟨hslices, hdirs⟩
    have hsame : ∀ d, d ∈ skillDirs fm (gitView t) (normSubPath subPath) ↔
        d ∈ skillDirs fm t.items (normSubPath subPath) := by
      intro d
      rw [mem_skillDirs_gitView]
      split_ifs with htop
      · rfl
      · exact hdirs htop d
    refine ⟨?_, hsame, fun d hd => ?_⟩
    · rw [((List.perm_ext_iff_of_nodup hnd hnd').mpr hsame).length_eq]
      exact hcount
    · obtain ⟨habs, hacc, hfiles⟩ := hslices d ((hsame d).mp hd)
      exact ⟨habs, hacc, fun q body => fileBelow_gitView.trans (hfiles q body)⟩

theorem fileBelow_restView {q : List Name} :
    FileBelow (restView wrapper t) p q body ↔ FileBelow t.items p q body := by
  simp [FileBelow, restView]

theorem filterMap_skillOf_of_no_files {root : Name} {sub : List Name} {ms : List Member}
    (h : tarRegularNames ms = []) : ms.filterMap (skillOf fm root sub) = [] := by
  rw [List.filterMap_eq_nil_iff]
  intro m hm
  rw [tarRegularNames, List.map_eq_nil_iff, List.filter_eq_nil_iff] at h
  rw [skillOf, if_neg]
  exact fun hreg => h m hm (decide_eq_true hreg)

theorem discoversExactly_rest_iff {subPath : Text} (hw : proper wrapper)
    (hsize : ∀ x ∈ t.items, (Item.body x.2).length ≤ skillMarketplaceMaxFileBytes)
    (hcount : (skillDirs fm t.items (normSubPath subPath)).length ≤ skillMarketplaceMaxSkills) :
    DiscoversExactly fm c t subPath (restArchive c wrapper t) ↔
      ∀ d ∈ skillDirs fm t.items (normSubPath subPath), (clean subPath).absolute = false ∧
        Accepted c (restView wrapper t) ((clean subPath).segs ++ [d]) ∧
        ∀ q body, FileBelow t.items ((clean subPath).segs ++ [d]) q body ↔
          FileBelow t.items (normSubPath subPath ++ [d]) q body := by
  by_cases hfiles : filePaths t.items = []
  · have hnone : tarRegularNames (restArchive c wrapper t) = [] := by
      show tarRegularNames (t.items.map (packWrapped c wrapper)) = []
      rw [tarRegularNames_rest, hfiles]
      rfl
    have hno : ∀ d, d ∉ skillDirs fm t.items (normSubPath subPath) := by
      intro d hd
      obtain ⟨body, exec, s, hx, -⟩ := mem_skillDirs.mp hd
      have := mem_filePaths hx
      rw [hfiles] at this
      cases this
    refine iff_of_true ⟨detectArchiveRoot (tarRegularNames (restArchive c wrapper t)), [], ?_,
      fun d => iff_of_false (by simp) (hno d), by simp⟩ fun d hd => absurd hd (hno d)
    rw [discoverSkillsInTree, discoverLoop_eq [] _ (Nat.zero_le _),
      filterMap_skillOf_of_no_files hnone]
    · simp [skillMarketplaceMaxSkills]
    · rw [filterMap_skillOf_of_no_files hnone]
      exact List.nodup_nil
  · have hproper : ProperPaths (restView wrapper t) :=
      List.forall_mem_cons.mpr ⟨⟨List.cons_ne_nil _ _, by simpa using hw⟩, properPaths_items t⟩
    have hdist : DistinctFiles (restView wrapper t) :=
      List.pairwise_cons.mpr ⟨by simp [Item.flag], distinctFiles_items t⟩
    have hbody : ∀ x ∈ restView wrapper t, (Item.body x.2).length ≤ skillMarketplaceMaxFileBytes :=
      List.forall_mem_cons.mpr ⟨Nat.zero_le _, hsize⟩
    rw [discoversExactly_iff (shows_rest c t hw) (detectArchiveRoot_rest c t hw hfiles) hproper
      hdist hbody]
    constructor
    · rintro ⟨-, -, hslices⟩ d hd
      obtain ⟨habs, hacc, hfiles⟩ := hslices d hd
      exact ⟨habs, hacc, fun q body => fileBelow_restView.symm.trans (hfiles q body)⟩
    · intro hslices
      refine ⟨hcount, fun _ => Iff.rfl, fun d hd => ?_⟩
      obtain ⟨habs, hacc, hfiles⟩ := hslices d hd
      exact ⟨habs, hacc, fun q body => fileBelow_restView.trans (hfiles q body)⟩

end Both

def pdfSkill : Frontmatter := fun body => if body = [0] then some ("pdf".toList, "Reads it.".toList)
    else none

def plainTar : Tar := ⟨fun _ => none, fun _ => false⟩

/-- A skill in `skills/pdf`, and nothing at the top. -/
def bundle : Worktree where
  items := [(["skills".toList], .dir), (["skills".toList, "pdf".toList], .dir),
    (["skills".toList, "pdf".toList, skillFile], .file [0] false)]
  distinct := by decide +kernel
  named := by decide +kernel
  parents := by decide +kernel

def bundleWithReadme : Worktree where
  items := [(["README.md".toList], .file [] false), (["skills".toList], .dir),
    (["skills".toList, "pdf".toList], .dir),
    (["skills".toList, "pdf".toList, skillFile], .file [0] false)]
  distinct := by decide +kernel
  named := by decide +kernel
  parents := by decide +kernel

theorem accepted_of_all {c : Tar} {xs : List (List Name × Item)} {p : List Name}
    (hplain : (xs.all fun x => Item.flag x.2 ≠ .symlink && x.1.all fun n => '\\' ∉ n) = true)
    (hentries : (xs.filterMap (leaf c p)).length ≤ maxVerifyEntries)
    (hoffsets : ∀ h ∈ headers 0 (xs.filterMap (leaf c p)), h.offset ≤ maxVerifyDecompressedBytes) :
    Accepted c xs p := by
  refine ⟨fun x hx _ => ?_, hentries, hoffsets⟩
  have hx' := List.all_eq_true.mp hplain x hx
  rw [Bool.and_eq_true, decide_eq_true_eq, List.all_eq_true] at hx'
  refine ⟨fun target he => hx'.1 (by rw [he]; rfl), fun n hn => ?_⟩
  exact of_decide_eq_true (hx'.2 n (List.mem_of_mem_drop hn))

-- a slash before the sub-path is taken away for the discovery only
example :
    (discoverSkillsInTree pdfSkill (restArchive plainTar "bundle-main".toList bundleWithReadme)
      "/skills".toList).map Prod.snd = some [⟨"pdf".toList, "pdf".toList, "Reads it.".toList⟩] ∧
    sliceSkillSubtree plainTar (restArchive plainTar "bundle-main".toList bundleWithReadme)
      "bundle-main".toList (subtreePath "/skills".toList "pdf".toList) = none := by
  decide +kernel

end AchProofs.Skills
