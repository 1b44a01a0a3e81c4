import AchProofs.Contentkit.PlainArchive
import AchProofs.Skills.Discover

namespace AchProofs.Skills

open Foundation Foundation.Links Cli.Extract Contentkit

/-- `os.ReadDir` of a directory in which everything was made by the extraction. -/
def readDir (d : Disk) (dir : List Name) : List Name :=
  (((d.made.filter fun place => place.dropLast = dir && d.tree place ≠ none).filterMap
    List.getLast?).dedup).insertionSort (· ≤ ·)

/-- Where `ContentDir` finds the skill, below the directory it is called with. -/
def contentDir (d : Disk) (nameDir : List Name) : Option (List Name) :=
  if (statFile d.tree nameDir [skillFile]).isSome then some []
  else
    ((readDir d nameDir).find? fun e =>
      d.tree (nameDir ++ [e]) = some .dir && (statFile d.tree nameDir [e, skillFile]).isSome).map
      fun e => [e]

/-- The front matter that `VerifySkillContents` asks for. -/
def ValidFront (h : Header) : Prop :=
  ∃ name description, h.frontmatter = some (name, description) ∧ validSkillName name = true ∧
    validDescription description = true

def extracted (cfg : Config) (privileged : Bool) (tree : Tree Name) (hs : List Header) : Disk :=
  (extract cfg (start tree) (hs.map (Header.entry privileged))).1.disk

/-- The path leads to a file that was written from the entry. -/
def LeadsTo (cfg : Config) (privileged : Bool) (tree : Tree Name) (hs : List Header)
    (path : List Name) (h : Header) : Prop :=
  ∃ loc, statFile (extracted cfg privileged tree hs).tree cfg.dst path = some loc ∧
    (loc, h) ∈ leftovers cfg (Header.entry privileged) (start tree) hs

/-- `ContentDir` succeeds, and the manifest in the directory it returns is valid. -/
def InstallsValid (cfg : Config) (privileged : Bool) (tree : Tree Name) (hs : List Header) : Prop :=
  ∃ dir h, contentDir (extracted cfg privileged tree hs) cfg.dst = some dir ∧
    LeadsTo cfg privileged tree hs (dir ++ [skillFile]) h ∧ ValidFront h

def Candidate (d : Disk) (dst dir : List Name) : Prop :=
  dir = [] ∨ ∃ e, dir = [e] ∧ d.tree (dst ++ [e]) = some .dir

def ManifestEntry (h : Header) : Prop :=
  h.typeflag = .reg ∧ (h.rel = [skillFile] ∨ ∃ e, h.rel = [e, skillFile])

/-- The manifest that comes first in the order of the stager, the root before the directories and
these by name, is valid. -/
def FirstManifestValid (hs : List Header) : Prop :=
  ∀ h ∈ hs, ManifestEntry h → (∀ g ∈ hs, ManifestEntry g → h.rel.dropLast ≤ g.rel.dropLast) →
    ValidFront h

section Sorted

variable {α : Type} [LinearOrder α] {l : List α} {a : α} {p : α → Bool}

theorem find?_eq_some_iff_least (hl : l.Pairwise (· < ·)) :
    l.find? p = some a ↔ a ∈ l ∧ p a = true ∧ ∀ b ∈ l, p b = true → a ≤ b := by
  induction l with
  | nil => simp
  | cons x l ih =>
    obtain ⟨hx, hl⟩ := List.pairwise_cons.mp hl
    cases hp : p x with
    | true =>
      rw [List.find?_cons_of_pos hp, Option.some.injEq]
      constructor
      · rintro rfl
        refine ⟨List.mem_cons_self .., hp, fun b hb _ => ?_⟩
        rcases List.mem_cons.mp hb with rfl | hb
        · exact le_rfl
        · exact (hx b hb).le
      · rintro ⟨ha, -, hleast⟩
        rcases List.mem_cons.mp ha with rfl | ha
        · rfl
        · exact absurd (hx a ha) (not_lt.mpr (hleast x (List.mem_cons_self ..) hp))
    | false =>
      rw [List.find?_cons_of_neg (by simp [hp]), ih hl]
      constructor
      · rintro ⟨ha, hpa, hleast⟩
        refine ⟨List.mem_cons_of_mem _ ha, hpa, fun b hb hpb => ?_⟩
        rcases List.mem_cons.mp hb with rfl | hb
        · rw [hp] at hpb
          cases hpb
        · exact hleast b hb hpb
      · rintro ⟨ha, hpa, hleast⟩
        rcases List.mem_cons.mp ha with rfl | ha
        · rw [hp] at hpa
          cases hpa
        · exact ⟨ha, hpa, fun b hb => hleast b (List.mem_cons_of_mem _ hb)⟩

end Sorted

theorem readDir_sorted (d : Disk) (dir : List Name) : (readDir d dir).Pairwise (· < ·) := by
  have hle : (readDir d dir).Pairwise (· ≤ ·) := List.pairwise_insertionSort (· ≤ ·) _
  have hne : (readDir d dir).Nodup :=
    (List.perm_insertionSort _ _).nodup_iff.mpr (List.nodup_dedup _)
  exact (hle.and hne).imp fun h => lt_of_le_of_ne h.1 h.2

theorem mem_readDir {d : Disk} {dir : List Name} {e : Name} :
    e ∈ readDir d dir ↔ dir ++ [e] ∈ d.made ∧ d.tree (dir ++ [e]) ≠ none := by
  rw [readDir, List.mem_insertionSort, List.mem_dedup, List.mem_filterMap]
  simp only [List.mem_filter, Bool.and_eq_true, decide_eq_true_eq]
  constructor
  · rintro ⟨place, ⟨hmade, hdir, hthere⟩, hlast⟩
    obtain ⟨init, rfl⟩ := List.getLast?_eq_some_iff.mp hlast
    rw [List.dropLast_concat] at hdir
    rw [← hdir]
    exact ⟨hmade, hthere⟩
  · rintro ⟨hmade, hthere⟩
    exact ⟨dir ++ [e], ⟨hmade, List.dropLast_concat, hthere⟩, List.getLast?_concat⟩

def HasManifest (d : Disk) (dst dir : List Name) : Prop :=
  Candidate d dst dir ∧ (statFile d.tree dst (dir ++ [skillFile])).isSome = true

theorem singleton_le_singleton {a b : Name} : [a] ≤ [b] ↔ a ≤ b := by
  rw [← not_lt, ← not_lt, List.cons_lt_cons_iff]
  simp

theorem contentDir_eq_some_iff {d : Disk} {dst dir : List Name}
    (hmade : ∀ e, d.tree (dst ++ [e]) ≠ none → dst ++ [e] ∈ d.made) :
    contentDir d dst = some dir ↔
      HasManifest d dst dir ∧ ∀ dir', HasManifest d dst dir' → dir ≤ dir' := by
  have hroot : HasManifest d dst [] ↔ (statFile d.tree dst [skillFile]).isSome = true :=
    and_iff_right (.inl rfl)
  have hsub : ∀ e, HasManifest d dst [e] ↔
      d.tree (dst ++ [e]) = some .dir ∧ (statFile d.tree dst [e, skillFile]).isSome = true := by
    intro e
    refine and_congr ⟨fun h => ?_, fun h => .inr ⟨e, rfl, h⟩⟩ Iff.rfl
    rcases h with h | ⟨e', he, hdir⟩
    · cases h
    · cases he
      exact hdir
  rw [contentDir]
  split_ifs with hstat
  · rw [Option.some.injEq]
    constructor
    · rintro rfl
      exact ⟨hroot.mpr hstat, fun _ _ => not_lt.mp (List.not_lt_nil _)⟩
    · rintro ⟨-, hleast⟩
      exact le_antisymm (not_lt.mp (List.not_lt_nil _)) (hleast [] (hroot.mpr hstat))
  · rw [Option.map_eq_some_iff]
    simp only [find?_eq_some_iff_least (readDir_sorted d dst), mem_readDir, Bool.and_eq_true,
      decide_eq_true_eq, ← hsub]
    have hlisted :
        ∀ e, HasManifest d dst [e] → dst ++ [e] ∈ d.made ∧ d.tree (dst ++ [e]) ≠ none := by
      intro e he
      have hthere : d.tree (dst ++ [e]) ≠ none := by
        rw [((hsub e).mp he).1]
        simp
      exact ⟨hmade e hthere, hthere⟩
    constructor
    · rintro ⟨e, ⟨-, hman, hleast⟩, rfl⟩
      refine ⟨hman, fun dir' hdir' => ?_⟩
      rcases hdir'.1 with rfl | ⟨e', rfl, -⟩
      · exact absurd (hroot.mp hdir') hstat
      · exact singleton_le_singleton.mpr (hleast e' (hlisted e' hdir') hdir')
    · rintro ⟨hman, hleast⟩
      rcases hman.1 with rfl | ⟨e, rfl, -⟩
      · exact absurd (hroot.mp hman) hstat
      · exact ⟨e,
          ⟨hlisted e hman, hman, fun e' _ he' => singleton_le_singleton.mp (hleast [e'] he')⟩, rfl⟩

section Install

variable {cfg : Config} {privileged : Bool} {tree : Tree Name} {hs : List Header} {h : Header}

theorem extracted_made (hempty : ∀ q, q ≠ [] → tree (cfg.dst ++ q) = none) (e : Name)
    (h : (extracted cfg privileged tree hs).tree (cfg.dst ++ [e]) ≠ none) :
    cfg.dst ++ [e] ∈ (extracted cfg privileged tree hs).made := by
  refine (extract_leaves cfg (Header.entry privileged) (start tree) hs).recorded _ ?_
  have hnone : (start tree).disk.tree (cfg.dst ++ [e]) = none := hempty [e] (by simp)
  rwa [hnone]

theorem installsValid_iff (hempty : ∀ q, q ≠ [] → tree (cfg.dst ++ q) = none) :
    InstallsValid cfg privileged tree hs ↔
      ∃ dir h, Candidate (extracted cfg privileged tree hs) cfg.dst dir ∧
        LeadsTo cfg privileged tree hs (dir ++ [skillFile]) h ∧ ValidFront h ∧
        ∀ dir', HasManifest (extracted cfg privileged tree hs) cfg.dst dir' → dir ≤ dir' := by
  unfold InstallsValid
  simp only [contentDir_eq_some_iff (extracted_made hempty)]
  constructor
  · rintro ⟨dir, h, ⟨⟨hcand, -⟩, hleast⟩, hlead, hvalid⟩
    exact ⟨dir, h, hcand, hlead, hvalid, hleast⟩
  · rintro ⟨dir, h, hcand, ⟨loc, hstat, hmem⟩, hvalid, hleast⟩
    exact ⟨dir, h, ⟨⟨hcand, by rw [hstat]; rfl⟩, hleast⟩, ⟨loc, hstat, hmem⟩, hvalid⟩

theorem statFile_linkFree {dst path loc : List Name} (hl : LinkFree dst tree)
    (h : statFile tree dst path = some loc) : loc = dst ++ path ∧ tree loc = some .file := by
  unfold statFile at h
  split at h
  · cases h
  · rename_i loc' hwalk
    split_ifs at h with hfile
    cases h
    have hwalk' : walk tree openEnter kernelHops (dst ++ []) (names path) = .ok loc := by
      rwa [List.append_nil]
    exact ⟨walk_linkFree_place hl hwalk', hfile⟩

theorem statFile_concat {dst up : List Name} {n : Name}
    (hdirs : ∀ m, m ≠ [] → m <+: up → tree (dst ++ m) = some .dir)
    (hfile : tree (dst ++ (up ++ [n])) = some .file) :
    statFile tree dst (up ++ [n]) = some (dst ++ (up ++ [n])) := by
  have hlast : tree (dst ++ up ++ [n]) = some .file := by rwa [List.append_assoc]
  have hwalk :
      walk tree openEnter kernelHops dst (names (up ++ [n])) = .ok (dst ++ (up ++ [n])) := by
    rw [names_append, walk_names (fun _ => rfl) hdirs, ← List.append_assoc]
    refine (walk_pass (fun t => ?_) ?_).trans walk_nil
    · rw [hlast]
      simp
    · rw [hlast]
      rfl
  rw [statFile, hwalk]
  exact if_pos hfile

theorem reg_iff :
    (∃ size broken, (h.entry privileged).kind = .reg size broken) ↔ h.typeflag = .reg := by
  cases hflag : h.typeflag <;> simp [Header.entry, hflag]

theorem linkFree_start (hempty : ∀ q, q ≠ [] → tree (cfg.dst ++ q) = none) :
    LinkFree cfg.dst (start tree).disk.tree := by
  intro q t hq ht
  have hnone : (start tree).disk.tree (cfg.dst ++ q) = none := hempty q hq
  rw [hnone] at ht
  cases ht

theorem not_symlink (hflag : h.typeflag ≠ .symlink) (name : List Char) :
    (h.entry privileged).kind ≠ .symlink name := by
  cases hf : h.typeflag <;> simp_all [Header.entry]

theorem hasManifest_iff (hempty : ∀ q, q ≠ [] → tree (cfg.dst ++ q) = none)
    (hplain : ∀ h ∈ hs, h.typeflag ≠ .symlink)
    (hok : (extract cfg (start tree) (hs.map (Header.entry privileged))).2 = none)
    {dir : List Name} :
    HasManifest (extracted cfg privileged tree hs) cfg.dst dir ↔
      ∃ h ∈ hs, ManifestEntry h ∧ h.rel = dir ++ [skillFile] := by
  obtain ⟨hl, hmem, hdirs⟩ := leftovers_plain hs (linkFree_start hempty)
    (fun h hh => not_symlink (hplain h hh)) hok
  constructor
  · rintro ⟨hcand, hstat⟩
    obtain ⟨loc, hloc⟩ := Option.isSome_iff_exists.mp hstat
    obtain ⟨rfl, hfile⟩ := statFile_linkFree hl hloc
    obtain ⟨h, hh⟩ := exists_of_leaf hs (leaf_of_eq hfile (by simp)) (hempty _ (by simp))
    obtain ⟨hin, hreg, hrel⟩ := (hmem _ h).mp hh
    have hrel' : h.rel = dir ++ [skillFile] := (List.append_cancel_left hrel).symm
    refine ⟨h, hin, ⟨reg_iff.mp hreg, ?_⟩, hrel'⟩
    rcases hcand with rfl | ⟨e, rfl, -⟩
    · exact .inl hrel'
    · exact .inr ⟨e, hrel'⟩
  · rintro ⟨h, hin, ⟨hreg, hshape⟩, hrel⟩
    have hleft := (hmem _ h).mpr ⟨hin, reg_iff.mpr hreg, rfl⟩
    have hdrop : (h.entry privileged).rel.dropLast = dir := by
      show h.rel.dropLast = dir
      rw [hrel, List.dropLast_concat]
    have habove := hdirs h hin (reg_iff.mpr hreg)
    rw [hdrop] at habove
    have hfile :
        (extracted cfg privileged tree hs).tree (cfg.dst ++ (dir ++ [skillFile])) = some .file := by
      rw [← hrel]
      rcases (tree_of_mem_leftovers hs hleft).2 with ⟨-, hfile⟩ | ⟨name, hlink, -⟩
      · exact hfile
      · obtain ⟨size, broken, hkind⟩ := reg_iff.mpr hreg
        cases hkind.symm.trans hlink
    have hstat :
        statFile (extracted cfg privileged tree hs).tree cfg.dst (dir ++ [skillFile]) = _ :=
      statFile_concat habove hfile
    refine ⟨?_, by rw [hstat]; rfl⟩
    rcases hshape with hroot | ⟨e, hsub⟩
    · exact .inl (List.append_inj' (hrel.symm.trans hroot) rfl).1
    · have hdir : dir = [e] := (List.append_inj' (hrel.symm.trans hsub) rfl).1
      exact .inr ⟨e, hdir, habove [e] (by simp) (by rw [hdir])⟩

theorem leadsTo_iff (hempty : ∀ q, q ≠ [] → tree (cfg.dst ++ q) = none)
    (hplain : ∀ h ∈ hs, h.typeflag ≠ .symlink)
    (hok : (extract cfg (start tree) (hs.map (Header.entry privileged))).2 = none) {dir : List Name}
    (hman : HasManifest (extracted cfg privileged tree hs) cfg.dst dir) :
    LeadsTo cfg privileged tree hs (dir ++ [skillFile]) h ↔
      h ∈ hs ∧ h.typeflag = .reg ∧ h.rel = dir ++ [skillFile] := by
  obtain ⟨hl, hmem, -⟩ := leftovers_plain hs (linkFree_start hempty)
    (fun h hh => not_symlink (hplain h hh)) hok
  obtain ⟨loc, hloc⟩ := Option.isSome_iff_exists.mp hman.2
  obtain ⟨rfl, -⟩ := statFile_linkFree hl hloc
  constructor
  · rintro ⟨loc', hloc', hleft⟩
    cases hloc.symm.trans hloc'
    obtain ⟨hin, hreg, hrel⟩ := (hmem _ h).mp hleft
    exact ⟨hin, reg_iff.mp hreg, (List.append_cancel_left hrel).symm⟩
  · rintro ⟨hin, hreg, hrel⟩
    exact ⟨_, hloc, (hmem _ h).mpr ⟨hin, reg_iff.mpr hreg, congrArg (cfg.dst ++ ·) hrel.symm⟩⟩

end Install

section Verified

variable {hs : List Header} {h : Header}

theorem parts_trimDotSlash (name : List Char) :
    (parse (trimDotSlash name)).parts = (parse name).parts := by
  unfold trimDotSlash
  split
  · rename_i rest
    have hsplit : ('.' :: '/' :: rest).splitOn '/' = ['.'] :: rest.splitOn '/' := by
      simp [List.splitOn, List.splitOnP_cons_eq_if_modifyHead]
    have hdot : part ['.'] = none := by simp [part]
    show _ = List.filterMap part (('.' :: '/' :: rest).splitOn '/')
    rw [hsplit, List.filterMap_cons_none hdot]
    rfl
  · rfl

theorem manifestEntry_of_skillManifest (hreg : h.typeflag = .reg) (hsafe : h.Safe)
    (hman : skillManifest h = true) : ManifestEntry h := by
  have hup : (normal (parse h.name).parts).1 = 0 := by
    have hname := hsafe.name
    unfold safeRelLexical at hname
    split_ifs at hname with _ _ _ _ hzero
    exact not_not.mp hzero
  unfold skillManifest at hman
  dsimp only at hman
  rw [parts_trimDotSlash, hup] at hman
  obtain ⟨hlast, hslash⟩ := Bool.and_eq_true_iff.mp hman
  obtain ⟨init, hinit⟩ := List.getLast?_eq_some_iff.mp (of_decide_eq_true hlast)
  have hrel : h.rel = init ++ [skillFile] := hinit
  have hlen : init.length ≤ 1 := by
    have hle := of_decide_eq_true hslash
    rw [hinit, List.length_append, List.length_singleton] at hle
    split_ifs at hle <;> omega
  refine ⟨hreg, ?_⟩
  cases init with
  | nil => exact .inl hrel
  | cons e init =>
    rw [List.length_cons] at hlen
    obtain rfl : init = [] := List.eq_nil_of_length_eq_zero (by omega)
    exact .inr ⟨e, hrel⟩

theorem manifest_of_markSkill {found : Bool} (hmark : markSkill h found = .ok true) :
    found = true ∨ h.typeflag = .reg ∧ skillManifest h = true := by
  unfold markSkill at hmark
  split_ifs at hmark with hskip
  · exact .inl (Except.ok.inj hmark)
  · rw [not_or, not_or, not_not, not_not] at hskip
    exact .inr hskip.2

theorem exists_of_verifyWalk {seen : ℕ} {found : Bool}
    (h : verifyWalk markSkill seen found hs = .ok true) :
    found = true ∨ ∃ g ∈ hs, g.typeflag = .reg ∧ skillManifest g = true := by
  induction hs generalizing seen found with
  | nil => exact .inl (Except.ok.inj h)
  | cons x hs ih =>
    rw [verifyWalk] at h
    split_ifs at h
    split at h
    · cases h
    · split at h
      · cases h
      · rename_i found' hmark
        rcases ih h with rfl | ⟨g, hg, hman⟩
        · rcases manifest_of_markSkill hmark with hfound | hman
          · exact .inl hfound
          · exact .inr ⟨x, List.mem_cons_self .., hman⟩
        · exact .inr ⟨g, List.mem_cons_of_mem _ hg, hman⟩

theorem exists_manifest (hver : verifySkillContents hs = .ok ()) : ∃ h ∈ hs, ManifestEntry h := by
  have hsafe := verify_safe hver
  unfold verifySkillContents verify at hver
  split at hver
  · cases hver
  · rename_i found hwalk
    split_ifs at hver with hfound
    rw [hfound] at hwalk
    rcases exists_of_verifyWalk hwalk with hfalse | ⟨h, hh, hreg, hman⟩
    · cases hfalse
    · exact ⟨h, hh, manifestEntry_of_skillManifest hreg (safe_of_tarEntrySafe (hsafe h hh)) hman⟩

theorem exists_first_manifest (hsome : ∃ h ∈ hs, ManifestEntry h) :
    ∃ h ∈ hs, ManifestEntry h ∧ ∀ g ∈ hs, ManifestEntry g → h.rel.dropLast ≤ g.rel.dropLast := by
  classical
  obtain ⟨h₀, hh₀, hman₀⟩ := hsome
  obtain ⟨h, hh, hleast⟩ :=
    (hs.toFinset.filter ManifestEntry).exists_min_image (fun h => h.rel.dropLast)
    ⟨h₀, by simp [hh₀, hman₀]⟩
  simp only [Finset.mem_filter, List.mem_toFinset, and_imp] at hh hleast
  exact ⟨h, hh.1, hh.2, hleast⟩

theorem ManifestEntry.rel_eq (h' : ManifestEntry h) : h.rel = h.rel.dropLast ++ [skillFile] := by
  rcases h'.2 with hrel | ⟨e, hrel⟩
  · rw [hrel]
    rfl
  · rw [hrel]
    rfl

end Verified

/-- For an archive that the verifier accepts and that is extracted into an empty directory, the
manifest that is installed is valid if and only if the first that the stager finds is: the one at
the root, or else in the first directory by name. For an archive without links, so for every archive
that is extracted under the default policy, this is the first manifest among the entries. -/
theorem validated_manifest_installed_iff (cfg : Config) (privileged : Bool) (tree : Tree Name)
    (hs : List Header) (hempty : ∀ q, q ≠ [] → tree (cfg.dst ++ q) = none)
    (hver : verifySkillContents hs = .ok ())
    (hok : (extract cfg (start tree) (hs.map (Header.entry privileged))).2 = none) :
    (InstallsValid cfg privileged tree hs ↔
      ∃ dir h, Candidate (extracted cfg privileged tree hs) cfg.dst dir ∧
        LeadsTo cfg privileged tree hs (dir ++ [skillFile]) h ∧ ValidFront h ∧
        ∀ dir', HasManifest (extracted cfg privileged tree hs) cfg.dst dir' → dir ≤ dir') ∧
    ((∀ h ∈ hs, h.typeflag ≠ .symlink) →
      (InstallsValid cfg privileged tree hs ↔ FirstManifestValid hs)) := by
  refine ⟨installsValid_iff hempty, fun hplain => ?_⟩
  rw [installsValid_iff hempty]
  have hman : ∀ {dir}, HasManifest _ cfg.dst dir ↔ _ := hasManifest_iff hempty hplain hok
  constructor
  · rintro ⟨dir, g, hcand, ⟨loc, hstat, hleft⟩, hvalid, hleast⟩ h hh hentry hfirst
    have hdir : HasManifest (extracted cfg privileged tree hs) cfg.dst dir :=
      ⟨hcand, by rw [hstat]; rfl⟩
    obtain ⟨f, hf, hfentry, hfrel⟩ := hman.mp hdir
    -- the first entry is in the directory that is returned
    have hle := hleast h.rel.dropLast (hman.mpr ⟨h, hh, hentry, hentry.rel_eq⟩)
    have hge := hfirst f hf hfentry
    rw [hfrel, List.dropLast_concat] at hge
    have hrel : h.rel = dir ++ [skillFile] := by
      rw [hentry.rel_eq, le_antisymm hge hle]
    obtain ⟨loc', hstat', hleft'⟩ := (leadsTo_iff hempty hplain hok hdir).mpr ⟨hh, hentry.1, hrel⟩
    cases hstat.symm.trans hstat'
    have hnodup := (extract_leaves cfg (Header.entry privileged) (start tree) hs).nodup
    have hsame : g = h := (Prod.mk.inj (List.inj_on_of_nodup_map hnodup hleft hleft' rfl)).2
    exact hsame ▸ hvalid
  · intro hfirst
    obtain ⟨h, hh, hentry, hleast⟩ := exists_first_manifest (exists_manifest hver)
    have hdir := hman.mpr ⟨h, hh, hentry, hentry.rel_eq⟩
    refine ⟨h.rel.dropLast, h, hdir.1, ?_, hfirst h hh hentry hleast, fun dir' hdir' => ?_⟩
    · exact (leadsTo_iff hempty hplain hok hdir).mpr ⟨hh, hentry.1, hentry.rel_eq⟩
    · obtain ⟨g, hg, hgentry, hgrel⟩ := hman.mp hdir'
      have hle := hleast g hg hgentry
      rwa [hgrel, List.dropLast_concat] at hle

def defaultPolicy : Config := ⟨symlinksAllowed.dst, 10, 100, false⟩

def skillHeader (name : String) (front : Option (List Char × List Char)) : Header :=
  ⟨name.toList, none, .reg, [], 0o644, 2, 512, front⟩

def pdfFront : Option (List Char × List Char) := some ("pdf".toList, "Reads it.".toList)

theorem validFront_pdf (name : String) : ValidFront (skillHeader name pdfFront) :=
  ⟨"pdf".toList, "Reads it.".toList, rfl, by decide +kernel, by decide +kernel⟩

/-- The manifest at the root comes before the one below it, which is not valid. -/
theorem root_skill_installed :
    InstallsValid defaultPolicy false staging
      [skillHeader "SKILL.md" pdfFront, skillHeader "old/SKILL.md" none] := by
  refine ((validated_manifest_installed_iff defaultPolicy false staging _ staging_empty
    (by decide +kernel) (by decide +kernel)).2 (by decide +kernel)).mpr ?_
  intro h hh hentry hfirst
  obtain rfl | rfl := List.mem_pair.mp hh
  · exact validFront_pdf _
  · have hroot : ManifestEntry (skillHeader "SKILL.md" pdfFront) := ⟨rfl, .inl (by decide +kernel)⟩
    have hle := hfirst _ (by simp) hroot
    exact absurd hle (by decide +kernel)

/-- The verifier stops at the valid manifest in `b`, which comes first in the archive; the stager
installs the one in `a`. -/
theorem unvalidated_manifest_installed :
    verifySkillContents [skillHeader "b/SKILL.md" pdfFront, skillHeader "a/SKILL.md" none] =
      .ok () ∧
      (extract defaultPolicy (start staging)
        ([skillHeader "b/SKILL.md" pdfFront, skillHeader "a/SKILL.md" none].map
          (Header.entry false))).2 = none ∧
      ¬ InstallsValid defaultPolicy false staging
        [skillHeader "b/SKILL.md" pdfFront, skillHeader "a/SKILL.md" none] := by
  refine ⟨by decide +kernel, by decide +kernel, ?_⟩
  rintro ⟨dir, h, hdir, ⟨loc, hloc, hleft⟩, name, description, hfront, -⟩
  have hfound : contentDir (extracted defaultPolicy false staging
      [skillHeader "b/SKILL.md" pdfFront, skillHeader "a/SKILL.md" none]) defaultPolicy.dst =
      some ["a".toList] := by decide +kernel
  cases hfound.symm.trans hdir
  have hplace : statFile (extracted defaultPolicy false staging
      [skillHeader "b/SKILL.md" pdfFront, skillHeader "a/SKILL.md" none]).tree defaultPolicy.dst
      (["a".toList] ++ [skillFile]) =
      some (defaultPolicy.dst ++ ["a".toList, skillFile]) := by decide +kernel
  cases hplace.symm.trans hloc
  have hnone : ∀ p ∈ leftovers defaultPolicy (Header.entry false) (start staging)
      [skillHeader "b/SKILL.md" pdfFront, skillHeader "a/SKILL.md" none],
      p.1 = defaultPolicy.dst ++ ["a".toList, skillFile] →
        p.2.frontmatter = none := by decide +kernel
  rw [hnone _ hleft rfl] at hfront
  cases hfront

end AchProofs.Skills
