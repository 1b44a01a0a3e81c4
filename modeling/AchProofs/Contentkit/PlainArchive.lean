import AchProofs.Cli.ExtractPlain
import AchProofs.Contentkit.VerifiedExtracts

namespace AchProofs.Contentkit

open Foundation Foundation.Links Cli.Extract

def Header.Makes (h : Header) : Prop := h.typeflag = .reg ∨ h.typeflag = .dir

/-- No file of the two is at or above the path of the other. -/
def Apart (g h : Header) : Prop :=
  (g.typeflag = .reg → h.Makes → ¬ g.rel <+: h.rel) ∧
    (h.typeflag = .reg → g.Makes → ¬ h.rel <+: g.rel)

/-- What some entries without links have left: their files, and the directories above them. -/
structure Laid (dst : List Name) (done : List Header) (tree : Tree Name) : Prop where
  linkFree : LinkFree dst tree
  file_iff : ∀ q, q ≠ [] →
    (tree (dst ++ q) = some .file ↔ ∃ g ∈ done, g.typeflag = .reg ∧ g.rel = q)
  there_iff : ∀ q, q ≠ [] → (tree (dst ++ q) ≠ none ↔ ∃ g ∈ done, g.Makes ∧ q <+: g.rel)

variable {dst : List Name} {cfg : Config} {s : State} {d : Disk} {h : Header}
  {hs done : List Header}
  {tree : Tree Name}

theorem Laid.no_file_iff (hl : Laid dst done tree) (hsafe : ∀ g ∈ done, g.Safe) {rel : List Name} :
    (∀ m, m ≠ [] → m <+: rel → tree (dst ++ m) ≠ some .file) ↔
      ∀ g ∈ done, g.typeflag = .reg → ¬ g.rel <+: rel := by
  constructor
  · intro hno g hg hreg hpre
    have hne := (hsafe g hg).rel (.inl hreg)
    exact hno g.rel hne hpre ((hl.file_iff _ hne).mpr ⟨g, hg, hreg, rfl⟩)
  · intro hno m hm hpre hfile
    obtain ⟨g, hg, hreg, rfl⟩ := (hl.file_iff m hm).mp hfile
    exact hno g hg hreg hpre

theorem Laid.fits_iff (privileged : Bool) (hl : Laid cfg.dst done s.disk.tree)
    (hg : Ground cfg.dst s.disk.tree) (hdone : ∀ g ∈ done, g.Safe) (hsafe : h.Safe)
    (hplain : h.typeflag ≠ .symlink) :
    Fits cfg s (h.entry privileged) ↔
      (h.typeflag = .reg → reopens privileged h.mode = true) ∧ ∀ g ∈ done, Apart g h := by
  have hrel : (normal (parse (h.entry privileged).name).parts).2 = h.rel := rfl
  unfold Fits
  rw [hrel]
  rcases hsafe.typeflag with hflag | hflag | hflag | hflag | hflag
  · have hne := hsafe.rel (.inl hflag)
    have hkind : (h.entry privileged).kind = .reg h.size !(reopens privileged h.mode) := by
      simp [Header.entry, hflag]
    have hnone : s.disk.tree (cfg.dst ++ h.rel) = none ↔
        ∀ g ∈ done, g.Makes → ¬ h.rel <+: g.rel := by
      rw [← not_not (a := _ = none), ← ne_eq, hl.there_iff _ hne]
      exact ⟨fun hno g hg hm hpre => hno ⟨g, hg, hm, hpre⟩,
        fun hno hex => hex.elim fun g h => hno g h.1 h.2.1 h.2.2⟩
    rw [hkind]
    dsimp only
    rw [vacant_iff hg hl.linkFree, hl.no_file_iff hdone, hnone, Bool.not_eq_false']
    constructor
    · rintro ⟨⟨-, hbelow, habove⟩, hmode⟩
      exact ⟨fun _ => hmode, fun g hg => ⟨fun hreg _ => habove g hg hreg, fun _ => hbelow g hg⟩⟩
    · rintro ⟨hmode, hapart⟩
      exact ⟨⟨hne, fun g hg => (hapart g hg).2 hflag,
        fun g hg hreg => (hapart g hg).1 hreg (.inl hflag)⟩, hmode hflag⟩
  · have hkind : (h.entry privileged).kind = .dir := by simp [Header.entry, hflag]
    rw [hkind]
    dsimp only
    rw [reaches_linkFree_iff hg hl.linkFree, vacant_iff hg hl.linkFree]
    have hway : (h.rel = [] ∨ s.disk.tree (cfg.dst ++ h.rel) = some .dir) ∨
        (h.rel ≠ [] ∧ s.disk.tree (cfg.dst ++ h.rel) = none ∧
          ∀ m, m ≠ [] → m <+: h.rel → s.disk.tree (cfg.dst ++ m) ≠ some .file) ↔
        ∀ m, m ≠ [] → m <+: h.rel → s.disk.tree (cfg.dst ++ m) ≠ some .file := by
      constructor
      · rintro (hdir | ⟨-, -, hno⟩)
        · intro m hm hpre
          rw [dirs_of_dir hg hdir m hm hpre]
          simp
        · exact hno
      · intro hno
        by_cases hrel : h.rel = []
        · exact .inl (.inl hrel)
        · cases hnode : s.disk.tree (cfg.dst ++ h.rel) with
          | none => exact .inr ⟨hrel, rfl, hno⟩
          | some node =>
            cases node with
            | dir => exact .inl (.inr rfl)
            | file => exact absurd hnode (hno _ hrel List.prefix_rfl)
            | link t => exact absurd hnode (hl.linkFree _ t hrel)
    rw [hway, hl.no_file_iff hdone]
    simp only [Apart, hflag, Header.Makes, reduceCtorEq, false_or, true_implies, false_implies,
      and_true, true_and]
  · exact absurd hflag hplain
  all_goals
    have hkind : (h.entry privileged).kind = .paxHeader := by simp [Header.entry, hflag]
    rw [hkind]
    simp [Apart, Header.Makes, hflag]

theorem mkdirAll_laid (hg : Ground dst d.tree) (hl : LinkFree dst d.tree) (path : List Name)
    (hok : (mkdirAll dst d path.reverse).2 = true) :
    LinkFree dst (mkdirAll dst d path.reverse).1.tree ∧ ∀ q, q ≠ [] →
      ((mkdirAll dst d path.reverse).1.tree (dst ++ q) = some .file ↔
        d.tree (dst ++ q) = some .file) ∧
      ((mkdirAll dst d path.reverse).1.tree (dst ++ q) ≠ none ↔
        d.tree (dst ++ q) ≠ none ∨ q <+: path) := by
  have hspec := mkdirAll_spec hg path.reverse
  have hadd := mkdirAll_plain hg hl path.reverse
  have hlinks := (mkdirAll_keeps dst d path.reverse).2
  rw [List.reverse_reverse] at hspec hadd
  generalize mkdirAll dst d path.reverse = made at hok hspec hadd hlinks
  obtain ⟨d', ok⟩ := made
  have hl' : LinkFree dst d'.tree := fun q t hq ht => hl q t hq ((hlinks _ _).mp ht)
  have hdirs : ∀ m, m ≠ [] → m <+: path → d'.tree (dst ++ m) = some .dir := by
    rcases hspec.ok_iff.mp hok with ⟨loc, hloc⟩ | hvac
    · have hsame : d' = d := hspec.reaches ⟨loc, hloc⟩
      rw [hsame]
      exact (walk_dst_linkFree hl hloc).2
    · obtain ⟨loc, hloc, -⟩ := hspec.vacant hvac
      exact (walk_dst_linkFree hl' hloc).2
  refine ⟨hl', fun q hq => ?_⟩
  rcases hadd q hq with hsame | ⟨hdir, hnone, hpre⟩
  · refine ⟨by rw [hsame], fun h => .inl (hsame ▸ h), fun h => ?_⟩
    rcases h with h | h
    · exact hsame.symm ▸ h
    · rw [hdirs q hq h]
      simp
  · dsimp only at hdir ⊢
    rw [hdir, hnone]
    exact ⟨by simp, iff_of_true (by simp) (.inr hpre)⟩

theorem isPrefixOf_dropLast_iff {q rel : List Name} (hrel : rel ≠ []) :
    q <+: rel.dropLast ↔ q <+: rel ∧ q ≠ rel := by
  constructor
  · intro h
    refine ⟨h.trans (List.dropLast_prefix rel), ?_⟩
    rintro rfl
    have hlen := h.length_le
    rw [List.length_dropLast] at hlen
    have := List.length_pos_of_ne_nil hrel
    omega
  · rintro ⟨h, hne⟩
    have hsplit := List.dropLast_append_getLast hrel
    rw [← hsplit, List.prefix_concat_iff] at h
    rcases h with h | h
    · exact absurd (h.trans hsplit) hne
    · exact h

theorem exists_cons_iff {P : Header → Prop} :
    (∃ g ∈ h :: done, P g) ↔ P h ∨ ∃ g ∈ done, P g := by
  simp

theorem Laid.step (privileged : Bool) (hl : Laid cfg.dst done s.disk.tree)
    (hg : Ground cfg.dst s.disk.tree) (hsafe : h.Safe) (hplain : h.typeflag ≠ .symlink)
    (hok : (writeEntry cfg s h.rel (h.entry privileged).kind).2 = none) :
    Laid cfg.dst (h :: done) (writeEntry cfg s h.rel (h.entry privileged).kind).1.disk.tree := by
  rcases hsafe.typeflag with hflag | hflag | hflag | hflag | hflag
  · have hne := hsafe.rel (.inl hflag)
    have hkind : (h.entry privileged).kind = .reg h.size !(reopens privileged h.mode) := by
      simp [Header.entry, hflag]
    have hlaid := mkdirAll_laid hg hl.linkFree h.rel.dropLast
    have hspec := mkdirAll_spec hg h.rel.dropLast.reverse
    rw [hkind] at hok ⊢
    unfold writeEntry writeRegular at hok ⊢
    generalize mkdirAll cfg.dst s.disk h.rel.dropLast.reverse = made at hok hlaid hspec
    obtain ⟨d', ok⟩ := made
    cases ok with
    | false => cases hok
    | true =>
      dsimp only at hok hlaid hspec ⊢
      obtain ⟨hl', hq⟩ := hlaid rfl
      cases hplace : freePlace cfg.dst d'.tree h.rel with
      | none =>
        rw [hplace] at hok
        cases hok
      | some place =>
        rw [hplace] at hok
        dsimp only at hok ⊢
        split_ifs at hok ⊢
        have hplace' :
            freePlace cfg.dst d'.tree (h.rel.dropLast ++ [h.rel.getLast hne]) = some place := by
          rwa [List.dropLast_append_getLast hne]
        obtain ⟨-, -, parent, rfl, -, hparent⟩ := hspec.ground.put .file hplace'
        obtain ⟨rfl, -⟩ := walk_dst_linkFree hl' hparent
        rw [List.append_assoc, List.dropLast_append_getLast hne]
        -- the new file, and the old tree with the directories above it elsewhere
        have hself : (d'.put (cfg.dst ++ h.rel) .file).tree (cfg.dst ++ h.rel) = some .file :=
          Function.update_self ..
        have hother : ∀ q, q ≠ h.rel →
            (d'.put (cfg.dst ++ h.rel) .file).tree (cfg.dst ++ q) = d'.tree (cfg.dst ++ q) :=
          fun q hq => Function.update_of_ne (fun he => hq (List.append_cancel_left he)) ..
        refine ⟨fun q t hq0 ht => ?_, fun q hq0 => ?_, fun q hq0 => ?_⟩
        · by_cases hqr : q = h.rel
          · rw [hqr, hself] at ht
            cases ht
          · rw [hother q hqr] at ht
            exact hl' q t hq0 ht
        · by_cases hqr : q = h.rel
          · rw [hqr]
            exact iff_of_true hself ⟨h, List.mem_cons_self .., hflag, rfl⟩
          · rw [hother q hqr, (hq q hq0).1, hl.file_iff q hq0, exists_cons_iff]
            exact ⟨.inr, fun hor => hor.resolve_left fun hh => hqr hh.2.symm⟩
        · by_cases hqr : q = h.rel
          · rw [hqr]
            exact iff_of_true (by rw [hself]; simp)
              ⟨h, List.mem_cons_self .., .inl hflag, List.prefix_rfl⟩
          · rw [hother q hqr, (hq q hq0).2, hl.there_iff q hq0, exists_cons_iff,
              isPrefixOf_dropLast_iff hne, or_comm]
            exact or_congr ⟨fun hh => ⟨.inl hflag, hh.1⟩, fun hh => ⟨hh.2, hqr⟩⟩ Iff.rfl
  · have hkind : (h.entry privileged).kind = .dir := by simp [Header.entry, hflag]
    have hlaid := mkdirAll_laid hg hl.linkFree h.rel
    rw [hkind] at hok ⊢
    unfold writeEntry at hok ⊢
    dsimp only at hok ⊢
    generalize mkdirAll cfg.dst s.disk h.rel.reverse = made at hok hlaid
    obtain ⟨d', ok⟩ := made
    cases ok with
    | false => cases hok
    | true =>
      obtain ⟨hl', hq⟩ := hlaid rfl
      refine ⟨hl', fun q hq0 => ?_, fun q hq0 => ?_⟩
      · show d'.tree _ = _ ↔ _
        rw [(hq q hq0).1, hl.file_iff q hq0, exists_cons_iff]
        exact ⟨.inr, fun hor => hor.resolve_left fun hh => by simp [hflag] at hh⟩
      · show d'.tree _ ≠ _ ↔ _
        rw [(hq q hq0).2, hl.there_iff q hq0, exists_cons_iff, or_comm]
        exact or_congr ⟨fun hh => ⟨.inr hflag, hh⟩, fun hh => hh.2⟩ Iff.rfl
  · exact absurd hflag hplain
  all_goals
    have hkind : (h.entry privileged).kind = .paxHeader := by simp [Header.entry, hflag]
    rw [hkind]
    refine ⟨hl.linkFree, fun q hq0 => (hl.file_iff q hq0).trans ?_,
      fun q hq0 => (hl.there_iff q hq0).trans ?_⟩
    · simp [hflag]
    · simp [hflag, Header.Makes]

theorem extract_ok_iff_apart (privileged : Bool) (hdst : cfg.dst ≠ [])
    (hlinks : cfg.allowSymlinks = true)
    (hl : Laid cfg.dst done s.disk.tree) (hdone : ∀ g ∈ done, g.Safe) (hsafe : ∀ h ∈ hs, h.Safe)
    (hplain : ∀ h ∈ hs, h.typeflag ≠ .symlink) (hg : Ground cfg.dst s.disk.tree)
    (hroom : Room cfg s hs) :
    (extract cfg s (hs.map (Header.entry privileged))).2 = none ↔
      (∀ h ∈ hs, h.typeflag = .reg → reopens privileged h.mode = true) ∧ hs.Pairwise Apart ∧
        ∀ g ∈ done, ∀ h ∈ hs, Apart g h := by
  induction hs generalizing s done with
  | nil => simp [extract]
  | cons h hs ih =>
    have hsafe' := hsafe h (List.mem_cons_self ..)
    have hplain' := hplain h (List.mem_cons_self ..)
    obtain ⟨hiff, hnext⟩ := extractEntry_ok privileged hdst hlinks hsafe' hg hroom
    have hcount := hroom.entries
    rw [List.length_cons] at hcount
    have hstep := Laid.step (s := { s with entriesSeen := s.entriesSeen + 1 }) privileged hl hg
      hsafe' hplain'
    rw [← extractEntry_of_safe privileged hdst hsafe' (by omega)] at hstep
    rw [hl.fits_iff privileged hg hdone hsafe' hplain'] at hiff
    rw [List.map_cons, extract, List.pairwise_cons, List.forall_mem_cons]
    generalize extractEntry cfg s (h.entry privileged) = r at hiff hnext hstep
    obtain ⟨s', err⟩ := r
    cases err with
    | some e =>
      refine iff_of_false (by simp) fun hall => ?_
      have : some e = none :=
        hiff.mpr ⟨hall.1.1, fun g hg => hall.2.2 g hg h (List.mem_cons_self ..)⟩
      cases this
    | none =>
      obtain ⟨hg', hroom'⟩ := hnext rfl
      obtain ⟨hmode, hapart⟩ := hiff.mp rfl
      dsimp only
      rw [ih (hstep rfl) (List.forall_mem_cons.mpr ⟨hsafe', hdone⟩)
        (fun x hx => hsafe x (List.mem_cons_of_mem _ hx))
        (fun x hx => hplain x (List.mem_cons_of_mem _ hx)) hg' hroom', List.forall_mem_cons]
      constructor
      · rintro ⟨hmodes, hpair, hfirst, hrest⟩
        exact ⟨⟨hmode, hmodes⟩, ⟨hfirst, hpair⟩, fun g hg =>
          List.forall_mem_cons.mpr ⟨hapart g hg, hrest g hg⟩⟩
      · rintro ⟨⟨-, hmodes⟩, ⟨hfirst, hpair⟩, hrest⟩
        exact ⟨hmodes, hpair, hfirst, fun g hg x hx => hrest g hg x (List.mem_cons_of_mem _ hx)⟩

/-- An archive that either verifier accepts, within the limits of the extractor, is extracted into
an empty directory without an error if and only if each entry finds room in what those before it
have left. For an archive without links this means that no file is at or above the path of another
entry, and that each file can be opened again under its mode. -/
theorem verified_archive_extracts_iff (cfg : Config) (privileged : Bool) (tree : Tree Name)
    (hs : List Header) (hdst : cfg.dst ≠ []) (hlinks : cfg.allowSymlinks = true)
    (hground : Ground cfg.dst tree) (hempty : ∀ q, q ≠ [] → tree (cfg.dst ++ q) = none)
    (hverified : verifyPluginContents hs = .ok () ∨ verifySkillContents hs = .ok ())
    (hentries : hs.length ≤ cfg.maxEntries) (hbytes : cfg.maxBytes = 0 ∨ total hs ≤ cfg.maxBytes) :
    ((extract cfg (start tree) (hs.map (Header.entry privileged))).2 = none ↔
      Run.Along (next cfg) (Fits cfg) (start tree) (hs.map (Header.entry privileged))) ∧
    ((∀ h ∈ hs, h.typeflag ≠ .symlink) →
      ((extract cfg (start tree) (hs.map (Header.entry privileged))).2 = none ↔
        (∀ h ∈ hs, h.typeflag = .reg → reopens privileged h.mode = true) ∧ hs.Pairwise Apart)) := by
  have hsafe : ∀ h ∈ hs, h.Safe := by
    intro h hh
    rcases hverified with hv | hv
    · exact safe_of_tarEntrySafe (verify_safe hv h hh)
    · exact safe_of_tarEntrySafe (verify_safe hv h hh)
  have hroom : Room cfg (start tree) hs :=
    ⟨by simpa [start] using hentries, by simpa [start] using hbytes⟩
  refine ⟨extract_ok_iff_fits privileged hdst hlinks hsafe hground hroom, fun hplain => ?_⟩
  have hlaid : Laid cfg.dst [] (start tree).disk.tree := by
    refine ⟨fun q t hq => ?_, fun q hq => ?_, fun q hq => ?_⟩
    all_goals
      have hnone : (start tree).disk.tree (cfg.dst ++ q) = none := hempty q hq
      simp [hnone]
  have h := extract_ok_iff_apart privileged hdst hlinks hlaid (by simp) hsafe hplain hground hroom
  simpa using h

def fileHeader (name : String) (mode : ℕ) : Header :=
  ⟨name.toList, none, .reg, [], mode, 2, 512, none⟩

theorem staging_ground : Ground symlinksAllowed.dst staging := by
  refine ⟨fun p n hn => ?_, .inr (by decide +kernel)⟩
  unfold staging at hn
  split_ifs at hn with hp
  · rcases hp with hp | hp
    · exact .inl (List.append_inj' (hp.trans (List.nil_append _).symm) rfl).1
    · have hpair : p ++ [n] = ["w".toList] ++ ["t".toList] := hp
      have hsplit : p = ["w".toList] := (List.append_inj' hpair rfl).1
      exact .inr (by rw [hsplit]; decide +kernel)
  · exact absurd rfl hn

theorem verified_archive_extracts_iff_two_files :
    (extract symlinksAllowed (start staging)
      ([fileHeader ".claude-plugin/plugin.json" 0o644, fileHeader "skills/a/SKILL.md" 0o644].map
        (Header.entry false))).2 = none := by
  refine ((verified_archive_extracts_iff symlinksAllowed false staging _ (by decide +kernel) rfl
    staging_ground staging_empty (.inl (by decide +kernel)) (by decide +kernel)
    (.inr (by decide +kernel))).2 (by decide +kernel)).mpr ⟨by decide +kernel, ?_⟩
  refine List.pairwise_pair.mpr ⟨fun _ _ => ?_, fun _ _ => ?_⟩
  · decide +kernel
  · decide +kernel

/-- A file that comes twice is accepted by the operator and refused by the extractor. -/
theorem repeated_file_fails :
    verifyPluginContents [fileHeader ".claude-plugin/plugin.json" 0o644,
        fileHeader ".claude-plugin/plugin.json" 0o644] = .ok () ∧
      (extract symlinksAllowed (start staging)
        ([fileHeader ".claude-plugin/plugin.json" 0o644,
          fileHeader ".claude-plugin/plugin.json" 0o644].map (Header.entry false))).2 =
        some .create := by
  decide +kernel

end AchProofs.Contentkit
