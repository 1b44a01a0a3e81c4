import AchProofs.Cli.Extract
import AchProofs.Foundation.Run

namespace AchProofs.Cli.Extract

open Foundation Foundation.Links

/-- The targets that `writeSymlink` accepts: relative ones that as text lead inside. -/
def Accepted (cfg : Config) (rel : List Name) (linkname : List Char) : Prop :=
  linkname ≠ [] ∧ (parse linkname).absolute = false ∧
    startsWithDst cfg.dst (lexical (cfg.dst ++ rel).dropLast (parse linkname).parts) = true

/-- A target goes up only at its start, and not above the destination from the directory the link is
really made in. -/
def Level (cfg : Config) (tree : Tree Name) (rel : List Name) (linkname : List Char) : Prop :=
  ∀ parent, walk tree passEnter kernelHops cfg.dst (names rel.dropLast) = .ok parent →
    ∃ k ns, (parse linkname).parts = List.replicate k .up ++ names ns
      ∧ cfg.dst.length + k ≤ parent.length

def Tame (cfg : Config) (s : State) (e : Entry) : Prop :=
  ∀ linkname, e.kind = .symlink linkname →
    Accepted cfg (normal (parse e.name).parts).2 linkname →
      Level cfg s.disk.tree (normal (parse e.name).parts).2 linkname

def next (cfg : Config) (s : State) (e : Entry) : Option State :=
  match extractEntry cfg s e with
  | (s', none) => some s'
  | (_, some _) => none

structure Inside (dst : List Name) (d : Disk) : Prop where
  confined : Confined dst d.tree
  made : ∀ place ∈ d.made, dst <+: place ∧ place ≠ dst

section Disk

variable {dst : List Name} {d : Disk} {rel place : List Name}

theorem freePlace_eq_some (h : freePlace dst d.tree rel = some place) :
    ∃ parent n, place = parent ++ [n] ∧ d.tree place = none
      ∧ walk d.tree dirEnter kernelHops dst (names rel.dropLast) = .ok parent := by
  unfold freePlace at h
  split at h
  · cases h
  · rename_i n _
    split at h
    · cases h
    · rename_i parent hwalk
      split_ifs at h with hfree
      cases h
      exact ⟨parent, n, rfl, hfree, hwalk⟩

theorem Inside.parent_inside (hd : Inside dst d) {enter : Enter Name} {hops : ℕ}
    {parent : List Name}
    (h : walk d.tree enter hops dst (names rel) = .ok parent) : ∃ q, parent = dst ++ q := by
  have hstart : walk d.tree enter hops (dst ++ []) (List.replicate 0 .up ++ names rel)
      = .ok parent := by rwa [List.append_nil]
  obtain ⟨q, hq⟩ := walk_confined hd.confined (Nat.zero_le _) hstart
  exact ⟨q, hq.symm⟩

theorem Inside.put (hd : Inside dst d) (h : freePlace dst d.tree rel = some place)
    {node : Node Name}
    (hnode : ∀ t, node = .link t → ∀ parent,
      walk d.tree dirEnter kernelHops dst (names rel.dropLast) = .ok parent →
      t.absolute = false ∧ ∃ k ns, t.parts = List.replicate k .up ++ names ns
        ∧ dst.length + k ≤ parent.length) :
    Inside dst (d.put place node) := by
  obtain ⟨parent, n, rfl, hfree, hwalk⟩ := freePlace_eq_some h
  obtain ⟨q, rfl⟩ := hd.parent_inside hwalk
  refine ⟨fun q' n' t ht => ?_, fun p hp => ?_⟩
  · simp only [Disk.put] at ht
    by_cases heq : dst ++ q' ++ [n'] = dst ++ q ++ [n]
    · rw [heq, Function.update_self] at ht
      obtain ⟨habs, k, ns, hparts, hk⟩ := hnode t (Option.some.inj ht) _ hwalk
      have hq : q' = q := List.append_cancel_left (List.append_inj' heq rfl).1
      rw [List.length_append] at hk
      exact ⟨habs, k, ns, hparts, by rw [hq]; omega⟩
    · rw [Function.update_of_ne heq] at ht
      exact hd.confined q' n' t ht
  · obtain rfl | hp := List.mem_cons.mp hp
    · rw [List.append_assoc]
      exact ⟨List.prefix_append dst _, by simp⟩
    · exact hd.made p hp

theorem Inside.put_dir (hd : Inside dst d) (h : freePlace dst d.tree rel = some place) :
    Inside dst (d.put place .dir) :=
  hd.put h (fun _ ht => nomatch ht)

theorem Inside.put_file (hd : Inside dst d) (h : freePlace dst d.tree rel = some place) :
    Inside dst (d.put place .file) :=
  hd.put h (fun _ ht => nomatch ht)

theorem Inside.remove (hd : Inside dst d) (place : List Name) : Inside dst (d.remove place) := by
  refine ⟨fun q n t ht => ?_, hd.made⟩
  simp only [Disk.remove, Function.update_apply] at ht
  split_ifs at ht
  exact hd.confined q n t ht

theorem mkdirAll_keeps (dst : List Name) (d : Disk) (path : List Name) :
    (Inside dst d → Inside dst (mkdirAll dst d path).1)
    ∧ ∀ p t, (mkdirAll dst d path).1.tree p = some (.link t) ↔ d.tree p = some (.link t) := by
  induction path with
  | nil => exact ⟨id, fun _ _ => Iff.rfl⟩
  | cons n up ih =>
    rw [mkdirAll]
    split
    · exact ⟨id, fun _ _ => Iff.rfl⟩
    · split
      · rename_i d' hd'
        rwa [hd'] at ih
      · rename_i d' hd'
        rw [hd'] at ih
        split
        · exact ih
        · rename_i place hplace
          refine ⟨fun hd => (ih.1 hd).put_dir hplace, fun p t => ?_⟩
          obtain ⟨_, _, _, hfree, _⟩ := freePlace_eq_some hplace
          show Function.update d'.tree place (some .dir) p = some (.link t) ↔ _
          rw [← ih.2 p t]
          by_cases hp : p = place
          · rw [hp, hfree, Function.update_self]
            simp
          · rw [Function.update_of_ne hp]

end Disk

section Step

variable {cfg : Config} {s : State} {rel : List Name}

theorem writeRegular_inside (hs : Inside cfg.dst s.disk) (size : ℕ) (broken : Bool) :
    Inside cfg.dst (writeRegular cfg s rel size broken).1.disk := by
  have hd := (mkdirAll_keeps cfg.dst s.disk rel.dropLast.reverse).1 hs
  unfold writeRegular
  split
  · rename_i d hmk
    rwa [hmk] at hd
  · rename_i d hmk
    rw [hmk] at hd
    split
    · exact hd
    · rename_i place hplace
      split_ifs
      · exact (hd.put_file hplace).remove place
      · exact (hd.put_file hplace).remove place
      · exact hd.put_file hplace

theorem writeSymlink_inside (hs : Inside cfg.dst s.disk) {linkname : List Char}
    (htame : Accepted cfg rel linkname → Level cfg s.disk.tree rel linkname) :
    Inside cfg.dst (writeSymlink cfg s rel linkname).1.disk := by
  have hd := mkdirAll_keeps cfg.dst s.disk rel.dropLast.reverse
  unfold writeSymlink
  split_ifs with hempty habs hesc
  · exact hs
  · exact hs
  · exact hs
  · have hrel : (parse linkname).absolute = false := by simpa using habs
    have hlevel := htame ⟨hempty, hrel, by simpa using hesc⟩
    split
    · rename_i d hmk
      rw [hmk] at hd
      exact hd.1 hs
    · rename_i d hmk
      rw [hmk] at hd
      split
      · exact hd.1 hs
      · rename_i place hplace
        refine (hd.1 hs).put hplace (fun t ht parent hparent => ?_)
        cases ht
        exact ⟨hrel, hlevel parent (walk_of_same_links hd.2 hparent)⟩

theorem writeEntry_inside (hs : Inside cfg.dst s.disk) {kind : Kind}
    (htame : cfg.allowSymlinks = true → ∀ linkname, kind = .symlink linkname →
      Accepted cfg rel linkname → Level cfg s.disk.tree rel linkname) :
    Inside cfg.dst (writeEntry cfg s rel kind).1.disk := by
  cases kind with
  | dir =>
    have hd := (mkdirAll_keeps cfg.dst s.disk rel.reverse).1 hs
    rw [writeEntry]
    split
    all_goals
      rename_i d hmk
      rwa [hmk] at hd
  | reg size broken => exact writeRegular_inside hs size broken
  | symlink linkname =>
    rw [writeEntry]
    split_ifs with hpolicy
    · exact hs
    · exact writeSymlink_inside hs (htame (by simpa using hpolicy) linkname rfl)
  | paxHeader => exact hs
  | hardlink => exact hs
  | device => exact hs
  | fifo => exact hs
  | unsupported => exact hs

theorem extractEntry_inside (hs : Inside cfg.dst s.disk) (e : Entry)
    (htame : cfg.allowSymlinks = true → Tame cfg s e) :
    Inside cfg.dst (extractEntry cfg s e).1.disk := by
  unfold extractEntry
  dsimp only
  split_ifs
  · exact hs
  · split
    · exact hs
    · split
      · exact hs
      · have hs' : Inside cfg.dst { s with entriesSeen := s.entriesSeen + 1 }.disk := hs
        exact writeEntry_inside hs' (fun hpolicy linkname hkind => htame hpolicy linkname hkind)

end Step

theorem extract_inside {cfg : Config} {s : State} {es : List Entry} (hs : Inside cfg.dst s.disk)
    (htame : cfg.allowSymlinks = true → Run.Along (next cfg) (Tame cfg) s es) :
    Inside cfg.dst (extract cfg s es).1.disk := by
  induction es generalizing s with
  | nil => exact hs
  | cons e es ih =>
    have hstep := extractEntry_inside hs e (fun hpolicy => (htame hpolicy).1)
    rw [extract]
    split
    · rename_i s' err hs'
      rwa [hs'] at hstep
    · rename_i s' hs'
      rw [hs'] at hstep
      exact ih hstep (fun hpolicy => (htame hpolicy).2 s' (by rw [next, hs']))

def start (tree : Tree Name) : State := ⟨⟨tree, []⟩, 0, 0⟩

/-- With each symlink that is accepted under its condition, all that an extraction makes is made
inside the destination, and the links among it lead inside. -/
theorem extract_stays_inside (cfg : Config) (tree : Tree Name)
    (hempty : ∀ q, q ≠ [] → tree (cfg.dst ++ q) = none) (es : List Entry)
    (htame : cfg.allowSymlinks = true → Run.Along (next cfg) (Tame cfg) (start tree) es) :
    (∀ place ∈ (extract cfg (start tree) es).1.disk.made, cfg.dst <+: place ∧ place ≠ cfg.dst)
    ∧ ∀ parent n t, parent ++ [n] ∈ (extract cfg (start tree) es).1.disk.made →
      (extract cfg (start tree) es).1.disk.tree (parent ++ [n]) = some (.link t) →
      ∀ enter hops target, walk (extract cfg (start tree) es).1.disk.tree enter hops parent
        [.name n] = .ok target → cfg.dst <+: target := by
  have hstart : Inside cfg.dst (start tree).disk := by
    refine ⟨fun q n t ht => ?_, by simp [start]⟩
    have hnone : tree (cfg.dst ++ q ++ [n]) = none := by
      rw [List.append_assoc]
      exact hempty _ (by simp)
    exact absurd (hnone.symm.trans ht) (by simp)
  have hend := extract_inside hstart htame
  refine ⟨hend.made, fun parent n t hmade _ enter hops target hwalk => ?_⟩
  obtain ⟨hpre, hne⟩ := hend.made _ hmade
  have hparent : cfg.dst <+: parent := by
    obtain h | h := List.prefix_concat_iff.mp hpre
    · exact absurd h.symm hne
    · exact h
  obtain ⟨q, rfl⟩ := hparent
  have hwalk' : walk (extract cfg (start tree) es).1.disk.tree enter hops (cfg.dst ++ q)
      (List.replicate 0 .up ++ names [n]) = .ok target := hwalk
  exact walk_confined hend.confined (Nat.zero_le _) hwalk'

/-- A staging directory `/w/t` with nothing in it. -/
def staging : Tree Name := fun place =>
  if place = ["w".toList] ∨ place = ["w".toList, "t".toList] then some .dir else none

def symlinksAllowed : Config := ⟨["w".toList, "t".toList], 10, 100, true⟩

theorem staging_empty : ∀ q, q ≠ [] → staging (symlinksAllowed.dst ++ q) = none := by
  intro q hq
  obtain ⟨n, q, rfl⟩ := List.exists_cons_of_ne_nil hq
  simp [staging, symlinksAllowed]

def linkedArchive : List Entry :=
  [⟨"d/l".toList, none, .symlink "../f".toList⟩, ⟨"f".toList, none, .reg 3 false⟩,
    ⟨"x".toList, none, .symlink "../..".toList⟩]

theorem tame_linkedArchive :
    Run.Along (next symlinksAllowed) (Tame symlinksAllowed) (start staging) linkedArchive := by
  refine ⟨?_, fun s _ => ⟨?_, fun s' _ => ⟨?_, fun _ _ => trivial⟩⟩⟩
  · intro linkname hkind _ parent hparent
    cases hkind
    have hdir : walk staging passEnter kernelHops symlinksAllowed.dst
        (names (normal (parse "d/l".toList).parts).2.dropLast)
          = .ok (symlinksAllowed.dst ++ ["d".toList]) := by decide +kernel
    cases hdir.symm.trans hparent
    exact ⟨1, ["f".toList], by decide +kernel, by decide⟩
  · intro linkname hkind
    cases hkind
  · intro linkname hkind haccepted
    cases hkind
    exact absurd haccepted.2.2 (by decide +kernel)

theorem link_into_archive_stays_inside :
    (extract symlinksAllowed (start staging) linkedArchive).2
      = some (.unsafeTarEntry .targetEscapesDst)
    ∧ ∀ place ∈ (extract symlinksAllowed (start staging) linkedArchive).1.disk.made,
      symlinksAllowed.dst <+: place ∧ place ≠ symlinksAllowed.dst :=
  ⟨by decide +kernel,
    (extract_stays_inside symlinksAllowed staging staging_empty linkedArchive
      (fun _ => tame_linkedArchive)).1⟩

/-- `d/e/f/l` leads to the destination, `m` from there to its parent, and `m/evil` out of it. -/
theorem chained_links_escape :
    (extract symlinksAllowed (start staging)
      [⟨"d/e/f/l".toList, none, .symlink "../../..".toList⟩,
        ⟨"m".toList, none, .symlink "d/e/f/l/..".toList⟩,
        ⟨"m/evil".toList, none, .reg 3 false⟩]).2 = none
    ∧ ["w".toList, "evil".toList] ∈ (extract symlinksAllowed (start staging)
      [⟨"d/e/f/l".toList, none, .symlink "../../..".toList⟩,
        ⟨"m".toList, none, .symlink "d/e/f/l/..".toList⟩,
        ⟨"m/evil".toList, none, .reg 3 false⟩]).1.disk.made
    ∧ ¬ symlinksAllowed.dst <+: ["w".toList, "evil".toList] := by
  decide +kernel

end AchProofs.Cli.Extract
