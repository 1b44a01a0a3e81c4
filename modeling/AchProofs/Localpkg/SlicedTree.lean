import AchProofs.Localpkg.Manager

namespace AchProofs.Localpkg

open Foundation.Links Foundation.Percent Cli.Extract
  Cli.Contain Contentkit Gitfetch

section Names

variable {ns : List Name}

theorem part_proper {n : Name} (h : proper n) : part n = some (.name n) := by
  simp only [proper, Bool.and_eq_true, decide_eq_true_eq, List.mem_cons, List.not_mem_nil, or_false,
    not_or] at h
  obtain ⟨⟨h₁, h₂, h₃, -⟩, -⟩ := h
  rw [part, if_neg (by simp [h₁, h₂]), if_neg h₃]

theorem not_slash_mem {n : Name} (h : proper n) : '/' ∉ n := by
  simp only [proper, Bool.and_eq_true, decide_eq_true_eq] at h
  exact h.2

theorem filterMap_part (h : ∀ n ∈ ns, proper n) : ns.filterMap part = names ns := by
  rw [names, ← List.filterMap_eq_map]
  exact List.filterMap_congr fun n hn => part_proper (h n hn)

theorem render_concat (hne : ns ≠ []) (n : Name) : render (ns ++ [n]) = render ns ++ '/' :: n := by
  induction ns with
  | nil => exact absurd rfl hne
  | cons a ns ih =>
    cases ns with
    | nil => simp [render, List.intercalate_cons_cons, List.intercalate_singleton]
    | cons b ns =>
      have := ih (List.cons_ne_nil _ _)
      simp only [render, List.cons_append, List.intercalate_cons_cons] at this ⊢
      simp [this]

/-- A name in an archive, with the slash that marks a directory or without. -/
inductive Spells (ns : List Name) : Text → Prop
  | bare : Spells ns (render ns)
  | slash : Spells ns (render ns ++ ['/'])

variable {text : Text}

theorem Spells.splitOn (h : Spells ns text) (hne : ns ≠ []) (hp : ∀ n ∈ ns, proper n) :
    text.splitOn '/' = ns ∨ text.splitOn '/' = ns ++ [[]] := by
  cases h with
  | bare => exact .inl (List.splitOn_intercalate '/' (fun n hn => not_slash_mem (hp n hn)) hne)
  | slash =>
    right
    rw [← render_concat hne]
    refine List.splitOn_intercalate '/' (fun n hn => ?_) (by simp)
    rcases List.mem_append.mp hn with hn | hn
    · exact not_slash_mem (hp n hn)
    · simp_all

theorem Spells.starts (h : Spells ns text) (hne : ns ≠ []) (hp : ∀ n ∈ ns, proper n) :
    ∃ a tail, proper a ∧ text = a ++ tail ∧ (tail = [] ∨ ∃ u, tail = '/' :: u) := by
  obtain ⟨a, rest, rfl⟩ := List.exists_cons_of_ne_nil hne
  have hrender : ∃ tail, render (a :: rest) = a ++ tail ∧ (tail = [] ∨ ∃ u, tail = '/' :: u) := by
    cases rest with
    | nil => exact ⟨[], by simp [render, List.intercalate_singleton], .inl rfl⟩
    | cons b rest =>
      exact ⟨'/' :: render (b :: rest), by simp [render, List.intercalate_cons_cons], .inr ⟨_, rfl⟩⟩
  obtain ⟨tail, htail, hcases⟩ := hrender
  cases h with
  | bare => exact ⟨a, tail, hp a (List.mem_cons_self ..), htail, hcases⟩
  | slash =>
    refine ⟨a, tail ++ ['/'], hp a (List.mem_cons_self ..),
      by rw [htail, List.append_assoc], .inr ?_⟩
    rcases hcases with rfl | ⟨u, rfl⟩
    · exact ⟨[], rfl⟩
    · exact ⟨u ++ ['/'], rfl⟩

theorem parse_spells (h : Spells ns text) (hne : ns ≠ []) (hp : ∀ n ∈ ns, proper n) :
    parse text = ⟨false, names ns⟩ := by
  have habs : (text.head? == some '/') = false := by
    obtain ⟨a, tail, ha, rfl, -⟩ := h.starts hne hp
    cases a with
    | nil => simp [proper] at ha
    | cons c a =>
      have := not_slash_mem ha
      simp only [List.mem_cons, not_or] at this
      simpa using Ne.symm this.1
  have hparts : (text.splitOn '/').filterMap part = names ns := by
    rcases h.splitOn hne hp with hs | hs
    · rw [hs, filterMap_part hp]
    · rw [hs, List.filterMap_append, filterMap_part hp]
      simp [part]
  rw [parse, habs, hparts]

theorem trimDotSlash_spells (h : Spells ns text) (hne : ns ≠ []) (hp : ∀ n ∈ ns, proper n) :
    trimDotSlash text = text := by
  obtain ⟨a, tail, ha, rfl, htail⟩ := h.starts hne hp
  unfold trimDotSlash
  split
  · rename_i rest heq
    -- the first name would be a dot
    exfalso
    rcases a with _ | ⟨c, _ | ⟨d, a⟩⟩
    · simp [proper] at ha
    · rcases htail with rfl | ⟨u, rfl⟩ <;> simp_all [proper]
    · simp only [List.cons_append, List.cons.injEq] at heq
      exact not_slash_mem ha (by simp [heq.2.1])
  · rfl

theorem clean_spells (h : Spells ns text) (hne : ns ≠ []) (hp : ∀ n ∈ ns, proper n) :
    clean (trimDotSlash text) = ⟨false, ns⟩ := by
  rw [trimDotSlash_spells h hne hp]
  unfold clean
  rw [parse_spells h hne hp]
  simp [normal_names]

theorem hasWindowsVolume_spells (h : Spells ns text) :
    hasWindowsVolume text = hasWindowsVolume (render ns) := by
  cases h with
  | bare => rfl
  | slash =>
    rcases hr : render ns with _ | ⟨c, _ | ⟨d, rest⟩⟩
    · rfl
    · rfl
    · by_cases hd : d = ':'
      · subst hd; rfl
      · simp [hasWindowsVolume, hd]

theorem safeRelLexical_spells (h : Spells ns text) (hne : ns ≠ []) (hp : ∀ n ∈ ns, proper n) :
    safeRelLexical text = safeRelLexical (render ns) := by
  have hempty : ∀ {u : Text}, Spells ns u → u ≠ [] := by
    rintro u hu rfl
    obtain ⟨a, tail, ha, happ, -⟩ := hu.starts hne hp
    obtain ⟨rfl, -⟩ := List.append_eq_nil_iff.mp happ.symm
    simp [proper] at ha
  have hback : '\\' ∈ text ↔ '\\' ∈ render ns := by
    cases h with
    | bare => rfl
    | slash => simp
  unfold safeRelLexical
  rw [if_neg (hempty h), if_neg (hempty .bare), hasWindowsVolume_spells h,
    parse_spells h hne hp, parse_spells .bare hne hp]
  simp only [hback]

end Names

section Packed

variable {c : Tar} {xs : List (List Name × Item)}

/-- Two members that the verifier and the extractor treat alike. -/
structure Alike (m m' : Member) : Prop where
  safe : ∀ k k', tarEntrySafe (header m k) = tarEntrySafe (header m' k')
  sign : ∀ k k', pluginSign (header m k) = pluginSign (header m' k')
  entry : ∀ cfg s p, cfg.dst ≠ [] →
    extractEntry cfg s ((header m 0).entry p) = extractEntry cfg s ((header m' 0).entry p)
  put : ∀ s : Staged, s.put m = s.put m'
  size : m.body.length = m'.body.length

theorem tarEntrySafe_member (name : Text) (flag : Typeflag) (mode k : ℕ) (body : Bytes) :
    tarEntrySafe (header (c.member name flag mode body) k) =
      match safeRelLexical name with
      | some r => some r
      | none => typeflagSafe (header (c.member name flag mode body) k) := by
  unfold tarEntrySafe
  -- a PAX path is the name once more
  have hpax : safeRelLexical name = none →
      ((header (c.member name flag mode body) k).paxPath.bind safeRelLexical).isSome = false := by
    intro h
    by_cases hn : c.needsPax name <;> simp [header, Tar.member, hn, h]
  show (match safeRelLexical name with
    | some r => some r
    | none => if _ then some .paxPath else _) = _
  cases hs : safeRelLexical name with
  | some r => rfl
  | none => simp [hpax hs]

theorem checkSafeRel_spells {ns : List Name} {text : Text} {dst : List Name} (hdst : dst ≠ [])
    (h : Spells ns text) (hne : ns ≠ []) (hp : ∀ n ∈ ns, proper n) :
    checkSafeRel dst text = none := by
  have hempty : text ≠ [] := by
    rintro rfl
    have := parse_spells h hne hp
    simp [parse, names, part] at this
    exact hne this
  unfold checkSafeRel
  rw [if_neg hempty, parse_spells h hne hp, normal_names, lexical_names]
  simp [startsWithDst, hdst]

theorem extractEntry_member {ns : List Name} {text : Text} {cfg : Config} (hdst : cfg.dst ≠ [])
    (h : Spells ns text) (hne : ns ≠ []) (hp : ∀ n ∈ ns, proper n) (s : State) (flag : Typeflag)
    (mode : ℕ) (body : Bytes) (p : Bool) :
    extractEntry cfg s ((header (c.member text flag mode body) 0).entry p) =
      if s.entriesSeen + 1 > cfg.maxEntries then
        ({ s with entriesSeen := s.entriesSeen + 1 }, some .tooManyEntries)
      else
        writeEntry cfg { s with entriesSeen := s.entriesSeen + 1 } ns
          ((header (c.member (render ns) flag mode body) 0).entry p).kind := by
  have hname : checkSafeRel cfg.dst text = none := checkSafeRel_spells hdst h hne hp
  have hentry : ((header (c.member text flag mode body) 0).entry p).name = text := rfl
  have hpax : ((header (c.member text flag mode body) 0).entry p).paxPath.bind
      (checkSafeRel cfg.dst) = none := by
    by_cases hn : c.needsPax text <;> simp [header, Header.entry, Tar.member, hn, hname]
  have hplace : (normal (parse text).parts).2 = ns := by rw [parse_spells h hne hp, normal_names]
  unfold extractEntry
  dsimp only
  rw [hpax, hentry, hname, hplace]
  rfl

theorem alike_dir {ns : List Name} (hne : ns ≠ []) (hp : ∀ n ∈ ns, proper n) :
    Alike (c.member (render ns ++ ['/']) .dir 0o755 []) (c.member (render ns) .dir 0o755 []) where
  safe k k' := by
    rw [tarEntrySafe_member, tarEntrySafe_member, safeRelLexical_spells .slash hne hp]
    rfl
  sign k k' := by
    have hname : parse (trimDotSlash (render ns ++ ['/'])) = parse (trimDotSlash (render ns)) := by
      rw [trimDotSlash_spells .slash hne hp, trimDotSlash_spells .bare hne hp,
        parse_spells .slash hne hp, parse_spells .bare hne hp]
    unfold pluginSign header Tar.member
    dsimp only
    rw [hname]
  entry cfg s p hdst := by
    rw [extractEntry_member hdst .slash hne hp, extractEntry_member hdst .bare hne hp]
  put s := by
    have hplace : place (c.member (render ns ++ ['/']) .dir 0o755 []) =
        place (c.member (render ns) .dir 0o755 []) := by
      show (normal (parse (render ns ++ ['/'])).parts).2 = (normal (parse (render ns)).parts).2
      rw [parse_spells .slash hne hp, parse_spells .bare hne hp]
    funext q
    show (if q <+: place _ then some Leaf.dir else s q) = if q <+: place _ then some Leaf.dir
      else s q
    rw [hplace]
  size := rfl

theorem alike_refl (m : Member) : Alike m m :=
  ⟨fun _ _ => rfl, fun _ _ => rfl, fun _ _ _ _ => rfl, fun _ => rfl, rfl⟩

theorem alike_pack (hxs : ∀ x ∈ xs, x.1 ≠ [] ∧ ∀ n ∈ x.1, proper n) :
    List.Forall₂ Alike (xs.filterMap (c.pack ['/'])) (xs.filterMap (c.pack [])) := by
  induction xs with
  | nil => exact .nil
  | cons x xs ih =>
    obtain ⟨⟨hne, hp⟩, hrest⟩ := List.forall_mem_cons.mp hxs
    obtain ⟨ns, it⟩ := x
    cases it with
    | dir =>
      simp only [List.filterMap_cons, Tar.pack, List.append_nil]
      exact .cons (alike_dir hne hp) (ih hrest)
    | file body exec => exact .cons (alike_refl _) (ih hrest)
    | link target => exact ih hrest

variable {ms ms' : List Member}

theorem verifyWalk_congr (h : List.Forall₂ Alike ms ms') (k seen : ℕ) (found : Bool) :
    verifyWalk markPlugin seen found (headers k ms) =
      verifyWalk markPlugin seen found (headers k ms') := by
  induction h generalizing k seen found with
  | nil => rfl
  | @cons m m' ms ms' hm _ ih =>
    have hoffset : ∀ x : Member, (header x (k + 512)).offset = k + 512 := fun _ => rfl
    simp only [headers, verifyWalk, markPlugin, hoffset, hm.size, hm.safe _ (k + 512),
      hm.sign _ (k + 512)]
    split_ifs
    · rfl
    · rfl
    · cases tarEntrySafe (header m' (k + 512)) with
      | some r => rfl
      | none => exact ih ..

theorem verify_congr (h : List.Forall₂ Alike ms ms') (k : ℕ) :
    verifyPluginContents (headers k ms) = verifyPluginContents (headers k ms') := by
  unfold verifyPluginContents verify
  rw [verifyWalk_congr h]

theorem extract_congr (h : List.Forall₂ Alike ms ms') {cfg : Config} (hdst : cfg.dst ≠ [])
    (p : Bool)
    (s : State) :
    extract cfg s (ms.map fun m => (header m 0).entry p) =
      extract cfg s (ms'.map fun m => (header m 0).entry p) := by
  induction h generalizing s with
  | nil => rfl
  | cons hm _ ih =>
    simp only [List.map_cons, extract, hm.entry cfg s p hdst]
    split
    · rfl
    · exact ih _

theorem foldl_put_congr (h : List.Forall₂ Alike ms ms') (s : Staged) :
    ms.foldl Staged.put s = ms'.foldl Staged.put s := by
  induction h generalizing s with
  | nil => rfl
  | cons hm _ ih => rw [List.foldl_cons, List.foldl_cons, hm.put, ih]

theorem stageTar_congr (h : List.Forall₂ Alike ms ms') (host : Host) :
    stageTar host ms = stageTar host ms' := by
  unfold stageTar
  rw [extract_congr h (show (stageConfig host).dst ≠ [] from host.stage_ne), foldl_put_congr h]

theorem stagePlugin_congr (h : List.Forall₂ Alike ms ms') (w : World) (sha : Text) :
    stagePlugin w (.tar ms) sha = stagePlugin w (.tar ms') sha := by
  simp only [stagePlugin, Tar.read, verify_congr h, stageTar_congr h]

end Packed

section Sliced

variable {c : Tar} {t : Worktree} {p : List Name}

theorem below_nil (t : Worktree) : t.below [] = t.items := by
  unfold Worktree.below
  conv_rhs => rw [← List.filterMap_some (l := t.items)]
  refine List.filterMap_congr fun x hx => ?_
  rw [if_pos ⟨List.nil_prefix, (t.named x hx).1⟩]
  rfl

/-- An item below the subtree comes out of the slice as the fetch of the subtree packs it, but
without the slash. -/
theorem reroot_pack {x : List Name × Item} (hx : x.1 ≠ [] ∧ ∀ n ∈ x.1, proper n) (hp : p ≠ []) :
    (c.pack ['/'] x).bind (reroot c ⟨false, p⟩) =
      (if p <+: x.1 ∧ x.1 ≠ p then some (x.1.drop p.length, x.2) else none).bind (c.pack []) := by
  obtain ⟨ns, it⟩ := x
  obtain ⟨hne, hproper⟩ := hx
  cases it with
  | link target => by_cases h : p <+: ns ∧ ns ≠ p <;> simp [Tar.pack, h]
  | dir =>
    have hclean := clean_spells .slash hne hproper
    by_cases h : p <+: ns ∧ ns ≠ p <;>
      simp [Tar.pack, reroot, Tar.member, hclean, h, hp]
  | file body exec =>
    have hclean := clean_spells .bare hne hproper
    by_cases h : p <+: ns ∧ ns ≠ p <;>
      simp [Tar.pack, reroot, Tar.member, hclean, h, hp]

theorem filterMap_reroot (hp : p ≠ []) :
    ((t.below []).filterMap (c.pack ['/'])).filterMap (reroot c ⟨false, p⟩) =
      (t.below p).filterMap (c.pack []) := by
  rw [below_nil, List.filterMap_filterMap, Worktree.below, List.filterMap_filterMap]
  exact List.filterMap_congr fun x hx => reroot_pack (t.named x hx) hp

theorem filterMap_reroot_absolute :
    ((t.below []).filterMap (c.pack ['/'])).filterMap (reroot c ⟨true, p⟩) = [] := by
  rw [below_nil, List.filterMap_filterMap, List.filterMap_eq_nil_iff]
  intro x hx
  obtain ⟨hne, hproper⟩ := t.named x hx
  obtain ⟨ns, it⟩ := x
  cases it with
  | link target => rfl
  | dir => simp [Tar.pack, reroot, Tar.member, clean_spells .slash hne hproper]
  | file body exec => simp [Tar.pack, reroot, Tar.member, clean_spells .bare hne hproper]

end Sliced

end AchProofs.Localpkg
