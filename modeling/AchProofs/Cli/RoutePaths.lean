import AchProofs.Cli.Route

namespace AchProofs.Cli.Route

open Foundation.Percent Foundation.Links Cli.Extract
  Cli.Frontmatter Gitfetch Hydrate

section Segments

variable {a b t u : Text}

theorem first_segment (t : Text) :
    '/' ∉ t.takeWhile (· ≠ '/') ∧
      (t = t.takeWhile (· ≠ '/') ∧ (t.dropWhile (· ≠ '/')).drop 1 = [] ∨
        t = t.takeWhile (· ≠ '/') ++ '/' :: (t.dropWhile (· ≠ '/')).drop 1) := by
  induction t with
  | nil => simp
  | cons c t ih =>
    by_cases hc : c = '/'
    · simp [hc]
    · simpa [hc, Ne.symm hc] using ih

theorem splitOn_eq_cons (t : Text) :
    ∃ rest, t.splitOn '/' = t.takeWhile (· ≠ '/') :: rest ∧
      ∀ n ∈ rest, ∃ u, '/' :: u <:+ t ∧ n ∈ u.splitOn '/' := by
  obtain ⟨hfirst, ⟨ht, -⟩ | ht⟩ := first_segment t
  · refine ⟨[], ?_, by simp⟩
    conv_lhs => rw [ht]
    exact List.splitOn_eq_singleton hfirst
  · refine ⟨((t.dropWhile (· ≠ '/')).drop 1).splitOn '/', ?_, fun n hn => ⟨_, ⟨_, ht.symm⟩, hn⟩⟩
    conv_lhs => rw [ht]
    rw [splitOn_append_slash, List.splitOn_eq_singleton hfirst, List.singleton_append]

theorem mem_splitOn_of_suffix (h : '/' :: u <:+ t) {n : Name} (hn : n ∈ u.splitOn '/') :
    n ∈ t.splitOn '/' := by
  obtain ⟨v, rfl⟩ := h
  rw [splitOn_append_slash]
  exact List.mem_append_right _ hn

end Segments

section Clean

variable {a b t : Text}

theorem part_eq_name {n m : Name} (h : part n = some (.name m)) :
    m = n ∧ n ≠ [] ∧ n ≠ ['.'] ∧ n ≠ dotdot := by
  rw [part] at h
  split at h
  · exact (nomatch h)
  · rename_i hn
    split at h
    · exact (nomatch h)
    · rename_i hdd
      rw [not_or] at hn
      exact ⟨by simpa using h.symm, hn.1, hn.2, hdd⟩

def downs (ns : List Name) : List Name := ns.filter fun n => n ≠ [] ∧ n ≠ ['.']

theorem downs_append (ns ms : List Name) : downs (ns ++ ms) = downs ns ++ downs ms :=
  List.filter_append ..

theorem filterMap_part_eq {ns : List Name} (h : dotdot ∉ ns) :
    ns.filterMap part = names (downs ns) := by
  induction ns with
  | nil => rfl
  | cons n ns ih =>
    rw [List.mem_cons, not_or] at h
    rw [List.filterMap_cons, ih h.2]
    by_cases hn : n = [] ∨ n = ['.']
    · rcases hn with rfl | rfl <;> simp [part, downs]
    · have hdd : n ≠ ['.', '.'] := Ne.symm h.1
      have hpart : part n = some (.name n) := by rw [part, if_neg hn, if_neg hdd]
      rw [not_or] at hn
      simp [hpart, hn, names, downs]

theorem clean_eq (h : dotdot ∉ t.splitOn '/') : (clean t).segs = downs (t.splitOn '/') := by
  have hparts : (parse t).parts = names (downs (t.splitOn '/')) := filterMap_part_eq h
  simp [clean, hparts, normal_names]

theorem mem_normal {n : Name} (h : n ∈ (normal (parse t).parts).2) :
    '/' ∉ n ∧ n ≠ [] ∧ n ≠ ['.'] ∧ n ≠ dotdot := by
  have hmem : .name n ∈ (parse t).parts := (normal_le _).2 n h
  obtain ⟨m, hm, hpart⟩ := List.mem_filterMap.mp hmem
  obtain ⟨rfl, hn⟩ := part_eq_name hpart
  exact ⟨DottedKey.not_mem_of_mem_splitOn hm, hn⟩

theorem cleanText_stays (habs : (cleanText t).head? ≠ some '/')
    (hdd : dotdot ∉ (cleanText t).splitOn '/') :
    t.head? ≠ some '/' ∧ (normal (parse t).parts).1 = 0 ∧
      (clean (cleanText t)).segs = (normal (parse t).parts).2 := by
  have hrel : (parse t).absolute = false := by
    by_contra h
    rw [Bool.not_eq_false] at h
    exact habs (by simp [cleanText, clean, h])
  have hslash : ∀ n ∈ (clean t).segs, '/' ∉ n := by
    intro n hn
    rw [clean, hrel] at hn
    rcases List.mem_append.mp hn with hn | hn
    · rw [if_neg (by simp)] at hn
      rw [List.eq_of_mem_replicate hn]
      decide
    · exact (mem_normal hn).1
  have hsplit : (clean t).segs ≠ [] → (cleanText t).splitOn '/' = (clean t).segs := by
    intro hne
    have : cleanText t = render (clean t).segs := by
      rw [cleanText, if_neg (by simp [clean, hrel]), if_neg hne]
    rw [this, render, List.splitOn_intercalate '/' hslash hne]
  have hup : (normal (parse t).parts).1 = 0 := by
    by_contra hk
    obtain ⟨k, hk⟩ := Nat.exists_eq_succ_of_ne_zero hk
    have hmem : dotdot ∈ (clean t).segs := by simp [clean, hrel, hk, List.replicate_succ, dotdot]
    exact hdd (by rwa [hsplit (List.ne_nil_of_mem hmem)])
  have hsegs : (clean t).segs = (normal (parse t).parts).2 := by simp [clean, hrel, hup]
  refine ⟨by simpa [parse] using hrel, hup, ?_⟩
  rw [clean_eq hdd, ← hsegs]
  by_cases hne : (clean t).segs = []
  · have : cleanText t = ['.'] := by rw [cleanText, if_neg (by simp [clean, hrel]), if_pos hne]
    rw [this, hne]
    decide
  · rw [hsplit hne, downs, List.filter_eq_self]
    intro n hn
    rw [hsegs] at hn
    simpa using ⟨(mem_normal hn).2.1, (mem_normal hn).2.2.1⟩

/-- The path is relative, has no `..`, and lies at the anchor or below it. -/
def Inside (anchor path : Text) : Prop :=
  path.head? ≠ some '/' ∧ dotdot ∉ path.splitOn '/' ∧ (clean anchor).segs <+: (clean path).segs

theorem inside_append_iff (ha : a ≠ []) :
    Inside a (a ++ '/' :: b) ↔
      a.head? ≠ some '/' ∧ dotdot ∉ a.splitOn '/' ∧ dotdot ∉ b.splitOn '/' := by
  have hhead : (a ++ '/' :: b).head? = a.head? := List.head?_append_of_ne_nil a ha
  rw [Inside, hhead, splitOn_append_slash, List.mem_append, not_or]
  constructor
  · rintro ⟨hrel, hdd, -⟩
    exact ⟨hrel, hdd⟩
  · rintro ⟨hrel, hda, hdb⟩
    refine ⟨hrel, ⟨hda, hdb⟩, ?_⟩
    rw [clean_eq hda,
      clean_eq (by rw [splitOn_append_slash, List.mem_append, not_or]; exact ⟨hda, hdb⟩),
      splitOn_append_slash, downs_append]
    exact List.prefix_append ..

end Clean

section Suffix

variable {t : Text} {ns : List Name}

theorem trimPrefix_suffix (p t : Text) : trimPrefix p t <:+ t := by
  rw [trimPrefix]
  split
  · exact List.drop_suffix ..
  · exact List.suffix_refl t

theorem trimPrefix_nil (t : Text) : trimPrefix [] t = t := by simp [trimPrefix]

theorem trimPrefix_slash (h : t.head? ≠ some '/') : trimPrefix ['/'] t = t := by
  rw [trimPrefix, if_neg]
  cases t with
  | nil => simp
  | cons c t =>
    rw [List.head?_cons, ne_eq, Option.some.injEq] at h
    simp [Ne.symm h]

theorem trimSuffix_append (a b : Text) : trimSuffix (a ++ b) b = a := by
  rw [trimSuffix, if_pos (by simp)]
  simp

theorem getElem?_length_takeWhile (p : Char → Bool) (t : Text) :
    t[(t.takeWhile p).length]? = (t.dropWhile p).head? := by
  induction t with
  | nil => rfl
  | cons c t ih =>
    by_cases hc : p c
    · simpa [hc] using ih
    · simp [hc]

theorem exists_ext (t : Text) :
    ∃ stem, t = stem ++ ext t ∧ (ext t = [] ∨ ∃ x, ext t = '.' :: x ∧ '.' ∉ x ∧ '/' ∉ x) := by
  have hsplit : t = (t.reverse.dropWhile fun c => c ≠ '/' && c ≠ '.').reverse ++
      (t.reverse.takeWhile fun c => c ≠ '/' && c ≠ '.').reverse := by
    rw [← List.reverse_append, List.takeWhile_append_dropWhile, List.reverse_reverse]
  rw [ext]
  split
  · rename_i hdot
    have hnext : (t.reverse.dropWhile fun c => c ≠ '/' && c ≠ '.').head? = some '.' := by
      rw [← hdot, List.length_reverse, getElem?_length_takeWhile]
    obtain ⟨d, hd⟩ := List.head?_eq_some_iff.mp hnext
    refine ⟨d.reverse, ?_, .inr ⟨_, rfl, fun hm => ?_, fun hm => ?_⟩⟩
    · rw [hd] at hsplit
      simpa using hsplit
    · simpa using List.mem_takeWhile_imp (List.mem_reverse.mp hm)
    · simpa using List.mem_takeWhile_imp (List.mem_reverse.mp hm)
  · exact ⟨t, by simp, .inl rfl⟩

theorem exists_last (t : Text) : ∃ u, '/' ∉ u ∧ (t = u ∨ ∃ v, t = v ++ '/' :: u) := by
  induction t with
  | nil => exact ⟨[], by simp, .inl rfl⟩
  | cons c t ih =>
    obtain ⟨u, hu, rfl | ⟨v, rfl⟩⟩ := ih
    · by_cases hc : c = '/'
      · exact ⟨t, hu, .inr ⟨[], by rw [hc]; rfl⟩⟩
      · exact ⟨c :: t, by simp [Ne.symm hc, hu], .inl rfl⟩
    · exact ⟨u, hu, .inr ⟨c :: v, rfl⟩⟩

theorem plain_iff {n : Name} : plain n = true ↔ n ≠ [] ∧ n ≠ ['.'] ∧ n ≠ dotdot ∧ '/' ∉ n := by
  simp [plain, dotdot, and_assoc]

theorem part_plain {n : Name} (h : plain n = true) : part n = some (.name n) := by
  obtain ⟨h₁, h₂, h₃, -⟩ := plain_iff.mp h
  have hdd : n ≠ ['.', '.'] := h₃
  rw [part, if_neg (by simp [h₁, h₂]), if_neg hdd]

/-- Another extension leaves every segment but the last as it was, and makes no `..` of that. -/
theorem tail_remapSuffixExt (toGlob : Text) (h : ∀ n ∈ (t.splitOn '/').tail, plain n = true) :
    ∀ n ∈ ((remapSuffixExt toGlob t).splitOn '/').tail, plain n = true := by
  rw [remapSuffixExt]
  split_ifs with h₁ h₂ h₃ h₄
  · exact h
  · exact h
  · exact h
  · exact h
  rw [not_or] at h₃
  obtain ⟨-, -, hto | ⟨x, hx, hdot, hslash⟩⟩ := exists_ext (base toGlob)
  · exact absurd hto h₃.1
  have hxne : x ≠ [] := fun he => h₃.2 (by rw [hx, he])
  obtain ⟨stem, hstem, hext⟩ := exists_ext t
  have hextslash : '/' ∉ ext t := by
    rcases hext with he | ⟨y, hy, -, hys⟩
    · simp [he]
    · simp [hy, hys]
  have hstrip : trimSuffix t (ext t) = stem := by
    have := trimSuffix_append stem (ext t)
    rwa [← hstem] at this
  rw [hstrip, hx]
  obtain ⟨u, hu, rfl | ⟨v, rfl⟩⟩ := exists_last stem
  · have hno : '/' ∉ stem ++ '.' :: x := by simp [hu, hslash]
    rw [List.splitOn_eq_singleton hno]
    simp
  · have hlast : '/' ∉ u ++ ext t := by simp [hu, hextslash]
    have hsplit : t.splitOn '/' = v.splitOn '/' ++ [u ++ ext t] := by
      conv_lhs => rw [hstem, List.append_assoc, List.cons_append, splitOn_append_slash]
      rw [List.splitOn_eq_singleton hlast]
    have hno : '/' ∉ u ++ '.' :: x := by simp [hu, hslash]
    rw [List.append_assoc, List.cons_append, splitOn_append_slash, List.splitOn_eq_singleton hno]
    rw [hsplit] at h
    obtain ⟨rest, hv, -⟩ := splitOn_eq_cons v
    rw [hv, List.cons_append, List.tail_cons] at h ⊢
    intro n hn
    rcases List.mem_append.mp hn with hn | hn
    · exact h n (List.mem_append_left _ hn)
    · rw [List.mem_singleton.mp hn, plain_iff]
      refine ⟨by simp, ?_, ?_, hno⟩
      · intro he
        have := congrArg List.length he
        have := List.length_pos_of_ne_nil hxne
        simp at *
        omega
      · intro he
        -- its last sign would be a dot
        have hlast : (u ++ '.' :: x).getLast? = some '.' := by rw [he]; rfl
        rw [List.getLast?_append_of_ne_nil _ (List.cons_ne_nil _ _), List.getLast?_cons,
          List.getLast?_eq_some_getLast hxne] at hlast
        exact hdot (by simpa using Option.some.inj hlast ▸ List.getLast_mem hxne)

theorem tail_suffixOf (fromGlob : Text) (hne : ns ≠ []) (hns : ∀ n ∈ ns, plain n = true) :
    ∀ n ∈ ((suffixOf fromGlob (render ns)).splitOn '/').tail, plain n = true := by
  have hsuffix : suffixOf fromGlob (render ns) <:+ render ns := by
    rw [suffixOf]
    split
    · exact (trimPrefix_suffix _ _).trans (trimPrefix_suffix _ _)
    · exact List.suffix_refl _
  obtain ⟨rest, hrest, hmem⟩ := splitOn_eq_cons (suffixOf fromGlob (render ns))
  rw [hrest, List.tail_cons]
  intro n hn
  obtain ⟨u, hu, hnu⟩ := hmem n hn
  have := mem_splitOn_of_suffix (hu.trans hsuffix) hnu
  rw [render,
    List.splitOn_intercalate '/' (fun m hm => (plain_iff.mp (hns m hm)).2.2.2) hne] at this
  exact hns n this

end Suffix

section Target

variable {fromGlob toGlob : Text} {ns : List Name}

/-- The anchor of the source is cut off in the middle of a name that goes on with two dots, and what
follows does not lead back to the last name of the anchor of the destination. -/
def Leaves (fromGlob toGlob rel : Text) : Prop :=
  let segs := (remapSuffixExt toGlob (suffixOf fromGlob rel)).splitOn '/'
  globAnchor toGlob ≠ [] ∧ '*' ∈ toGlob ∧ segs.head? = some dotdot ∧
    segs.tail.head? ≠ (clean (globAnchor toGlob)).segs.getLast?

instance (fromGlob toGlob rel : Text) : Decidable (Leaves fromGlob toGlob rel) :=
  inferInstanceAs (Decidable (_ ∧ _ ∧ _ ∧ _))

theorem normal_append_prefix_iff {p : List (Part Name)} {s : Name} {rest : List Name}
    (hrest : ∀ n ∈ rest, plain n = true) (h : (normal (p ++ (s :: rest).filterMap part)).1 = 0) :
    (normal p).1 = 0 ∧
      ((normal p).2 <+: (normal (p ++ (s :: rest).filterMap part)).2 ↔
        ¬ (s = dotdot ∧ rest.head? ≠ (normal p).2.getLast?)) := by
  have hnames : rest.filterMap part = names rest := by
    rw [names, ← List.filterMap_eq_map]
    exact List.filterMap_congr fun n hn => part_plain (hrest n hn)
  rw [List.filterMap_cons, hnames] at h ⊢
  by_cases hs : s = dotdot
  · have hup : part s = some .up := by rw [hs]; rfl
    rw [hup] at h ⊢
    dsimp only at h ⊢
    rw [← List.singleton_append, ← List.append_assoc, normal_append_names, normal_concat] at h ⊢
    revert h
    obtain ⟨k, A⟩ := normal p
    intro h
    rcases List.eq_nil_or_concat' A with rfl | ⟨A, n, rfl⟩
    · exact absurd h (Nat.succ_ne_zero k)
    · have hstep : normalStep (k, A ++ [n]) .up = (k, A) := by
        cases A with
        | nil => rfl
        | cons m A =>
          show (k, (m :: A ++ [n]).dropLast) = (k, m :: A)
          rw [List.dropLast_concat]
      rw [hstep] at h ⊢
      refine ⟨h, ?_⟩
      rw [List.prefix_append_right_inj, List.getLast?_concat]
      cases rest with
      | nil => simp [hs]
      | cons m rest => simp [hs, eq_comm]
  · have hstays : ∀ q, (normal (p ++ names q)).1 = 0 →
        (normal p).1 = 0 ∧ (normal p).2 <+: (normal (p ++ names q)).2 := by
      intro q hq
      rw [normal_append_names] at hq ⊢
      exact ⟨hq, List.prefix_append ..⟩
    simp only [hs, false_and, not_false_eq_true, iff_true]
    cases hpart : part s with
    | none =>
      rw [hpart] at h
      exact hstays rest h
    | some q =>
      rw [hpart] at h
      cases q with
      | name m => exact hstays (m :: rest) h
      | up =>
        rw [part] at hpart
        split_ifs at hpart with h₁ h₂
        · exact absurd h₂ hs
        · cases hpart

theorem anchor_relative {rel : Text} (hanchor : globAnchor toGlob ≠ [])
    (habs : (target fromGlob toGlob rel).head? ≠ some '/')
    (hdd : dotdot ∉ (target fromGlob toGlob rel).splitOn '/') :
        (globAnchor toGlob).head? ≠ some '/' := by
  rw [target] at habs hdd
  have hrel := (cleanText_stays habs hdd).1
  rw [if_neg hanchor] at hrel
  split at hrel
  · exact hrel
  split at hrel
  · exact hrel
  · rwa [List.head?_append_of_ne_nil _ hanchor] at hrel

theorem inside_target_iff (hne : ns ≠ []) (hns : ∀ n ∈ ns, plain n = true)
    (habs : (target fromGlob toGlob (render ns)).head? ≠ some '/')
    (hdd : dotdot ∉ (target fromGlob toGlob (render ns)).splitOn '/') :
    Inside (globAnchor toGlob) (target fromGlob toGlob (render ns)) ↔
      ¬ Leaves fromGlob toGlob (render ns) := by
  rw [Inside, Leaves]
  simp only [habs, hdd, ne_eq, not_false_eq_true, true_and]
  rw [target] at habs hdd ⊢
  obtain ⟨hrel, hup, hclean⟩ := cleanText_stays habs hdd
  rw [hclean]
  have hsegs : ∀ t : Text, t.head? ≠ some '/' → (normal (parse t).parts).1 = 0 →
      (clean t).segs = (normal (parse t).parts).2 := by
    intro t ht hk
    have hf : (parse t).absolute = false := by simpa [parse] using ht
    simp [clean, hf, hk]
  by_cases hanchor : globAnchor toGlob = []
  · simp [hanchor, clean, parse, normal, part]
  rw [if_neg hanchor] at hrel hup ⊢
  by_cases hstar : '*' ∈ toGlob
  · rw [if_neg (not_not.mpr hstar)] at hrel hup ⊢
    by_cases hsuffix : suffixOf fromGlob (render ns) = []
    · rw [if_pos hsuffix] at hrel hup ⊢
      simp [hsegs _ hrel hup, hsuffix, remapSuffixExt, dotdot]
    · rw [if_neg hsuffix] at hrel hup ⊢
      obtain ⟨rest, hrest, -⟩ :=
        splitOn_eq_cons (remapSuffixExt toGlob (suffixOf fromGlob (render ns)))
      have hplain := tail_remapSuffixExt toGlob (tail_suffixOf fromGlob hne hns)
      rw [hrest, List.tail_cons] at hplain
      rw [parts_append] at hup ⊢
      have hparts : (parse (remapSuffixExt toGlob (suffixOf fromGlob (render ns)))).parts =
          (_ :: rest).filterMap part := congrArg (List.filterMap part) hrest
      rw [hparts] at hup ⊢
      obtain ⟨hk, hiff⟩ := normal_append_prefix_iff hplain hup
      have hahead : (globAnchor toGlob).head? ≠ some '/' := by
        rwa [List.head?_append_of_ne_nil _ hanchor] at hrel
      rw [hsegs _ hahead hk, hiff, hrest]
      simp [hanchor, hstar]
  · rw [if_pos hstar] at hrel hup ⊢
    simp [hsegs _ hrel hup, hstar]

end Target

section Prefix

variable {r : Rule} {plugin dest : Text} {content : Bytes}

def nested (r : Rule) (dest : Text) : Text :=
  trimPrefix ['/'] (trimPrefix (globAnchor r.toGlob) dest)

def Prefixed (r : Rule) (plugin dest : Text) : Prop :=
  plugin ≠ [] ∧ nested r dest ≠ [] ∧ nested r dest ≠ dest ∧
    (r.prefixKind = .command ∨
      r.prefixKind = .skill ∧ ((nested r dest).dropWhile (· ≠ '/')).drop 1 ≠ [])

instance (r : Rule) (plugin dest : Text) : Decidable (Prefixed r plugin dest) :=
  inferInstanceAs (Decidable (_ ∧ _ ∧ _ ∧ _))

def componentName (r : Rule) (plugin dest : Text) : Text :=
  plugin ++ r.sep ++ (nested r dest).takeWhile (· ≠ '/')

theorem applyPrefix_of_not_prefixed (h : ¬ Prefixed r plugin dest) :
    applyPrefix r plugin dest content = (dest, content, none) := by
  unfold Prefixed nested at h
  rw [applyPrefix]
  split
  · rfl
  rename_i h₁
  split
  · rfl
  rename_i h₂
  rw [not_or] at h₁ h₂
  cases hk : r.prefixKind with
  | none => rfl
  | command => exact absurd ⟨h₁.1, h₂.1, h₂.2, .inl hk⟩ h
  | skill =>
    dsimp only
    split
    · rfl
    · rename_i htail
      exact absurd ⟨h₁.1, h₂.1, h₂.2, .inr ⟨hk, htail⟩⟩ h

theorem applyPrefix_of_prefixed (h : Prefixed r plugin dest) :
    (applyPrefix r plugin dest content).1 =
        globAnchor r.toGlob ++ '/' :: (plugin ++ r.sep ++ nested r dest) ∧
      ∀ e, (applyPrefix r plugin dest content).2.2 = some e → r.userOnlyCommandDir ≠ [] ∧
        e.1 = r.userOnlyCommandDir ++ '/' :: (componentName r plugin dest ++ ".md".toList) := by
  unfold Prefixed at h
  obtain ⟨hp, hne, hnd, hk⟩ := h
  have hkind : r.prefixKind ≠ .none := by
    rcases hk with hk | ⟨hk, -⟩ <;> rw [hk] <;> decide
  obtain ⟨-, hcut⟩ := first_segment (nested r dest)
  unfold componentName
  rw [applyPrefix, ← nested, if_neg (by simp [hp, hkind]), if_neg (by simp [hne, hnd])]
  rcases hk with hk | ⟨hk, htail⟩
  · rw [hk]
    dsimp only
    split_ifs with hsep
    · exact ⟨by simp [hsep], by simp⟩
    · exact ⟨by simp, by simp⟩
  · have hrest : nested r dest = _ := hcut.resolve_left (fun hc => htail hc.2)
    rw [hk]
    dsimp only
    rw [if_neg htail]
    have hpath :
        globAnchor r.toGlob ++ '/' :: (plugin ++ r.sep ++ (nested r dest).takeWhile (· ≠ '/')) ++
        '/' :: ((nested r dest).dropWhile (· ≠ '/')).drop 1 =
          globAnchor r.toGlob ++ '/' :: (plugin ++ r.sep ++ nested r dest) := by
      conv_rhs => rw [hrest]
      simp
    split
    · exact ⟨hpath, by simp⟩
    · refine ⟨hpath, fun e he => ?_⟩
      dsimp only at he
      split at he
      · rename_i huser
        rw [← Option.some.inj he]
        exact ⟨huser.1, by simp⟩
      · exact (nomatch he)

end Prefix

section Offer

variable {hash : Bytes → Text} {plugin rel : Text} {r : Rule} {body : Bytes} {own : FileWrite}
  {extra : Option FileWrite} {ns : List Name}

/-- What stays at the anchor of the rule: the name that is put in has no `..` below an anchor
without one, or the destination is left as it is and does not leave the anchor. -/
def Sits (r : Rule) (plugin rel : Text) : Prop :=
  let dest := target r.fromGlob r.toGlob rel
  (Prefixed r plugin dest → dotdot ∉ (globAnchor r.toGlob).splitOn '/' ∧
      dotdot ∉ (componentName r plugin dest).splitOn '/') ∧
    (¬ Prefixed r plugin dest → ¬ Leaves r.fromGlob r.toGlob rel)

def CommandSits (r : Rule) (plugin rel : Text) : Prop :=
  r.userOnlyCommandDir.head? ≠ some '/' ∧ dotdot ∉ r.userOnlyCommandDir.splitOn '/' ∧
    dotdot ∉ (componentName r plugin (target r.fromGlob r.toGlob rel) ++ ".md".toList).splitOn '/'

instance (r : Rule) (plugin rel : Text) : Decidable (Sits r plugin rel) :=
  inferInstanceAs (Decidable (_ ∧ _))

theorem offer_ok (h : offer hash plugin r rel body = .ok (own, extra)) :
    let dest := target r.fromGlob r.toGlob rel
    dest.head? ≠ some '/' ∧ dotdot ∉ dest.splitOn '/' ∧ own.merge = r.merge ∧ ∃ content,
      own.path = (applyPrefix r plugin dest content).1 ∧
      ∀ e, extra = some e → e.merge = .replace ∧ ∃ c, (applyPrefix r plugin dest content).2.2 =
        some (e.path, c) := by
  dsimp only
  rw [offer, resolveRecursiveGlobTarget] at h
  dsimp only at h
  by_cases habs : (target r.fromGlob r.toGlob rel).head? = some '/'
  · rw [if_pos habs] at h
    exact (nomatch h)
  by_cases hdd : dotdot ∈ (target r.fromGlob r.toGlob rel).splitOn '/'
  · rw [if_neg habs, if_pos hdd] at h
    exact (nomatch h)
  rw [if_neg habs, if_neg hdd] at h
  dsimp only at h
  refine ⟨habs, hdd, ?_⟩
  split at h
  · exact (nomatch h)
  split at h
  · exact (nomatch h)
  · rename_i content keys _
    rw [Except.ok.injEq, Prod.mk.injEq] at h
    obtain ⟨rfl, rfl⟩ := h
    refine ⟨rfl, content, rfl, fun e he => ?_⟩
    obtain ⟨x, hx, rfl⟩ := Option.map_eq_some_iff.mp he
    exact ⟨rfl, x.2, hx⟩

theorem dotdot_nested_iff {dest front : Text} (hdd : dotdot ∉ dest.splitOn '/') :
    dotdot ∈ (front ++ nested r dest).splitOn '/' ↔
      dotdot ∈ (front ++ (nested r dest).takeWhile (· ≠ '/')).splitOn '/' := by
  obtain ⟨-, ⟨hcut, -⟩ | hcut⟩ := first_segment (nested r dest)
  · rw [← hcut]
  · have hsuffix : nested r dest <:+ dest := (trimPrefix_suffix _ _).trans (trimPrefix_suffix _ _)
    have htail : dotdot ∉ (((nested r dest).dropWhile (· ≠ '/')).drop 1).splitOn '/' := fun hm =>
      hdd (mem_splitOn_of_suffix (List.IsSuffix.trans ⟨_, hcut.symm⟩ hsuffix) hm)
    conv_lhs => rw [hcut, ← List.append_assoc, splitOn_append_slash, List.mem_append]
    exact or_iff_left htail

theorem inside_own_iff (hne : ns ≠ []) (hns : ∀ n ∈ ns, plain n = true)
    (h : offer hash plugin r (render ns) body = .ok (own, extra)) :
    Inside (globAnchor r.toGlob) own.path ↔ Sits r plugin (render ns) := by
  obtain ⟨habs, hdd, -, content, hpath, -⟩ := offer_ok h
  rw [hpath, Sits]
  by_cases hp : Prefixed r plugin (target r.fromGlob r.toGlob (render ns))
  · have hanchor : globAnchor r.toGlob ≠ [] := by
      intro hnil
      have hsame :
          nested r (target r.fromGlob r.toGlob (render ns)) =
        target r.fromGlob r.toGlob (render ns) := by
        rw [nested, hnil, trimPrefix_nil, trimPrefix_slash habs]
      exact hp.2.2.1 hsame
    have hhead := anchor_relative hanchor habs hdd
    rw [(applyPrefix_of_prefixed hp).1, inside_append_iff hanchor, dotdot_nested_iff hdd]
    simp [hp, hhead, componentName]
  · rw [applyPrefix_of_not_prefixed hp, inside_target_iff hne hns habs hdd]
    simp [hp]

theorem extra_path {e : FileWrite} (h : offer hash plugin r rel body = .ok (own, some e)) :
    r.userOnlyCommandDir ≠ [] ∧ e.path = r.userOnlyCommandDir ++
      '/' :: (componentName r plugin (target r.fromGlob r.toGlob rel) ++ ".md".toList) := by
  obtain ⟨-, -, -, content, -, hextra⟩ := offer_ok h
  obtain ⟨-, c, hc⟩ := hextra e rfl
  have hp : Prefixed r plugin (target r.fromGlob r.toGlob rel) := by
    by_contra hp
    rw [applyPrefix_of_not_prefixed hp] at hc
    exact (nomatch hc)
  exact (applyPrefix_of_prefixed hp).2 _ hc

theorem inside_extra_iff {e : FileWrite} (h : offer hash plugin r rel body = .ok (own, some e)) :
    Inside r.userOnlyCommandDir e.path ↔ CommandSits r plugin rel := by
  rw [(extra_path h).2, inside_append_iff (extra_path h).1, CommandSits]

end Offer

end AchProofs.Cli.Route
