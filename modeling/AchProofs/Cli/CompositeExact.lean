import AchProofs.Cli.Composite

namespace AchProofs.Cli.CompositeExact

open Foundation.Search Cli.Composite

/-- Neither a marker nor a line break is part of a name in a template. -/
structure NameChars (word : Char → Bool) : Prop where
  lt : word '<' = false
  newline : word '\n' = false

def PlainId (id : String) : Prop := ValidId id ∧ '$' ∉ id.toList

section Expand

variable {word : Char → Bool} {m : Text}

theorem mem_span_word {t : Text} {c : Char} (h : c ∈ (t.span word).1) : word c = true := by
  rw [List.span_eq_takeWhile_dropWhile] at h
  exact List.mem_takeWhile_imp h

theorem span_append (word : Char → Bool) (t : Text) : (t.span word).1 ++ (t.span word).2 = t := by
  rw [List.span_eq_takeWhile_dropWhile]
  exact List.takeWhile_append_dropWhile

theorem extract_some (hw : NameChars word) {t name rest : Text}
    (h : extract word t = some (name, rest)) : ∃ ref, t = ref ++ rest ∧ '<' ∉ ref := by
  have hlt : ∀ t : Text, '<' ∉ (t.span word).1 := by
    intro t hmem
    have := mem_span_word hmem
    rw [hw.lt] at this
    cases this
  unfold extract at h
  split at h
  · rename_i s
    split at h
    · cases h
    · rename_i name' rest' hne hspan
      cases h
      refine ⟨'{' :: name ++ ['}'], ?_, ?_⟩
      · have happ := span_append word s
        rw [hspan] at happ
        simp [← happ]
      · have := hlt s
        rw [hspan] at this
        simp [this]
    · cases h
  · split at h
    · cases h
    · rename_i name' rest' hne hspan
      cases h
      have happ := span_append word t
      have := hlt t
      rw [hspan] at happ this
      exact ⟨name, happ.symm, this⟩

/-- A template never outruns what it expands to: with text in front of it, it is no beginning of
its expansion, unless the whole match comes in and brings a marker. -/
theorem not_prefix_expandFuel (hw : NameChars word) (hm : m.head? = some '<') {n : ℕ} {t u : Text}
    (hn : t.length ≤ n) (hne : u ≠ []) (hu : '<' ∉ u) : ¬ u ++ t <+: expandFuel word m n t := by
  induction n generalizing t u with
  | zero =>
    obtain rfl := List.eq_nil_of_length_eq_zero (Nat.le_zero.mp hn)
    intro h
    simp [expandFuel, hne] at h
  | succ n ih =>
    cases t with
    | nil =>
      intro h
      simp [expandFuel, hne] at h
    | cons c t =>
      obtain ⟨a, u, rfl⟩ := List.exists_cons_of_ne_nil hne
      have ha : '<' ≠ a := fun heq => hu (heq ▸ List.mem_cons_self)
      have hu : '<' ∉ u := fun hmem => hu (by simp [hmem])
      have hlen : t.length ≤ n := Nat.le_of_succ_le_succ hn
      -- the expansion starts with the template's own symbol, which moves to the text in front
      have hmove : ∀ {x : Char} {y s : Text}, s.length ≤ n → '<' ∉ y → y ≠ [] →
          ¬ a :: (u ++ (y ++ s)) <+: x :: expandFuel word m n s := by
        intro x y s hs hy hyne h
        obtain ⟨-, h⟩ := List.cons_prefix_cons.mp h
        exact ih hs (u := u ++ y) (by simp [hyne]) (by simp [hu, hy]) (by simpa using h)
      intro h
      unfold expandFuel at h
      split at h
      · rename_i hc
        subst hc
        split at h
        · rename_i hd
          obtain ⟨s, rfl⟩ := List.head?_eq_some_iff.mp hd
          have hs : s.length ≤ n := Nat.le_of_succ_le hlen
          exact hmove (y := ['$', '$']) hs (by decide) (by simp) (by simpa using h)
        · split at h
          · exact hmove (y := ['$']) hlen (by decide) (by simp) (by simpa using h)
          · rename_i name rest hx
            obtain ⟨ref, rfl, href⟩ := extract_some hw hx
            split at h
            · obtain ⟨m, rfl⟩ := List.head?_eq_some_iff.mp hm
              exact ha (List.cons_prefix_cons.mp h).1.symm
            · exact ih (u := a :: u ++ '$' :: ref) (t := rest) (by simp at hlen; omega) (by simp)
                (by simp [ha, hu, href]) (by simpa using h)
      · by_cases hac : a = c
        · subst hac
          exact hmove (x := a) (y := [a]) hlen (by simpa using ha) (by simp) (by simpa using h)
        · exact hac (List.cons_prefix_cons.mp h).1

theorem literal_of_prefix (hw : NameChars word) (hm : m.head? = some '<') {n : ℕ} {t : Text}
    (hn : t.length ≤ n) (h : t <+: expandFuel word m n t) : Literal word t := by
  induction n generalizing t with
  | zero =>
    obtain rfl := List.eq_nil_of_length_eq_zero (Nat.le_zero.mp hn)
    trivial
  | succ n ih =>
    cases t with
    | nil => trivial
    | cons c t =>
      have hlen : t.length ≤ n := Nat.le_of_succ_le_succ hn
      unfold expandFuel at h
      split at h
      · rename_i hc
        subst hc
        split at h
        · rename_i hd
          obtain ⟨s, rfl⟩ := List.head?_eq_some_iff.mp hd
          have hs : s.length ≤ n := Nat.le_of_succ_le hlen
          refine absurd (List.cons_prefix_cons.mp h).2 ?_
          exact not_prefix_expandFuel hw hm (u := ['$']) hs (by simp) (by decide)
        · split at h
          · rename_i hd _ hx
            exact ⟨fun _ => ⟨hd, hx⟩, ih hlen (List.cons_prefix_cons.mp h).2⟩
          · rename_i name rest hx
            obtain ⟨ref, rfl, href⟩ := extract_some hw hx
            split at h
            · obtain ⟨m, rfl⟩ := List.head?_eq_some_iff.mp hm
              exact absurd (List.cons_prefix_cons.mp h).1 (by decide)
            · refine absurd h ?_
              exact not_prefix_expandFuel hw hm (u := '$' :: ref) (by simp at hlen; omega) (by simp)
                (by simp [href])
      · rename_i hc
        exact ⟨fun hd => absurd hd hc, ih hlen (List.cons_prefix_cons.mp h).2⟩

theorem span_line (hw : NameChars word) (y z : Text) :
    (y ++ '\n' :: z).span word = ((y.span word).1, (y.span word).2 ++ '\n' :: z) := by
  simp only [List.span_eq_takeWhile_dropWhile]
  induction y with
  | nil => simp [hw.newline]
  | cons c y ih =>
    obtain ⟨ih₁, ih₂⟩ := Prod.mk.inj ih
    cases hc : word c <;> simp [hc, ih₁, ih₂]

theorem extract_line (hw : NameChars word) (y z : Text) :
    extract word (y ++ '\n' :: z) = (extract word y).map (fun r => (r.1, r.2 ++ '\n' :: z)) := by
  by_cases hy : ∃ s, y = '{' :: s
  · obtain ⟨s, rfl⟩ := hy
    simp only [extract, List.cons_append, span_line hw]
    rcases s.span word with ⟨name, rest⟩
    cases name with
    | nil => rfl
    | cons a name =>
      cases rest with
      | nil => rfl
      | cons b rest =>
        by_cases hb : b = '}'
        · subst hb
          rfl
        · simp [hb]
  · have hbare : ∀ t : Text, (∀ s, t ≠ '{' :: s) → extract word t =
        if (t.span word).1 = [] then none else some (t.span word) := by
      intro t ht
      unfold extract
      split
      · rename_i s
        exact absurd rfl (ht s)
      · rcases t.span word with ⟨_ | _, _⟩ <;> rfl
    rw [hbare y (fun s hs => hy ⟨s, hs⟩), hbare, span_line hw]
    · rcases y.span word with ⟨_ | _, _⟩ <;> rfl
    · intro s hs
      cases y with
      | nil => cases hs
      | cons c y => exact hy ⟨y, by rw [(List.cons.inj hs).1]⟩

theorem literal_of_not_mem {t : Text} (h : '$' ∉ t) : Literal word t := by
  induction t with
  | nil => trivial
  | cons c t ih =>
    refine ⟨fun hc => absurd (hc ▸ List.mem_cons_self) h,
      ih (fun hm => h (List.mem_cons_of_mem _ hm))⟩

theorem expandFuel_line (hw : NameChars word) {n : ℕ} (y : Text) {z : Text} (hz : '$' ∉ z)
    (hn : y.length ≤ n) :
    expandFuel word m n (y ++ '\n' :: z) = expandFuel word m n y ++ '\n' :: z := by
  have hline : Literal word ('\n' :: z) := literal_of_not_mem (by simp [hz])
  induction n generalizing y with
  | zero =>
    obtain rfl := List.eq_nil_of_length_eq_zero (Nat.le_zero.mp hn)
    rfl
  | succ n ih =>
    cases y with
    | nil =>
      rw [List.nil_append, expandFuel_literal hline]
      rfl
    | cons c y =>
      have hlen : y.length ≤ n := Nat.le_of_succ_le_succ hn
      rw [List.cons_append]
      unfold expandFuel
      split
      · by_cases hd : y.head? = some '$'
        · obtain ⟨s, rfl⟩ := List.head?_eq_some_iff.mp hd
          have hs : s.length ≤ n := Nat.le_of_succ_le hlen
          simp [ih s hs]
        · have hd' : (y ++ '\n' :: z).head? ≠ some '$' := by
            cases y with
            | nil => simp
            | cons c y => simpa using hd
          rw [if_neg hd, if_neg hd', extract_line hw]
          cases hx : extract word y with
          | none => simp [ih y hlen]
          | some r =>
            obtain ⟨ref, rfl, -⟩ := extract_some hw hx
            have hr : r.2.length ≤ n := by
              simp only [List.length_append] at hlen
              omega
            simp [ih r.2 hr]
      · rw [ih y hlen]
        rfl

theorem expandFuel_append_plain {x : Text} (hx : '$' ∉ x) (n : ℕ) (y : Text) :
    expandFuel word m (x.length + n) (x ++ y) = x ++ expandFuel word m n y := by
  induction x with
  | nil => simp
  | cons c x ih =>
    have hc : c ≠ '$' := fun heq => hx (heq ▸ List.mem_cons_self)
    have hlen : (c :: x).length + n = (x.length + n) + 1 := by simp only [List.length_cons]; omega
    rw [hlen, List.cons_append, expandFuel, if_neg hc,
      ih (fun hm => hx (List.mem_cons_of_mem _ hm))]
    rfl

end Expand

section Region

variable {id : String} {pre post body t : Text}

def blockLines (t : Text) : Text := ['\n'] ++ t.rdropWhile (fun c => c = '\n') ++ ['\n']

theorem compositeBlock_eq (id : String) (t : Text) :
    compositeBlock id t = beginMarker id ++ (blockLines t ++ (endMarker id ++ ['\n'])) := by
  simp [compositeBlock, blockLines]

theorem endMarker_not_beginMarker (id id' : String) (x : Text) :
    ¬ endMarker id <+: beginMarker id' ++ x := by
  simp [beginMarker, endMarker, beginTail, endTail, beginWord, endWord]

theorem infix_rdropWhile {p : Text} {c : Char} (hp : p.getLast? = some c) (hc : c ≠ '\n')
    (h : p <:+: t) : p <:+: t.rdropWhile (fun c => c = '\n') := by
  induction t using List.reverseRecOn with
  | nil => simpa using h
  | append_singleton t x ih =>
    rw [List.rdropWhile_concat]
    split
    · rename_i hx
      obtain rfl : x = '\n' := by simpa using hx
      exact ih (infix_snoc hp hc h)
    · exact h

theorem infix_blockLines (h : endMarker id <:+: t) : endMarker id <:+: blockLines t := by
  have hinner := infix_rdropWhile (getLast_endMarker id) (by decide) h
  refine hinner.trans ?_
  rw [blockLines, List.append_assoc]
  exact List.infix_append' _ _ _

theorem endMarker_not_begin_append (hid : ValidId id) {x : Text} (hx : ¬ endMarker id <:+: x) :
    ¬ endMarker id <:+: beginMarker id ++ x := by
  intro h
  obtain h | h := List.infix_cons_iff.mp h
  · exact endMarker_not_beginMarker id id x h
  · exact hx (infix_append_of_not_mem (lt_not_mem_beginTail hid) h)

theorem cut_endMarker (hid : ValidId id) {x : Text} (hx : ¬ endMarker id <:+: x) (y : Text) :
    cut (endMarker id) (x ++ endMarker id ++ y) = some (x, y) :=
  cut_marker (lt_not_mem_endTail hid) hx y

theorem region_from (hid : ValidId id) (hpre : ¬ beginMarker id <:+: pre) {x y : Text}
    (hx : ¬ endMarker id <:+: x) :
    region id (pre ++ beginMarker id ++ (x ++ endMarker id ++ y)) =
      some (beginMarker id ++ x ++ endMarker id ++ if y.head? = some '\n' then ['\n'] else []) := by
  have hb : cut (beginMarker id) (pre ++ beginMarker id ++ (x ++ endMarker id ++ y)) =
      some (pre, x ++ endMarker id ++ y) := cut_marker (lt_not_mem_beginTail hid) hpre _
  simp only [region, pluginMarkerRE, findRegion, hb, cut_endMarker hid hx y]
  split <;> simp

theorem region_block_iff (hid : ValidId id) (hpre : ¬ beginMarker id <:+: pre) :
    region id (pre ++ compositeBlock id t ++ post) = some (compositeBlock id t) ↔
      ¬ endMarker id <:+: t := by
  refine ⟨fun h hmem => ?_, fun h => ?_⟩
  · obtain ⟨a, b, hlines⟩ := infix_blockLines hmem
    have hrest : endMarker id <:+: blockLines t ++ (endMarker id ++ ('\n' :: post)) :=
      (infix_blockLines hmem).trans (List.prefix_append _ _).isInfix
    obtain ⟨x, y, hcut⟩ := exists_cut hrest
    have heq := eq_of_cut hcut
    have hle : x.length ≤ a.length := by
      refine cut_length_le hcut (show _ =
        a ++ endMarker id ++ (b ++ (endMarker id ++ ('\n' :: post))) from ?_)
      simp [← hlines]
    have htext : pre ++ compositeBlock id t ++ post =
        pre ++ beginMarker id ++ (x ++ endMarker id ++ y) := by
      rw [← heq, compositeBlock_eq]
      simp
    rw [htext, region_from hid hpre (not_infix_of_cut (List.cons_ne_nil _ _) hcut)] at h
    have hlen := congrArg List.length (Option.some.inj h)
    rw [compositeBlock_eq, ← hlines] at hlen
    have hend : 0 < (endMarker id).length := by simp [endMarker]
    simp only [List.length_append, List.length_singleton] at hlen
    split at hlen <;> simp only [List.length_singleton, List.length_nil] at hlen <;> omega
  · rw [region, pluginMarkerRE_block hid hpre h post]
    rfl

/-- Without a region in the file the block goes to its end. A begin marker left open before it takes
the block for a part of its own region. -/
theorem region_append_iff (hid : ValidId id) (hbody : region id body = none) :
    region id (body ++ compositeBlock id t) = some (compositeBlock id t) ↔
      ¬ endMarker id <:+: t ∧ ¬ beginMarker id <:+: body := by
  by_cases hb : beginMarker id <:+: body
  · refine ⟨fun h => ?_, fun h => absurd hb h.2⟩
    obtain ⟨pre, rest, hcut⟩ := exists_cut hb
    have hpre := not_infix_of_cut (List.cons_ne_nil _ _) hcut
    obtain rfl := eq_of_cut hcut
    -- the open marker is not closed in the file itself
    have hrest : ¬ endMarker id <:+: rest := by
      intro hmem
      obtain ⟨x, y, hx⟩ := exists_cut hmem
      rw [eq_of_cut hx, region_from hid hpre (not_infix_of_cut (List.cons_ne_nil _ _) hx)] at hbody
      cases hbody
    have hblock : endMarker id <:+: compositeBlock id t := by
      rw [compositeBlock_eq]
      exact ⟨beginMarker id ++ blockLines t, ['\n'], by simp⟩
    obtain ⟨x, y, hx⟩ := exists_cut hblock
    have hfirst := not_infix_of_cut (List.cons_ne_nil _ _) hx
    have hsplit := eq_of_cut hx
    obtain ⟨x', rfl⟩ : ∃ x', x = '<' :: x' := by
      rw [compositeBlock_eq] at hsplit
      cases x with
      | nil => exact absurd ⟨y, hsplit.symm⟩ (endMarker_not_beginMarker id id _)
      | cons c x => exact ⟨x, by rw [(List.cons.inj hsplit).1]⟩
    have hopen : ¬ endMarker id <:+: rest ++ '<' :: x' := fun hmem =>
      (infix_append_cons (lt_not_mem_endTail hid) hmem).elim hrest hfirst
    have htext : pre ++ beginMarker id ++ rest ++ compositeBlock id t =
        pre ++ beginMarker id ++ ((rest ++ '<' :: x') ++ endMarker id ++ y) := by
      rw [hsplit]
      simp
    rw [htext, region_from hid hpre hopen] at h
    -- so the block would have its first end marker further on than it has
    rw [← Option.some.inj h, cut_endMarker hid (endMarker_not_begin_append hid hopen)] at hx
    have hlen := congrArg List.length (Prod.mk.inj (Option.some.inj hx)).1
    have hbegin : 0 < (beginMarker id).length := by simp [beginMarker]
    simp only [List.length_append] at hlen
    omega
  · have hiff : region id (body ++ compositeBlock id t ++ []) = some (compositeBlock id t) ↔
        ¬ endMarker id <:+: t := region_block_iff hid hb
    rw [List.append_nil] at hiff
    simp [hiff, hb]

/-- What the block of a plain id expands to: its markers stay, its lines are expanded. -/
theorem expand_block {word : Char → Bool} (hw : NameChars word) (hid : PlainId id) (t m : Text) :
    ∃ lines, expand word (compositeBlock id t) m =
      beginMarker id ++ (lines ++ ['\n'] ++ endMarker id ++ ['\n']) := by
  have hb : '$' ∉ beginMarker id := by
    simp [beginMarker, beginTail, beginWord, closeWord, hid.2]
  have he : '$' ∉ endMarker id ++ ['\n'] := by
    simp [endMarker, endTail, endWord, closeWord, hid.2]
  have hsplit : compositeBlock id t = beginMarker id ++
      (('\n' :: t.rdropWhile (fun c => c = '\n')) ++ '\n' :: (endMarker id ++ ['\n'])) := by
    simp [compositeBlock]
  have hlen : ('\n' :: t.rdropWhile (fun c => c = '\n')).length ≤
      (('\n' :: t.rdropWhile (fun c => c = '\n')) ++ '\n' :: (endMarker id ++ ['\n'])).length := by
    simp
  have hexp := expandFuel_line (m := m) hw ('\n' :: t.rdropWhile (fun c => c = '\n')) he hlen
  have hjoin : ∀ lines : Text, lines ++ '\n' :: (endMarker id ++ ['\n']) =
      lines ++ ['\n'] ++ endMarker id ++ ['\n'] := by simp
  rw [expand, hsplit, List.length_append, expandFuel_append_plain hb, hexp, hjoin]
  exact ⟨_, rfl⟩

/-- A block that replaces a region is seen whole exactly if its content does not end it early and
nothing in it is taken for a reference. -/
theorem region_replace_iff {word : Char → Bool} (hw : NameChars word) (hid : PlainId id)
    (hbody : region id body ≠ none) :
    region id (replaceRegions word id (compositeBlock id t) body) = some (compositeBlock id t) ↔
      ¬ endMarker id <:+: t ∧ Literal word (compositeBlock id t) := by
  obtain ⟨⟨pre, m, post⟩, hfind⟩ : ∃ r, pluginMarkerRE id body = some r := by
    cases h : pluginMarkerRE id body with
    | none => simp [region, h] at hbody
    | some r => exact ⟨r, rfl⟩
  have hm : m.head? = some '<' := by
    obtain ⟨tail, rfl⟩ := (eq_of_findRegion hfind).2
    rfl
  have hpre : ¬ beginMarker id <:+: pre := by
    unfold pluginMarkerRE findRegion at hfind
    cases hcut : cut (beginMarker id) body with
    | none => simp [hcut] at hfind
    | some r =>
      have hno := not_infix_of_cut (List.cons_ne_nil _ _) hcut
      simp only [hcut] at hfind
      split at hfind
      · cases hfind
      · split at hfind <;> cases hfind <;> exact hno
  rw [replaceRegions, replaceAll_of_some (pluginMarkerRE_shorter id) hfind]
  by_cases hlit : Literal word (compositeBlock id t)
  · rw [expand_literal hlit, region_block_iff hid.1 hpre]
    simp [hlit]
  refine ⟨fun h => absurd ?_ hlit, fun h => absurd h.2 hlit⟩
  generalize replaceAll (pluginMarkerRE id) (expand word (compositeBlock id t)) post = tail at h
  obtain ⟨lines, hexp⟩ := expand_block hw hid t m
  -- the region ends within the expanded block, so the block would begin its own expansion
  obtain ⟨x, y, hcut⟩ := exists_cut (show endMarker id <:+:
    (lines ++ ['\n']) ++ endMarker id ++ ('\n' :: tail) from ⟨lines ++ ['\n'], '\n' :: tail, rfl⟩)
  have hle := cut_length_le hcut rfl
  have heq := eq_of_cut hcut
  have htext : pre ++ expand word (compositeBlock id t) m ++ tail =
      pre ++ beginMarker id ++ (x ++ endMarker id ++ y) := by
    rw [hexp, ← heq]
    simp
  rw [htext, region_from hid.1 hpre (not_infix_of_cut (List.cons_ne_nil _ _) hcut)] at h
  have hregion := Option.some.inj h
  have hlong : compositeBlock id t <+: beginMarker id ++ (x ++ endMarker id ++ y) := by
    rw [← hregion]
    split
    · rename_i hy
      obtain ⟨z, rfl⟩ := List.head?_eq_some_iff.mp hy
      exact ⟨z, by simp⟩
    · exact ⟨y, by simp⟩
  have hwhole :
      expand word (compositeBlock id t) m <+: beginMarker id ++ (x ++ endMarker id ++ y) := by
    rw [← heq, hexp]
    exact ⟨tail, by simp⟩
  have hlen : (compositeBlock id t).length ≤ (expand word (compositeBlock id t) m).length := by
    rw [hexp, ← hregion]
    simp only [List.length_append, List.length_singleton] at hle ⊢
    split <;> simp only [List.length_singleton, List.length_nil] <;> omega
  exact literal_of_prefix hw hm (le_refl _) (List.prefix_of_prefix_length_le hlong hwhole hlen)

theorem region_writeComposite_iff {word : Char → Bool} (hw : NameChars word) (hid : PlainId id) :
    region id (writeComposite word id (compositeBlock id t) body) = some (compositeBlock id t) ↔
      ¬ endMarker id <:+: t ∧ if (region id body).isSome then Literal word (compositeBlock id t)
        else ¬ beginMarker id <:+: body := by
  unfold writeComposite
  cases hfind : pluginMarkerRE id body with
  | none =>
    have hbody : region id body = none := by simp [region, hfind]
    simpa [hbody] using region_append_iff hid.1 hbody
  | some r =>
    have hbody : region id body ≠ none := by simp [region, hfind]
    simpa [Option.isSome_iff_ne_none, hbody] using region_replace_iff hw hid hbody

end Region

end AchProofs.Cli.CompositeExact
