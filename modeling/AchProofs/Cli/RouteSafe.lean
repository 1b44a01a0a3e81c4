import AchProofs.Cli.RouteClaims
import AchProofs.Cli.RoutePaths

namespace AchProofs.Cli.Route

open Cli.Extract Gitfetch Hydrate Foundation.Percent

section Project

variable (hash : Bytes → Text) (rules : List Rule) (source plugin : Text)

/-- The file is routed by the rule, and these are its writes. -/
def Offers (x : List Name × SourceItem) (r : Rule) (own : FileWrite) (extra : Option FileWrite) :
    Prop :=
  ∃ body, x.2 = .file body ∧ matchRule (x.1.headD []) (render x.1) source true none rules = some r ∧
    r.takes (render x.1) = true ∧ offer hash plugin r (render x.1) body = .ok (own, extra)

/-- A converted file gives way to a file that another rule takes as it is. -/
def Ousted (tree : SourceTree) (r : Rule) (own : FileWrite) : Prop :=
  r.transform.isSome ∧ own.merge = .replace ∧ ∃ y ∈ tree.items, ∃ r' own' extra',
    Offers hash rules source plugin y r' own' extra' ∧ r'.transform = none ∧
      own'.merge = .replace ∧ own'.path = own.path ∧ own' ≠ own

/-- What a projection should come to. -/
structure Safe (tree : SourceTree) (writes : List FileWrite) : Prop where
  separate : ((writes.filter (·.merge = .replace)).map FileWrite.path).Nodup
  produced : ∀ fw ∈ writes, ∃ x ∈ tree.items, ∃ r own extra,
    Offers hash rules source plugin x r own extra ∧ (fw = own ∨ extra = some fw)
  inside : ∀ x ∈ tree.items, ∀ r own extra, Offers hash rules source plugin x r own extra →
    (own ∈ writes → Inside (globAnchor r.toGlob) own.path) ∧
      ∀ e, extra = some e → e ∈ writes → Inside r.userOnlyCommandDir e.path
  verbatim : ∀ x ∈ tree.items, ∀ r own extra, Offers hash rules source plugin x r own extra →
    r.transform = none → own ∈ writes
  complete : ∀ x ∈ tree.items, ∀ body, x.2 = .file body →
    (∃ r ∈ rules, r.isFor (x.1.headD []) source = true ∧ r.takes (render x.1) = true) →
    ∃ r own extra, Offers hash rules source plugin x r own extra ∧
      (own ∈ writes ∨ Ousted hash rules source plugin tree r own)

variable {hash rules source plugin} {L : List (Origin × FileWrite)} {w w' : Walked}

theorem matchRule_of_takes {topLevel : Name} {rel : Text} (fallback : Option Rule)
    (h : ∃ r ∈ rules, r.isFor topLevel source = true ∧ r.takes rel = true) :
    ∃ r, matchRule topLevel rel source true fallback rules = some r ∧ r.takes rel = true := by
  induction rules generalizing fallback with
  | nil => simp at h
  | cons r rs ih =>
    rw [matchRule]
    by_cases hr : r.isFor topLevel source = true ∧ r.takes rel = true
    · exact ⟨r, by simp [hr], hr.2⟩
    · have hrest : ∃ r ∈ rs, r.isFor topLevel source = true ∧ r.takes rel = true := by
        simpa [hr] using h
      split_ifs with hfor htakes
      · exact ih _ hrest
      · exact ih _ hrest
      · exact absurd ⟨by simpa using hfor, by simpa using htakes⟩ hr

theorem Ledger.congr (h : Ledger L w) (hf : w'.fws = w.fws) (hc : w'.claimed = w.claimed)
    (hv : w'.converted = w.converted) : Ledger L w' := by
  obtain ⟨_, _, _, _, _⟩ := w'
  obtain ⟨_, _, _, _, _⟩ := w
  cases hf
  cases hc
  cases hv
  exact ⟨h.claimed_iff, h.offered,
    fun o fw hm => (h.stands o fw hm).mono id (fun _ => id) (fun _ => rfl), h.native⟩

def OfferedBy (hash : Bytes → Text) (rules : List Rule) (source plugin : Text)
    (x : List Name × SourceItem) (o : Origin) (fw : FileWrite) : Prop :=
  ∃ r own extra, Offers hash rules source plugin x r own extra ∧
    (o = origin r.transform.isSome ∧ fw = own ∨ o = .extra ∧ extra = some fw)

theorem visit_ledger {x : List Name × SourceItem} (h : Ledger L w)
    (hv : visit hash rules source plugin w x = .ok w') :
    (∃ M, Ledger (L ++ M) w' ∧
      ∀ o fw, (o, fw) ∈ M ↔ OfferedBy hash rules source plugin x o fw) ∧
    ∀ body r, x.2 = .file body →
      matchRule (x.1.headD []) (render x.1) source true none rules = some r →
      r.takes (render x.1) = true → ∃ own extra, Offers hash rules source plugin x r own extra := by
  -- an entry without an offer leaves the ledger as it is
  have hskip : Ledger L w' → (∀ r own extra, ¬ Offers hash rules source plugin x r own extra) →
      ∃ M, Ledger (L ++ M) w' ∧ ∀ o fw, (o, fw) ∈ M ↔ OfferedBy hash rules source plugin x o fw :=
    fun hL hno => ⟨[], by rwa [List.append_nil], fun o fw => by simp [OfferedBy, hno]⟩
  rw [visit] at hv
  cases hitem : x.2 with
  | file body =>
    rw [hitem, decide_eq_true (by simp)] at hv
    cases hr : matchRule (x.1.headD []) (render x.1) source true none rules with
    | none =>
      rw [hr] at hv
      cases hv
      refine ⟨hskip ?_ fun r own extra ⟨_, _, hx, _⟩ => (nomatch hr.symm.trans hx), nofun⟩
      split_ifs <;> exact h.congr rfl rfl rfl
    | some rule =>
      simp only [hr] at hv
      by_cases ht : rule.takes (render x.1) = true
      · rw [ht, Bool.not_true, if_neg Bool.false_ne_true] at hv
        split at hv
        · cases hv
        rename_i own extra hoffer
        have hx : Offers hash rules source plugin x rule own extra := ⟨body, hitem, hr, ht, hoffer⟩
        have hone : ∀ r own' extra', Offers hash rules source plugin x r own' extra' →
            r = rule ∧ own' = own ∧ extra' = extra := by
          rintro r own' extra' ⟨body', hb, hr', -, ho⟩
          cases hitem.symm.trans hb
          cases hr.symm.trans hr'
          cases hoffer.symm.trans ho
          exact ⟨rfl, rfl, rfl⟩
        refine ⟨?_, fun body' r _ hr' _ => ⟨own, extra, Option.some.inj hr' ▸ hx⟩⟩
        have hkept : Ledger L { w with kept := w.kept.insert (x.1.headD [], component x.1) } :=
          h.congr rfl rfl rfl
        cases extra with
        | none =>
          refine ⟨_, hkept.claim hv, fun o fw => ?_⟩
          rw [List.mem_singleton, Prod.mk.injEq]
          refine ⟨fun ho => ⟨rule, own, none, hx, .inl ho⟩, ?_⟩
          rintro ⟨r, own', extra', hx', ho⟩
          obtain ⟨rfl, rfl, rfl⟩ := hone r own' extra' hx'
          simpa using ho
        | some e =>
          have hm : e.merge = .replace := ((offer_ok hoffer).2.2.2.choose_spec.2 e rfl).1
          refine ⟨[(.extra, e), (origin rule.transform.isSome, own)], ?_, fun o fw => ?_⟩
          · rw [← List.singleton_append, ← List.append_assoc]
            exact (hkept.appendExtra hm).claim hv
          · simp only [List.mem_cons, List.not_mem_nil, or_false, Prod.mk.injEq]
            constructor
            · rintro (⟨rfl, rfl⟩ | ho)
              · exact ⟨rule, own, some fw, hx, .inr ⟨rfl, rfl⟩⟩
              · exact ⟨rule, own, some e, hx, .inl ho⟩
            · rintro ⟨r, own', extra', hx', ho⟩
              obtain ⟨rfl, rfl, rfl⟩ := hone r own' extra' hx'
              exact ho.symm.imp_left fun ho => ⟨ho.1, (Option.some.inj ho.2).symm⟩
      · rw [Bool.not_eq_true] at ht
        rw [ht, Bool.not_false, if_pos rfl] at hv
        cases hv
        have hno : ∀ r, matchRule (x.1.headD []) (render x.1) source true none rules = some r →
            r.takes (render x.1) ≠ true := by
          intro r hr'
          cases hr.symm.trans hr'
          simp [ht]
        exact ⟨hskip h fun r own extra ⟨_, _, hr', ht', _⟩ => hno r hr' ht',
          fun _ r _ hr' ht' => absurd ht' (hno r (hr.trans hr'))⟩
  | _ =>
    refine ⟨hskip ?_ fun r own extra ⟨_, hx, _⟩ => (nomatch hitem.symm.trans hx), nofun⟩
    rw [hitem] at hv
    split at hv <;> cases hv
    · split_ifs <;> exact h.congr rfl rfl rfl
    · exact h

theorem visitAll_ledger {items : List (List Name × SourceItem)} (h : Ledger L w)
    (hv : visitAll hash rules source plugin w items = .ok w') :
    (∃ M, Ledger (L ++ M) w' ∧
      ∀ o fw, (o, fw) ∈ M ↔ ∃ x ∈ items, OfferedBy hash rules source plugin x o fw) ∧
    ∀ x ∈ items, ∀ body r, x.2 = .file body →
      matchRule (x.1.headD []) (render x.1) source true none rules = some r →
      r.takes (render x.1) = true → ∃ own extra, Offers hash rules source plugin x r own extra := by
  induction items generalizing L w with
  | nil =>
    cases hv
    exact ⟨⟨[], by rwa [List.append_nil], by simp⟩, nofun⟩
  | cons x items ih =>
    rw [visitAll] at hv
    split at hv
    · cases hv
    rename_i w₁ hx
    obtain ⟨⟨M₁, h₁, hM₁⟩, hfile⟩ := visit_ledger h hx
    obtain ⟨⟨M₂, h₂, hM₂⟩, hrest⟩ := ih h₁ hv
    refine ⟨⟨M₁ ++ M₂, by rwa [← List.append_assoc], fun o fw => ?_⟩,
      List.forall_mem_cons.mpr ⟨hfile, hrest⟩⟩
    rw [List.mem_append, hM₁, hM₂]
    simp

theorem eq_of_same_place (h : Ledger L w) {fw g : FileWrite} (hf : fw ∈ w.fws) (hg : g ∈ w.fws)
    (hfm : fw.merge = .replace) (hgm : g.merge = .replace) (hp : fw.path = g.path) : fw = g := by
  obtain ⟨i, hi⟩ := List.mem_iff_getElem?.mp hf
  obtain ⟨j, hj⟩ := List.mem_iff_getElem?.mp hg
  have hci := (h.claimed_iff g.path i).mpr ⟨fw, hi, hfm, hp⟩
  have hcj := (h.claimed_iff g.path j).mpr ⟨g, hj, hgm, rfl⟩
  cases hci.symm.trans hcj
  exact Option.some.inj (hi.symm.trans hj)

theorem Ledger.separate (h : Ledger L w) :
    ((w.fws.filter (·.merge = .replace)).map FileWrite.path).Nodup := by
  rw [List.Nodup, List.pairwise_map, List.pairwise_filter, List.pairwise_iff_getElem]
  intro i j hi hj hij hfi hfj hp
  simp only [decide_eq_true_eq] at hfi hfj
  have hci := (h.claimed_iff w.fws[j].path i).mpr ⟨w.fws[i], List.getElem?_eq_getElem hi, hfi, hp⟩
  have hcj := (h.claimed_iff w.fws[j].path j).mpr ⟨w.fws[j], List.getElem?_eq_getElem hj, hfj, rfl⟩
  exact Nat.ne_of_lt hij (Option.some.inj (hci.symm.trans hcj))

theorem inside_of_inside {a dir b : Text} (hdir : dir ≠ []) (h : Inside a (dir ++ '/' :: b)) :
    Inside dir (dir ++ '/' :: b) := by
  obtain ⟨hhead, hdd, -⟩ := h
  rw [List.head?_append_of_ne_nil dir hdir] at hhead
  rw [splitOn_append_slash, List.mem_append, not_or] at hdd
  exact (inside_append_iff hdir).mpr ⟨hhead, hdd⟩

/-- A projection comes to what it should exactly if what each file is routed to stays at the anchor
of its rule, or gives way, and so do the commands made of skills. -/
theorem project_safe_iff {tree : SourceTree} {res : ProjectResult}
    (h : project hash rules source plugin tree = .ok res) :
    Safe hash rules source plugin tree res.fileWrites ↔
      ∀ x ∈ tree.items, ∀ r own extra, Offers hash rules source plugin x r own extra →
        (Sits r plugin (render x.1) ∨ Ousted hash rules source plugin tree r own) ∧
          (extra.isSome → CommandSits r plugin (render x.1)) := by
  rw [project] at h
  split at h
  · cases h
  rename_i w hw
  cases h
  obtain ⟨⟨M, hM, hmem⟩, hfile⟩ := visitAll_ledger ledger_start hw
  rw [List.nil_append] at hM
  have hwrites : ∀ fw, fw ∈ w.fws.insertionSort (fun a b => a.path ≤ b.path) ↔ fw ∈ w.fws :=
    fun fw => List.mem_insertionSort _
  have hstands : ∀ x ∈ tree.items, ∀ o fw, OfferedBy hash rules source plugin x o fw →
    Stands w o fw :=
    fun x hx o fw ho => hM.stands o fw ((hmem o fw).mpr ⟨x, hx, ho⟩)
  have hverb : ∀ x ∈ tree.items, ∀ r own extra, Offers hash rules source plugin x r own extra →
      r.transform = none → own ∈ w.fws := by
    intro x hx r own extra hO hnone
    have hs := hstands x hx _ own ⟨r, own, extra, hO, .inl ⟨rfl, rfl⟩⟩
    by_cases hm : own.merge = .replace
    · exact (hs.verbatim hm (by simp [origin, hnone])).1
    · exact hs.merged hm
  have hthere : ∀ x ∈ tree.items, ∀ r own extra, Offers hash rules source plugin x r own extra →
      (own ∈ w.fws ↔ ¬ Ousted hash rules source plugin tree r own) := by
    intro x hx r own extra hO
    have hs := hstands x hx _ own ⟨r, own, extra, hO, .inl ⟨rfl, rfl⟩⟩
    refine ⟨?_, fun hout => ?_⟩
    · rintro hin ⟨-, hm, y, hy, r', own', extra', hO', hnone, hm', hp, hne⟩
      exact hne (eq_of_same_place hM (hverb y hy r' own' extra' hO' hnone) hin hm' hm hp)
    · by_cases hm : own.merge = .replace
      · cases ht : r.transform with
        | none => exact hverb x hx r own extra hO ht
        | some t =>
          refine (hs.converted hm (by simp [origin, ht])).elim id fun hflag => ?_
          obtain ⟨fw, hfw, hfm, hfp⟩ := hM.native own.path (hs.claimed hm) hflag
          obtain ⟨y, hy, r', own', extra', hO', ⟨ho, rfl⟩ | ⟨ho, -⟩⟩ := (hmem _ _).mp hfw
          · have hnone : r'.transform = none := by
              cases ht' : r'.transform with
              | none => rfl
              | some t' => simp [origin, ht'] at ho
            by_contra hnot
            refine hout
              ⟨by simp [ht], hm, y, hy, r', fw, extra', hO', hnone, hfm, hfp, fun he => ?_⟩
            exact hnot (he ▸ hverb y hy r' fw extra' hO' hnone)
          · cases ho
      · exact hs.merged hm
  constructor
  · intro hsafe x hx r own extra hO
    have hinside := hsafe.inside x hx r own extra hO
    obtain ⟨body, hbody, hr, ht, hoffer⟩ := hO
    obtain ⟨hne, hns⟩ := tree.named x hx
    refine ⟨or_iff_not_imp_right.mpr fun hout => ?_, fun he => ?_⟩
    · have hin := (hthere x hx r own extra ⟨body, hbody, hr, ht, hoffer⟩).mpr hout
      exact (inside_own_iff hne hns hoffer).mp (hinside.1 ((hwrites own).mpr hin))
    · obtain ⟨e, rfl⟩ := Option.isSome_iff_exists.mp he
      refine (inside_extra_iff hoffer).mp ?_
      -- what stands in the place of the command is at an anchor, so the path has no `..`
      have hm := ((offer_ok hoffer).2.2.2.choose_spec.2 e rfl).1
      have hs :=
        hstands x hx .extra e ⟨r, own, some e, ⟨body, hbody, hr, ht, hoffer⟩, .inr ⟨rfl, rfl⟩⟩
      obtain ⟨i, hi⟩ := Option.isSome_iff_exists.mp (hs.claimed hm)
      obtain ⟨fw, hfw, -, hp⟩ := (hM.claimed_iff _ _).mp hi
      have hfw := (hwrites fw).mpr (List.mem_of_getElem? hfw)
      obtain ⟨y, hy, r', own', extra', hO', hprod⟩ := hsafe.produced fw hfw
      obtain ⟨a, ha⟩ : ∃ a, Inside a e.path := by
        obtain rfl | hprod := hprod
        · exact ⟨_, hp ▸ (hsafe.inside y hy r' fw extra' hO').1 hfw⟩
        · exact ⟨_, hp ▸ (hsafe.inside y hy r' own' extra' hO').2 fw hprod hfw⟩
      obtain ⟨hdir, hpath⟩ := extra_path hoffer
      rw [hpath] at ha ⊢
      exact inside_of_inside hdir ha
  · intro hall
    refine ⟨?_, fun fw hfw => ?_, fun x hx r own extra hO => ?_, ?_, ?_⟩
    · exact (((List.perm_insertionSort _ _).filter _).map _).nodup_iff.mpr hM.separate
    · obtain ⟨o, ho⟩ := hM.offered fw ((hwrites fw).mp hfw)
      obtain ⟨x, hx, r, own, extra, hO, ho⟩ := (hmem o fw).mp ho
      exact ⟨x, hx, r, own, extra, hO, ho.imp And.right And.right⟩
    · obtain ⟨hne, hns⟩ := tree.named x hx
      obtain ⟨hsits, hcommand⟩ := hall x hx r own extra hO
      refine ⟨fun hin => ?_, fun e he _ => ?_⟩
      · have hout := (hthere x hx r own extra hO).mp ((hwrites own).mp hin)
        obtain ⟨body, -, -, -, hoffer⟩ := hO
        exact (inside_own_iff hne hns hoffer).mpr (hsits.resolve_right hout)
      · subst he
        obtain ⟨body, -, -, -, hoffer⟩ := hO
        exact (inside_extra_iff hoffer).mpr (hcommand rfl)
    · exact fun x hx r own extra hO hnone => (hwrites own).mpr (hverb x hx r own extra hO hnone)
    · intro x hx body hbody hadmits
      obtain ⟨r, hr, ht⟩ := matchRule_of_takes none hadmits
      obtain ⟨own, extra, hO⟩ := hfile x hx body r hbody hr ht
      refine ⟨r, own, extra, hO, ?_⟩
      rw [hwrites, hthere x hx r own extra hO]
      exact (Classical.em _).symm

end Project

def commandRule : Rule :=
  ⟨"commands/**/*.md".toList, ".claude/commands/**/*.md".toList, .replace, [], none, .command,
    ['/'], [], []⟩

def oneCommand : SourceTree :=
  ⟨[(["commands".toList, "x.md".toList], .file [])], by decide, by decide⟩

/-- Commands in another format are converted. -/
def tomlRule : Rule :=
  ⟨"commands/**/*.toml".toList, ".claude/commands/**/*.md".toList, .replace, [],
    some fun _ _ => some ([1], []), .command, ['/'], [], []⟩

def skillRule : Rule :=
  ⟨"skills/**".toList, ".claude/skills/**".toList, .replace, [], none, .skill, ['-'], [],
    ".claude/commands".toList⟩

/-- A command twice, as it is and to be converted, and a skill for the user only. -/
def mixedSources : SourceTree where
  items :=
    [(["commands".toList, "x.md".toList], .file [2]),
    (["commands".toList, "x.toml".toList], .file [3]),
    (["skills".toList, "pdf".toList, "SKILL.md".toList],
      .file (Frontmatter.ascii "---\ndisable-model-invocation: true\n---\n"))]
  named := by decide
  distinct := by decide

theorem mixedSources_safe : ∃ res,
    project (fun _ => []) [commandRule, tomlRule, skillRule] [] "bro".toList mixedSources =
      .ok res ∧
      res.fileWrites.map (String.ofList ∘ FileWrite.path) =
        [".claude/commands/bro-pdf.md", ".claude/commands/bro/x.md",
          ".claude/skills/bro-pdf/SKILL.md"] ∧
      Safe (fun _ => []) [commandRule, tomlRule, skillRule] [] "bro".toList mixedSources
        res.fileWrites := by
  have hpaths : (project (fun _ => []) [commandRule, tomlRule, skillRule] [] "bro".toList
      mixedSources).toOption.map (·.fileWrites.map (String.ofList ∘ FileWrite.path)) =
      some [".claude/commands/bro-pdf.md", ".claude/commands/bro/x.md",
        ".claude/skills/bro-pdf/SKILL.md"] := by decide +kernel
  cases hproject : project (fun _ => []) [commandRule, tomlRule, skillRule] [] "bro".toList
    mixedSources with
  | error e => rw [hproject] at hpaths; cases hpaths
  | ok res =>
    rw [hproject] at hpaths
    refine ⟨res, rfl, Option.some.inj hpaths,
      (project_safe_iff hproject).mpr fun x hx r own extra hO => ?_⟩
    obtain ⟨body, -, hr, -, hoffer⟩ := hO
    have hno :
        r.userOnlyCommandDir = [] → extra.isSome → CommandSits r "bro".toList (render x.1) := by
      intro hdir hsome
      obtain ⟨e, rfl⟩ := Option.isSome_iff_exists.mp hsome
      exact absurd hdir (extra_path hoffer).1
    simp only [mixedSources, List.mem_cons, List.not_mem_nil, or_false] at hx
    obtain rfl | rfl | rfl := hx <;> cases hr
    · exact ⟨.inl (by decide +kernel), hno rfl⟩
    · exact ⟨.inl (by decide +kernel), hno rfl⟩
    · exact ⟨.inl (by decide +kernel), fun _ => ⟨by decide, by decide, by decide +kernel⟩⟩

/-- The name of the plugin is taken for a step up once its marketplace is cut off. -/
theorem dots_not_safe :
    ¬ ∀ rules name tree res, validatePluginName name = true →
      projectPlugin (fun _ => []) rules name tree = .ok res →
      Safe (fun _ => []) rules [] (pluginBaseName name) tree res.fileWrites := by
  intro h
  have hsafe := h [commandRule] "..@m".toList oneCommand _ (by decide +kernel) rfl
  have hinside := (hsafe.inside _ List.mem_cons_self commandRule _ none ⟨[], rfl, rfl, rfl, rfl⟩).1
    List.mem_cons_self
  exact absurd hinside.2.1 (by decide +kernel)

end AchProofs.Cli.Route
