import AchProofs.Localpkg.Tracked

namespace AchProofs.Localpkg.Install

open Foundation.Run Hydrate

variable {α : Type} {word : Char → Bool} {s : Session α} {job : Job α}
  {name sha : String} {wk wk₀ wk' : Work α} {m : Set Item}

def Work.Tracks (wk : Work α) : Prop := Install.Tracks wk.disk wk.history wk.installed

def Work.Admits (wk : Work α) (m : Set Item) : Prop :=
  ∀ i, i ∈ wk.history.wrote ∨ i ∈ m → ∀ j ∈ m, Friendly i j

/-- How one round of a command goes on: what it has written, what it leaves of the other entries,
and that it is marked if the list has changed. -/
structure Work.Steps (wk wk' : Work α) (m : Set Item) (k : Key) : Prop where
  tracks : wk'.Tracks
  wrote : ∀ i ∈ wk'.history.wrote, i ∈ wk.history.wrote ∨ i ∈ m
  others : ∀ e ∈ wk'.installed, e.key ≠ k → e ∈ wk.installed
  kept : ∀ e ∈ wk.installed, e.key ≠ k → e ∈ wk'.installed
  home : ∀ k', k' ≠ k → wk'.history.home k' = wk.history.home k'
  clean : wk'.dirty = false → wk.dirty = false ∧ wk'.installed = wk.installed

/-- The target of an install can be worked on: its writes are ready, nothing breaks between its
first write and its record, and an entry that it replaces was installed here and has nothing left
that is not written again. -/
structure InstallOk (word : Char → Bool) (s : Session α) (job : Job α) (name : String) (wk : Work α)
    (m : Set Item) (pl : String × List (FileWrite α)) : Prop where
  ready : ∀ w ∈ pl.2, Ready word wk.disk (landing s.scope.root name w)
  fault : job.commitFault pl.1 = none ∨ job.commitFault pl.1 = some ⟨0, false⟩
  renewed : pl.2 ≠ [] → ∀ e ∈ wk.installed, e.key = ⟨job.arg, pl.1, s.kind⟩ →
    wk.history.home e.key = s.scope ∧ ∀ i ∈ itemsOf (filesRows s.scope.root e.files),
      i ∈ planItems s.scope.root name pl.2 ∨ look wk.disk i = none ∧ i ∉ m

theorem note_nil (h : History) : h.note ([] : List (FileWrite α)) = h := by
  simp [History.note]

variable {ws : List (FileWrite α)} {k : Key}

theorem note_wrote {root : String} (hsub : planItems root name ws ⊆ m) {h : History} :
    ∀ i ∈ (h.note (ws.map (landing root name))).wrote, i ∈ h.wrote ∨ i ∈ m := by
  intro i hi
  simp only [History.note, List.mem_append, List.mem_flatMap, List.mem_map] at hi
  rcases hi with hi | ⟨_, ⟨w, hw, rfl⟩, hi⟩
  · exact .inl hi
  · exact .inr (hsub ⟨w, hw, hi⟩)

theorem Commits.drop {root : String} {disk disk' : Disk α} {h : History} {es : List (Entry α)}
    {recs : List (FileRec α)} (hl : Commits root name disk disk' h (rowsOf h.home es) m ws recs)
    (hf : ∀ i, i ∈ h.wrote ∨ i ∈ m → ∀ j ∈ m, Friendly i j)
    (hw : ∀ r ∈ rowsOf h.home es, ∀ i ∈ r.items, i ∈ h.wrote)
    (hold : ∀ e ∈ es, e.key = k → ∀ i ∈ itemsOf (filesRows (h.home e.key).root e.files),
      i ∈ planItems root name ws ∨ look disk i = none ∧ i ∉ m) :
    Covers disk' (h.note (ws.map (landing root name)))
      (filesRows root recs ∪ othersOf h.home es k) := by
  have hsub : filesRows root recs ∪ othersOf h.home es k ⊆ filesRows root recs ∪ rowsOf h.home es :=
    Set.union_subset_union_right _ (othersOf_subset h.home es k)
  refine ⟨fun r hr => hl.covers.orderly r (hsub hr), fun r hr => hl.covers.named r (hsub hr),
    fun r hr => hl.covers.wrote r (hsub hr), fun i hi hlook => ?_, hl.covers.kept,
    hl.covers.friendly⟩
  obtain ⟨r, hr | ⟨e, he, hr⟩, hir, hcur⟩ := hl.covers.covered i hi hlook
  · exact ⟨r, .inl hr, hir, hcur⟩
  · by_cases hk : e.key = k
    · rcases hold e he hk i ⟨r, hr, hir⟩ with hplan | ⟨hnone, hnot⟩
      · obtain ⟨r', hr', hir', hcur'⟩ := hl.own i hplan hlook
        exact ⟨r', .inl hr', hir', hcur'⟩
      · -- what was not there and is not written is still not there
        have hsame : look disk' i = look disk i := by
          refine hl.moved.frame i (fun j hj => ?_)
          refine (hf i (.inl (hw r ⟨e, he, hr⟩ i hir)) j hj).resolve_left ?_
          rintro rfl
          exact hnot hj
        exact absurd (hsame.trans hnone) hlook
    · exact ⟨r, .inr ⟨e, List.mem_filter.mpr ⟨he, by simpa using hk⟩, hr⟩, hir, hcur⟩

def Work.CleanSince (wk wk₀ : Work α) : Prop :=
  wk.dirty = false → wk₀.dirty = false ∧ wk.installed = wk₀.installed

theorem Work.CleanSince.steps (h : wk.CleanSince wk₀) (hs : wk.Steps wk' m k) :
    wk'.CleanSince wk₀ := by
  intro hd
  obtain ⟨hd₁, heq₁⟩ := hs.clean hd
  obtain ⟨hd₀, heq₀⟩ := h hd₁
  exact ⟨hd₀, heq₁.trans heq₀⟩

theorem Work.Steps.same (ht : wk.Tracks) (k : Key) : wk.Steps wk m k :=
  ⟨ht, fun _ => .inl, fun _ he _ => he, fun _ he _ => he, fun _ _ => rfl, fun hd => ⟨hd, rfl⟩⟩

theorem Work.Steps.record {sc : Scope} {disk' : Disk α} {recs : List (FileRec α)} (ht : wk.Tracks)
    (hk : '@' ∈ k.ref.toList) (hsub : planItems sc.root name ws ⊆ m)
    (hc : Covers disk' (wk.history.note (ws.map (landing sc.root name)))
      (filesRows sc.root recs ∪ othersOf wk.history.home wk.installed k)) :
    wk.Steps (Work.record { wk with disk := disk'
                                    history := wk.history.note (ws.map (landing sc.root name)) }
      sc ⟨k, sha, recs⟩) m k := by
  refine ⟨tracks_record ht.unique ht.parsed hk hc, note_wrote hsub, ?_, ?_, ?_, nofun⟩
  · intro e he hne
    exact (((mem_upsert ht.unique).mp he).resolve_left (fun heq => hne (by rw [heq]))).1
  · intro e he hne
    exact (mem_upsert ht.unique).mpr (.inr ⟨he, hne⟩)
  · intro k' hne
    exact Function.update_of_ne hne ..

section Target

variable {pl : String × List (FileWrite α)}

theorem installTarget_spec (sha : String) (ht : wk.Tracks) (hf : wk.Admits m)
    (hsub : planItems s.scope.root name pl.2 ⊆ m)
    (hok : InstallOk word s job name wk m pl) (harg : '@' ∈ job.arg.toList) :
    wk.Steps (installTarget word s job name sha wk pl).1 m ⟨job.arg, pl.1, s.kind⟩ ∧
      Moved wk.disk (installTarget word s job name sha wk pl).1.disk m := by
  obtain hfail | ⟨disk', recs, hrun, hl⟩ := commit_spec job.contained hok.fault ht.covers
    hok.ready hsub hf
  · have hres : installTarget word s job name sha wk pl = (wk, false) := by
      simp only [installTarget, hfail, note_nil]
    rw [hres]
    exact ⟨.same ht _, .refl ..⟩
  · cases recs with
    | nil =>
      have hnil : pl.2 = [] := List.eq_nil_of_length_eq_zero hl.length.symm
      rw [hnil] at hrun
      have hres : installTarget word s job name sha wk pl = ({ wk with disk := disk' }, true) := by
        simp only [installTarget, hnil, hrun, List.map_nil, note_nil]
      have hc := hl.covers
      rw [filesRows_nil, Set.empty_union, hnil, List.map_nil, note_nil] at hc
      rw [hres]
      exact ⟨⟨⟨ht.unique, ht.parsed, hc⟩, fun _ => .inl, fun _ he _ => he, fun _ he _ => he,
        fun _ _ => rfl, fun hd => ⟨hd, rfl⟩⟩, hl.moved⟩
    | cons r recs =>
      have hne : pl.2 ≠ [] := fun hnil => by simpa [hnil] using hl.length
      have hres : installTarget word s job name sha wk pl =
          (Work.record { wk with disk := disk'
                                 history := wk.history.note (pl.2.map (landing s.scope.root name)) }
            s.scope ⟨⟨job.arg, pl.1, s.kind⟩, sha, r :: recs⟩, true) := by
        simp only [installTarget, hrun]
      have hc := hl.drop (k := ⟨job.arg, pl.1, s.kind⟩) hf ht.covers.wrote (fun e he hk => by
        obtain ⟨hhome, hitems⟩ := hok.renewed hne e he hk
        rwa [hhome])
      rw [hres]
      exact ⟨.record ht harg hsub hc, hl.moved⟩

theorem InstallOk.steps {k : Key} (hok : InstallOk word s job name wk m pl)
    (hsub : planItems s.scope.root name pl.2 ⊆ m) (hf : wk.Admits m) (ht : wk.Tracks)
    (hs : wk.Steps wk' m k) (hm : Moved wk.disk wk'.disk m)
    (hk : (⟨job.arg, pl.1, s.kind⟩ : Key) ≠ k) : InstallOk word s job name wk' m pl := by
  refine ⟨fun w hw => ?_, hok.fault, fun hne e he hek => ?_⟩
  · exact (hok.ready w hw).moved hm (fun i hi j hj => hf i (.inr (hsub ⟨w, hw, hi⟩)) j hj)
  · have he' := hs.others e he (hek ▸ hk)
    obtain ⟨hhome, hitems⟩ := hok.renewed hne e he' hek
    refine ⟨(hs.home e.key (hek ▸ hk)).trans hhome, fun i hi => (hitems i hi).imp_right ?_⟩
    rintro ⟨hnone, hnot⟩
    obtain ⟨r, hr, hir⟩ := hi
    have hwrote : i ∈ wk.history.wrote := ht.covers.wrote r ⟨e, he', by rwa [hhome]⟩ i hir
    refine ⟨?_, hnot⟩
    rw [hm.frame i fun j hj => (hf i (.inl hwrote) j hj).resolve_left (fun heq => hnot (heq ▸ hj)),
      hnone]

theorem Work.Admits.steps {k : Key} (hf : wk.Admits m) (hs : wk.Steps wk' m k) :
    wk'.Admits m :=
  fun i hi => hf i (hi.elim (hs.wrote i) .inr)

theorem installLoop_spec {plans : List (String × List (FileWrite α))} (ht : wk.Tracks)
    (hf : wk.Admits m) (hsub : ∀ pl ∈ plans, planItems s.scope.root name pl.2 ⊆ m)
    (hok : ∀ pl ∈ plans, InstallOk word s job name wk m pl) (hnodup : (plans.map Prod.fst).Nodup)
    (harg : '@' ∈ job.arg.toList) :
    (untilError (installTarget word s job name sha) wk plans).1.Tracks ∧
      (untilError (installTarget word s job name sha) wk plans).1.CleanSince wk := by
  let Good (w : Work α) (ps : List (String × List (FileWrite α))) : Prop :=
    w.Tracks ∧ w.Admits m ∧ w.CleanSince wk ∧
      (∀ pl ∈ ps, planItems s.scope.root name pl.2 ⊆ m ∧ InstallOk word s job name w m pl) ∧
        (ps.map Prod.fst).Nodup
  refine untilError_rule (P := Good) (Q := fun out => out.1.Tracks ∧ out.1.CleanSince wk)
    (fun w h => ⟨h.1, h.2.2.1⟩) ?_ ⟨ht, hf, fun hd => ⟨hd, rfl⟩,
      fun pl hpl => ⟨hsub pl hpl, hok pl hpl⟩, hnodup⟩
  rintro w pl plans ⟨ht, hf, hclean, hok, hnodup⟩
  obtain ⟨hsub, hpl⟩ := hok pl (List.mem_cons_self ..)
  obtain ⟨hs, hm⟩ := installTarget_spec sha ht hf hsub hpl harg
  split_ifs
  · rw [List.map_cons, List.nodup_cons] at hnodup
    refine ⟨hs.tracks, hf.steps hs, hclean.steps hs, fun pl' hpl' => ?_, hnodup.2⟩
    obtain ⟨hsub', hok'⟩ := hok pl' (List.mem_cons_of_mem _ hpl')
    refine ⟨hsub', hok'.steps hsub' hf ht hs hm (fun heq => ?_)⟩
    have htarget : pl'.1 = pl.1 := congrArg Key.target heq
    exact hnodup.1 (htarget ▸ List.mem_map_of_mem hpl')
  · exact ⟨hs.tracks, hclean.steps hs⟩

end Target

section Update

variable [DecidableEq α] {pl : Entry α × List (FileWrite α)}

/-- The entry of an update was installed here, its new writes are ready, and nothing breaks between
the first of them and the record. -/
structure UpdateOk (word : Char → Bool) (s : Session α) (job : Job α) (name : String) (wk : Work α)
    (pl : Entry α × List (FileWrite α)) : Prop where
  home : wk.history.home pl.1.key = s.scope
  ready : ∀ w ∈ pl.2, Ready word wk.disk (landing s.scope.root name w)
  fault : job.commitFault pl.1.key.target = none ∨ job.commitFault pl.1.key.target = some ⟨0, false⟩

/-- An entry of the list with its plan. -/
structure UpdateAt (word : Char → Bool) (s : Session α) (job : Job α) (name : String) (wk : Work α)
    (m : Set Item) (pl : Entry α × List (FileWrite α)) :
    Prop extends UpdateOk word s job name wk pl where
  mem : pl.1 ∈ wk.installed
  key : pl.1.key = ⟨job.arg, pl.1.key.target, s.kind⟩
  items : planItems s.scope.root name pl.2 ⊆ m

theorem updateTarget_spec (sha : String) (hstuck : ∀ p, job.stuck p = false) (ht : wk.Tracks)
    (hf : wk.Admits m) (hok : UpdateAt word s job name wk m pl) (harg : '@' ∈ job.arg.toList) :
    wk.Steps (updateTarget word s job name sha wk pl).1 m pl.1.key ∧
      Moved wk.disk (updateTarget word s job name sha wk pl).1.disk
        {i | i ∈ wk.history.wrote ∨ i ∈ m} := by
  have hsplit := rowsOf_split wk.history.home ht.unique hok.mem
  rw [hok.home] at hsplit
  have hc := ht.covers
  rw [hsplit] at hc
  have hothers : othersOf wk.history.home wk.installed pl.1.key ⊆
      rowsOf wk.history.home wk.installed := othersOf_subset ..
  have hold : ∀ i ∈ itemsOf (filesRows s.scope.root pl.1.files), i ∈ wk.history.wrote := by
    rintro i ⟨r, hr, hi⟩
    exact hc.wrote r (.inl hr) i hi
  obtain ⟨hmoved, hdone, rest, hsub, hleft⟩ := uninstall_spec word job.contained hstuck
    (job.uninstallFault pl.1.key.target) hc
  have hreach : itemsOf (filesRows s.scope.root pl.1.files) ⊆ {i | i ∈ wk.history.wrote ∨ i ∈ m} :=
    fun i hi => .inl (hold i hi)
  generalize hun : uninstall word job.contained job.stuck s.scope
    (job.uninstallFault pl.1.key.target) wk.disk pl.1.files = removed at hmoved hdone hleft
  obtain ⟨disk₁, ok⟩ := removed
  cases ok with
  | false =>
    have hres : updateTarget word s job name sha wk pl = ({ wk with disk := disk₁ }, false) := by
      simp only [updateTarget, hun, Bool.not_false, if_true]
    rw [hres]
    refine ⟨⟨ht.shrink hmoved hold hleft (hsplit ▸ hsub), fun _ => .inl, fun _ he _ => he,
      fun _ he _ => he, fun _ _ => rfl, fun hd => ⟨hd, rfl⟩⟩, hmoved.mono hreach⟩
  | true =>
    have hready : ∀ w ∈ pl.2, Ready word disk₁ (landing s.scope.root name w) := fun w hw =>
      (hok.ready w hw).moved hmoved (fun i hi j hj =>
        (hf j (.inl (hold j hj)) i (hok.items ⟨w, hw, hi⟩)).imp Eq.symm Item.Apart.symm)
    obtain hfail | ⟨disk', recs, hrun, hl⟩ := commit_spec job.contained hok.fault (hdone rfl) hready
      hok.items hf
    · have hres : updateTarget word s job name sha wk pl = ({ wk with disk := disk₁ }, false) := by
        simp only [updateTarget, hun, Bool.not_true, Bool.false_eq_true, if_false, hfail, note_nil]
      rw [hres]
      exact ⟨⟨ht.shrink hmoved hold (hdone rfl) hothers, fun _ => .inl, fun _ he _ => he,
        fun _ he _ => he, fun _ _ => rfl, fun hd => ⟨hd, rfl⟩⟩, hmoved.mono hreach⟩
    · have hres : updateTarget word s job name sha wk pl =
          (Work.record { wk with disk := disk'
                                 history := wk.history.note (pl.2.map (landing s.scope.root name)) }
            s.scope ⟨pl.1.key, sha, recs⟩, true) := by
        rw [hok.key]
        simp only [updateTarget, hun, Bool.not_true, Bool.false_eq_true, if_false, hrun]
      have hparsed : '@' ∈ pl.1.key.ref.toList := by
        rw [hok.key]
        exact harg
      rw [hres]
      exact ⟨.record ht hparsed hok.items hl.covers,
        (hmoved.mono hreach).trans (hl.moved.mono (fun i hi => .inr hi))⟩

omit [DecidableEq α] in
theorem UpdateAt.steps {k : Key} (hok : UpdateAt word s job name wk m pl) (hf : wk.Admits m)
    (hs : wk.Steps wk' m k) (hm : Moved wk.disk wk'.disk {i | i ∈ wk.history.wrote ∨ i ∈ m})
    (hk : pl.1.key ≠ k) : UpdateAt word s job name wk' m pl := by
  refine ⟨⟨(hs.home _ hk).trans hok.home, fun w hw => ?_, hok.fault⟩, hs.kept _ hok.mem hk, hok.key,
    hok.items⟩
  refine (hok.ready w hw).moved hm (fun i hi j hj => ?_)
  exact (hf j hj i (hok.items ⟨w, hw, hi⟩)).imp Eq.symm Item.Apart.symm

theorem updateLoop_spec {plans : List (Entry α × List (FileWrite α))}
    (hstuck : ∀ p, job.stuck p = false) (ht : wk.Tracks) (hf : wk.Admits m)
    (hok : ∀ pl ∈ plans, UpdateAt word s job name wk m pl)
    (hnodup : (plans.map fun pl => pl.1.key).Nodup) (harg : '@' ∈ job.arg.toList) :
    (untilError (updateTarget word s job name sha) wk plans).1.Tracks ∧
      (untilError (updateTarget word s job name sha) wk plans).1.CleanSince wk := by
  let Good (w : Work α) (ps : List (Entry α × List (FileWrite α))) : Prop :=
    w.Tracks ∧ w.Admits m ∧ w.CleanSince wk ∧ (∀ pl ∈ ps, UpdateAt word s job name w m pl) ∧
      (ps.map fun pl => pl.1.key).Nodup
  refine untilError_rule (P := Good) (Q := fun out => out.1.Tracks ∧ out.1.CleanSince wk)
    (fun w h => ⟨h.1, h.2.2.1⟩) ?_ ⟨ht, hf, fun hd => ⟨hd, rfl⟩, hok, hnodup⟩
  rintro w pl plans ⟨ht, hf, hclean, hok, hnodup⟩
  obtain ⟨hs, hm⟩ := updateTarget_spec sha hstuck ht hf (hok pl (List.mem_cons_self ..)) harg
  split_ifs
  · rw [List.map_cons, List.nodup_cons] at hnodup
    refine ⟨hs.tracks, hf.steps hs, hclean.steps hs, fun pl' hpl' => ?_, hnodup.2⟩
    refine (hok pl' (List.mem_cons_of_mem _ hpl')).steps hf hs hm (fun heq => ?_)
    exact hnodup.1 (List.mem_map.mpr ⟨pl', hpl', heq⟩)
  · exact ⟨hs.tracks, hclean.steps hs⟩

end Update

section Uninstall

variable [DecidableEq α]

/-- An uninstall on its way: it has only removed, and some of the rows it started with answer for
what is left. -/
structure Work.Shrinks (wk wk' : Work α) (rows : Set (FileEntry α)) : Prop where
  history : wk'.history = wk.history
  moved : Moved wk.disk wk'.disk {i | i ∈ wk.history.wrote}
  left : ∃ rest ⊆ rows, Covers wk'.disk wk.history rest

theorem uninstallEntries_spec (word : Char → Bool) (wk : Work α) {es : List (Entry α)}
    {rows : Set (FileEntry α)}
    (hstuck : ∀ p, job.stuck p = false)
    (hc : Covers wk.disk wk.history (rowsOf wk.history.home es ∪ rows))
    (hhome : ∀ e ∈ es, wk.history.home e.key = s.scope) :
    wk.Shrinks (untilError (uninstallEntry word s job) wk es).1 (rowsOf wk.history.home es ∪ rows) ∧
      (untilError (uninstallEntry word s job) wk es).1.installed = wk.installed ∧
        ((untilError (uninstallEntry word s job) wk es).2 = true →
          Covers (untilError (uninstallEntry word s job) wk es).1.disk wk.history rows) := by
  induction es generalizing wk with
  | nil =>
    have hnil : rowsOf wk.history.home ([] : List (Entry α)) = ∅ := by
      ext r
      simp [rowsOf]
    refine ⟨⟨rfl, .refl .., _, subset_rfl, hc⟩, rfl, fun _ => ?_⟩
    rwa [hnil, Set.empty_union] at hc
  | cons e es ih =>
    rw [rowsOf_cons, hhome e (List.mem_cons_self ..), Set.union_assoc] at hc ⊢
    obtain ⟨hmoved, hdone, rest, hsub, hleft⟩ := uninstall_spec word job.contained hstuck
      (job.uninstallFault e.key.target) hc
    have hwide :
        Moved wk.disk (uninstallEntry word s job wk e).1.disk {i | i ∈ wk.history.wrote} := by
      refine hmoved.mono ?_
      rintro i ⟨r, hr, hi⟩
      exact hc.wrote r (.inl hr) i hi
    rw [untilError]
    split_ifs with hok
    · have hnext : Covers (uninstallEntry word s job wk e).1.disk
          (uninstallEntry word s job wk e).1.history (rowsOf wk.history.home es ∪ rows) := hdone hok
      obtain ⟨⟨hhist, hmoved', rest', hsub', hleft'⟩, hinst, hdone'⟩ :=
        ih _ hnext (fun c hc => hhome c (List.mem_cons_of_mem _ hc))
      exact ⟨⟨hhist, hwide.trans hmoved', rest', hsub'.trans Set.subset_union_right, hleft'⟩, hinst,
        hdone'⟩
    · exact ⟨⟨rfl, hwide, rest, hsub, hleft⟩, rfl, by rintro ⟨⟩⟩

theorem uninstallScope_spec (word : Char → Bool) {target : Option String} (dryRun : Bool)
    (hstuck : ∀ p, job.stuck p = false) (ht : wk.Tracks)
    (hhome : ∀ e ∈ wk.installed, installMatches job.arg target s.kind e →
      wk.history.home e.key = s.scope) :
    wk.Shrinks (uninstallScope word s job dryRun wk target).1
        (rowsOf wk.history.home wk.installed) ∧
      (∀ e ∈ (uninstallScope word s job dryRun wk target).1.installed, e ∈ wk.installed) ∧
        ((uninstallScope word s job dryRun wk target).2 = true →
          (uninstallScope word s job dryRun wk target).1.Tracks) := by
  unfold uninstallScope
  dsimp only
  split_ifs
  · exact ⟨⟨rfl, .refl .., _, subset_rfl, ht.covers⟩, fun _ he => he, fun _ => ht⟩
  · have hc := ht.covers
    rw [rowsOf_filter _ _ (installMatches job.arg target s.kind)] at hc
    let left : Work α := { wk with
      installed := wk.installed.filter fun e => !installMatches job.arg target s.kind e }
    obtain ⟨⟨hhist, hmoved, rest, hsub, hleft⟩, hinst, hdone⟩ :=
      uninstallEntries_spec word left hstuck hc (fun e he => by
        obtain ⟨he, hm⟩ := List.mem_filter.mp he
        exact hhome e he hm)
    rw [← rowsOf_filter] at hsub
    refine ⟨⟨hhist, hmoved, rest, hsub, hleft⟩, fun e he => ?_, fun hok => ?_⟩
    · rw [hinst] at he
      exact List.mem_of_mem_filter he
    · refine ⟨?_, fun e he => ?_, ?_⟩
      · rw [hinst]
        exact ht.unique.sublist (List.filter_sublist.map _)
      · rw [hinst] at he
        exact ht.parsed e (List.mem_of_mem_filter he)
      · rw [hhist, hinst]
        exact hdone hok

/-- Which entries an argument of an uninstall names. -/
def Targets.matches (t : Targets) (arg : String) (kind : Kind) (e : Entry α) : Prop :=
  ∃ target ∈ t.scopes, installMatches arg target kind e

theorem uninstallScopes_spec {targets : List (Option String)} (dryRun : Bool)
    (hstuck : ∀ p, job.stuck p = false) (ht : wk.Tracks)
    (hhome : ∀ target ∈ targets, ∀ e ∈ wk.installed, installMatches job.arg target s.kind e →
      wk.history.home e.key = s.scope) :
    wk.Shrinks (untilError (uninstallScope word s job dryRun) wk targets).1
        (rowsOf wk.history.home wk.installed) ∧
      (∀ e ∈ (untilError (uninstallScope word s job dryRun) wk targets).1.installed,
        e ∈ wk.installed) ∧
        ((untilError (uninstallScope word s job dryRun) wk targets).2 = true →
          (untilError (uninstallScope word s job dryRun) wk targets).1.Tracks) := by
  induction targets generalizing wk with
  | nil => exact ⟨⟨rfl, .refl .., _, subset_rfl, ht.covers⟩, fun _ he => he, fun _ => ht⟩
  | cons target targets ih =>
    obtain ⟨⟨hhist, hmoved, hleft⟩, hinst, hdone⟩ := uninstallScope_spec word dryRun hstuck ht
      (hhome target (List.mem_cons_self ..))
    rw [untilError]
    split_ifs with hok
    · obtain ⟨⟨hhist', hmoved', rest, hsub, hleft'⟩, hinst', hdone'⟩ := ih (hdone hok)
        (fun t ht e he hm => by
          rw [hhist]
          exact hhome t (List.mem_cons_of_mem _ ht) e (hinst e he) hm)
      rw [hhist] at hhist' hmoved' hleft' hsub
      exact ⟨⟨hhist', hmoved.trans hmoved', rest, hsub.trans (rowsOf_mono hinst), hleft'⟩,
        fun e he => hinst e (hinst' e he), hdone'⟩
    · exact ⟨⟨hhist, hmoved, hleft⟩, hinst, by rintro ⟨⟩⟩

end Uninstall

end AchProofs.Localpkg.Install
