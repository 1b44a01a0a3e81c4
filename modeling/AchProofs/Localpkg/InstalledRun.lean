import AchProofs.Localpkg.Installed

namespace AchProofs.Localpkg.Install

open Foundation.Run Hydrate

variable {α : Type} [DecidableEq α] {word : Char → Bool} {w w' : World α} {s : Session α}
  {job : Job α}

def World.work (w : World α) (s : Session α) : Work α := ⟨w.disk, s.installed, s.dirty, w.history⟩

def reach {β : Type} (s : Session α) (name : String) (plans : List (β × List (FileWrite α))) :
    Set Item :=
  {i | ∃ pl ∈ plans, i ∈ planItems s.scope.root name pl.2}

/-- An argument can be worked on. Every entry that it replaces or removes was installed where the
command works, no write is clobbered by another, nothing breaks between the first write of a target
and its record, and `installed.json` and the directories can be written. -/
def RefOk (word : Char → Bool) (w : World α) (s : Session α) (job : Job α) : Prop :=
  match s.op with
  | .install targets policy dryRun => dryRun = false → job.saves = true ∧
      ∀ name repo st plans, splitRef job.arg = some (name, repo) → job.staged = some st →
        installPlans s job targets policy name st = some plans →
          (w.work s).Admits (reach s name plans) ∧
            ∀ pl ∈ plans, InstallOk word s job name (w.work s) (reach s name plans) pl
  | .update policy => job.saves = true ∧ (∀ p, job.stuck p = false) ∧
      ∀ name repo st plans, splitRef job.arg = some (name, repo) → job.staged = some st →
        updatePlans s job policy name st = some plans →
          (w.work s).Admits (reach s name plans) ∧
            ∀ pl ∈ plans, UpdateOk word s job name (w.work s) pl
  | .uninstall targets _ => (∀ p, job.stuck p = false) ∧ ∀ e ∈ s.installed,
      targets.matches job.arg s.kind e → w.history.home e.key = s.scope

/-- The user leaves the listed files such that they can be worked on, and a command that installs
can write `installed.json` at its end. -/
def ActOk (word : Char → Bool) (w : World α) : Act α → Prop
  | .edit disk => ∀ r ∈ rowsOf w.history.home w.stored, Orderly disk r
  | .begin _ _ _ => True
  | .ref job => ∀ s, w.session = some s → RefOk word w s job
  | .finish saved => ∀ s, w.session = some s → s.op.isUninstall = false → saved = true

/-- A command on its way has the list in memory. An uninstall leaves the stored one as good as it
was, the others leave it as it was until they have something to save. -/
structure SessionOk (w : World α) (s : Session α) : Prop where
  tracks : Tracks w.disk w.history s.installed
  clean : s.op.isUninstall = false → s.dirty = false ∨ s.op.dryRun = true → w.stored = s.installed
  stored : s.op.isUninstall = true → Tracks w.disk w.history w.stored ∧
    ∀ e ∈ s.installed, e ∈ w.stored

def WorldOk (w : World α) : Prop :=
  match w.session with
  | none => Tracks w.disk w.history w.stored
  | some s => SessionOk w s

theorem map_fst_of_mapM {β γ : Type} {f : β → Option γ} {l : List β} {r : List (β × γ)}
    (h : l.mapM (fun t => (f t).map fun b => (t, b)) = some r) : r.map Prod.fst = l := by
  induction l generalizing r with
  | nil =>
    cases h
    rfl
  | cons t l ih =>
    rw [List.mapM_cons] at h
    obtain ⟨x, hx, h⟩ := Option.bind_eq_some_iff.mp h
    obtain ⟨r', hr', h⟩ := Option.bind_eq_some_iff.mp h
    obtain ⟨b, -, rfl⟩ := Option.map_eq_some_iff.mp hx
    cases h
    rw [List.map_cons, ih hr']

theorem mem_of_splitRef {arg name repo : String} (h : splitRef arg = some (name, repo)) :
    '@' ∈ arg.toList := by
  unfold splitRef at h
  split_ifs at h with hmem
  exact hmem

omit [DecidableEq α] in
theorem installRef_spec (word : Char → Bool) (wk : Work α) {targets : Targets} {policy : Policy}
    {dryRun : Bool} (ht : wk.Tracks)
    (hok : dryRun = false → ∀ name repo st plans, splitRef job.arg = some (name, repo) →
      job.staged = some st → installPlans s job targets policy name st = some plans →
        wk.Admits (reach s name plans) ∧
          ∀ pl ∈ plans, InstallOk word s job name wk (reach s name plans) pl) :
    (installRef word s job targets policy dryRun wk).1.Tracks ∧
      (installRef word s job targets policy dryRun wk).1.CleanSince wk ∧
        (dryRun = true → (installRef word s job targets policy dryRun wk).1 = wk) := by
  have hsame : wk.Tracks ∧ wk.CleanSince wk ∧ (dryRun = true → wk = wk) :=
    ⟨ht, fun hd => ⟨hd, rfl⟩, fun _ => rfl⟩
  unfold installRef
  split
  · rename_i name repo st href hst
    split
    · exact hsame
    · rename_i plans hplans
      split_ifs with hdry hcheck
      · exact hsame
      · exact hsame
      · obtain ⟨hf, hpl⟩ := hok (Bool.eq_false_iff.mpr hdry) name repo st plans href hst hplans
        have hnodup : (plans.map Prod.fst).Nodup := by
          rw [map_fst_of_mapM hplans]
          exact targets.nodup
        obtain ⟨ht', hclean⟩ := installLoop_spec ht hf (fun pl hpl i hi => ⟨pl, hpl, hi⟩) hpl hnodup
          (mem_of_splitRef href)
        exact ⟨ht', hclean, fun h => absurd h hdry⟩
  · exact hsame

theorem updateRef_spec (word : Char → Bool) (wk : Work α) {policy : Policy} (ht : wk.Tracks)
    (hinst : wk.installed = s.installed) (hstuck : ∀ p, job.stuck p = false)
    (hok : ∀ name repo st plans, splitRef job.arg = some (name, repo) → job.staged = some st →
      updatePlans s job policy name st = some plans →
        wk.Admits (reach s name plans) ∧ ∀ pl ∈ plans, UpdateOk word s job name wk pl) :
    (updateRef word s job policy wk).1.Tracks ∧
    (updateRef word s job policy wk).1.CleanSince wk := by
  have hsame : wk.Tracks ∧ wk.CleanSince wk := ⟨ht, fun hd => ⟨hd, rfl⟩⟩
  unfold updateRef
  split
  · rename_i name repo st href hst
    split
    · exact hsame
    · rename_i plans hplans
      split_ifs with hcheck
      · exact hsame
      · obtain ⟨hf, hpl⟩ := hok name repo st plans href hst hplans
        have hfst := map_fst_of_mapM hplans
        have hat : ∀ pl ∈ plans, UpdateAt word s job name wk (reach s name plans) pl := by
          intro pl hmem
          have hentry : pl.1 ∈ plans.map Prod.fst := List.mem_map_of_mem hmem
          rw [hfst, List.mem_filter, Bool.and_eq_true] at hentry
          obtain ⟨hin, hmatch, -⟩ := hentry
          refine ⟨hpl pl hmem, hinst ▸ hin, ?_, fun i hi => ⟨pl, hmem, hi⟩⟩
          obtain ⟨hr, hk⟩ : pl.1.key.ref = job.arg ∧ pl.1.key.kind = s.kind := by
            simpa [installMatches] using hmatch
          rw [← hr, ← hk]
        have hnodup : (plans.map fun pl => pl.1.key).Nodup := by
          have hkeys : (plans.map fun pl => pl.1.key) = (plans.map Prod.fst).map Entry.key := by
            rw [List.map_map]
            rfl
          rw [hkeys, hfst, ← hinst]
          exact ht.unique.sublist (List.filter_sublist.map _)
        exact updateLoop_spec hstuck ht hf hat hnodup (mem_of_splitRef href)
  · exact hsame

theorem uninstallRef_spec (word : Char → Bool) (wk : Work α) {targets : Targets} (dryRun : Bool)
    (hstuck : ∀ p, job.stuck p = false) (ht : wk.Tracks)
    (hhome : ∀ e ∈ wk.installed, targets.matches job.arg s.kind e →
      wk.history.home e.key = s.scope) :
    wk.Shrinks (uninstallRef word s job targets dryRun wk).1 (rowsOf wk.history.home wk.installed) ∧
      (∀ e ∈ (uninstallRef word s job targets dryRun wk).1.installed, e ∈ wk.installed) ∧
        ((uninstallRef word s job targets dryRun wk).2 = true →
          (uninstallRef word s job targets dryRun wk).1.Tracks) := by
  unfold uninstallRef
  split_ifs
  · exact uninstallScopes_spec dryRun hstuck ht
      (fun target hmem e he hm => hhome e he ⟨target, hmem, hm⟩)
  · exact ⟨⟨rfl, .refl .., _, subset_rfl, ht.covers⟩, fun _ he => he, nofun⟩

theorem worldOk_installed {out : Work α × Bool} (hw : SessionOk w s)
    (hop : s.op.isUninstall = false)
    (ht : out.1.Tracks) (hclean : out.1.CleanSince (w.work s))
    (hdry : s.op.dryRun = true → out.1 = w.work s) (hsaves : s.op.dryRun = false → job.saves = true)
    (hout : refLoop word s job (w.work s) = out) : WorldOk (refStep word w s job) := by
  have hstored : out.1.dirty = false ∨ s.op.dryRun = true → w.stored = out.1.installed := by
    rintro (hd | hd)
    · obtain ⟨hd₀, heq⟩ := hclean hd
      exact (hw.clean hop (.inl hd₀)).trans heq.symm
    · rw [hdry hd]
      exact hw.clean hop (.inr hd)
  unfold refStep
  rw [show (⟨w.disk, s.installed, s.dirty, w.history⟩ : Work α) = w.work s from rfl, hout]
  dsimp only
  split_ifs with hok hsave
  · exact ⟨ht, fun _ => hstored, fun hun => absurd hun (by rw [hop]; nofun)⟩
  · exact ht
  · -- nothing was saved, so there was nothing to save
    rw [WorldOk, hstored]
    · exact ht
    · by_contra hno
      rw [not_or, Bool.not_eq_false, Bool.not_eq_true] at hno
      exact hsave (by rw [hop, hno.1, hsaves hno.2]; rfl)

theorem worldOk_refStep (hw : SessionOk w s) (hok : RefOk word w s job) :
    WorldOk (refStep word w s job) := by
  unfold RefOk at hok
  cases hop : s.op with
  | install targets policy dryRun =>
    simp only [hop] at hok
    obtain ⟨ht, hclean, hdry⟩ := installRef_spec word (w.work s) hw.tracks
      (fun hd => (hok hd).2)
    refine worldOk_installed hw (by rw [hop]; rfl) ht hclean (fun hd => hdry ?_) (fun hd => ?_)
      (by rw [refLoop, hop])
    · rwa [hop] at hd
    · rw [hop] at hd
      exact (hok hd).1
  | update policy =>
    simp only [hop] at hok
    obtain ⟨ht, hclean⟩ := updateRef_spec word (w.work s) hw.tracks rfl hok.2.1 hok.2.2
    exact worldOk_installed hw (by rw [hop]; rfl) ht hclean
      (fun hd => by simp [hop, Op.dryRun] at hd)
      (fun _ => hok.1) (by rw [refLoop, hop])
  | uninstall targets dryRun =>
    simp only [hop] at hok
    obtain ⟨hsh, hsub, hdone⟩ := uninstallRef_spec word (w.work s) dryRun hok.1 hw.tracks
      hok.2
    have hhist : (uninstallRef word s job targets dryRun (w.work s)).1.history = w.history :=
      hsh.history
    obtain ⟨hstored, hin⟩ := hw.stored (by rw [hop]; rfl)
    obtain ⟨rest, hrest, hleft⟩ := hsh.left
    -- the stored list still answers for what is left
    have hkept :
        Tracks (uninstallRef word s job targets dryRun (w.work s)).1.disk w.history w.stored :=
      hstored.shrink hsh.moved (fun _ hi => hi) hleft (hrest.trans (rowsOf_mono hin))
    have hloop : refLoop word s job ⟨w.disk, s.installed, s.dirty, w.history⟩ =
        uninstallRef word s job targets dryRun (w.work s) := by
      rw [refLoop, hop]
      rfl
    unfold refStep
    rw [hloop]
    dsimp only
    split_ifs with hgo hsave
    · refine ⟨hdone hgo, fun hun => ?_, fun _ => ⟨hhist ▸ hkept, fun e he => hin e (hsub e he)⟩⟩
      simp [hop, Op.isUninstall] at hun
    · simp [hop, Op.isUninstall] at hsave
    · rw [WorldOk, hhist]
      exact hkept

theorem worldOk_step {a : Act α} (hw : WorldOk w) (ha : ActOk word w a)
    (h : step word w a = some w') :
    WorldOk w' := by
  cases hs : w.session with
  | none =>
    have ht : Tracks w.disk w.history w.stored := by rwa [WorldOk, hs] at hw
    cases a with
    | ref job => simp [step, hs] at h
    | finish saved => simp [step, hs] at h
    | begin kind scope op =>
      simp only [step, hs, Option.some.injEq] at h
      subst h
      exact ⟨ht, fun _ _ => rfl, fun _ => ⟨ht, fun _ he => he⟩⟩
    | edit disk =>
      simp only [step, hs, Option.some.injEq] at h
      subst h
      rw [WorldOk]
      dsimp only
      refine ⟨ht.unique, ht.parsed, ha, ht.covers.named, ht.covers.wrote, fun i hi hl => ?_,
        fun i hi => ht.covers.kept i (List.mem_of_mem_filter hi), ht.covers.friendly⟩
      obtain ⟨hi, hlook⟩ := List.mem_filter.mp hi
      have hlook : look disk i = look w.disk i := of_decide_eq_true hlook
      obtain ⟨r, hr, hir, hcur⟩ := ht.covers.covered i hi (hlook ▸ hl)
      exact ⟨r, hr, hir, hcur.of_look hir hlook⟩
  | some s =>
    have hok : SessionOk w s := by rwa [WorldOk, hs] at hw
    cases a with
    | edit disk => simp [step, hs] at h
    | begin kind scope op => simp [step, hs] at h
    | ref job =>
      simp only [step, hs, Option.map_some, Option.some.injEq] at h
      subst h
      exact worldOk_refStep hok (ha s hs)
    | finish saved =>
      simp only [step, hs, Option.map_some, Option.some.injEq] at h
      subst h
      rw [WorldOk]
      dsimp only
      split_ifs with hsave
      · exact hok.tracks
      · cases hop : s.op.isUninstall with
        | true => exact (hok.stored hop).1
        | false =>
          rw [ha s hs hop, Bool.true_and, Bool.not_eq_true', Bool.not_eq_false] at hsave
          rw [hok.clean hop (.inr hsave)]
          exact hok.tracks

section UninstallAll

def plainJob (arg : String) (staged : Option (Staged α)) : Job α :=
  ⟨arg, staged, fun _ => "", fun _ => true, fun _ => none, fun _ => none, fun _ => false, true⟩

def oneTarget (t : String) : Targets := ⟨[t], List.nodup_singleton t⟩

def uninstallActs (home : Key → Scope) (e : Entry α) : List (Act α) :=
  [.begin e.key.kind (home e.key) (.uninstall (oneTarget e.key.target) false),
    .ref (plainJob e.key.ref none), .finish true]

theorem uninstallLoop_ok (word : Char → Bool) (stuck : String → Bool) (root : String)
    (disk : Disk α)
    (fs : List (FileRec α)) : (uninstallLoop word stuck root none disk fs).2 = true := by
  induction fs generalizing disk with
  | nil => rfl
  | cons f fs ih =>
    rw [uninstallLoop, if_neg (by simp)]
    exact ih _

theorem uninstallEntries_plain (word : Char → Bool) (s : Session α) (arg : String)
    (st : Option (Staged α)) (wk : Work α) (es : List (Entry α)) :
    ∃ disk, untilError (uninstallEntry word s (plainJob arg st)) wk es =
      ({ wk with disk := disk }, true) := by
  induction es generalizing wk with
  | nil => exact ⟨wk.disk, rfl⟩
  | cons e es ih =>
    have hok : (uninstallEntry word s (plainJob arg st) wk e).2 = true := by
      have hcheck : checkUninstall (plainJob arg st).contained s.scope e.files = true := by
        simp [checkUninstall, plainJob]
      simp only [uninstallEntry, uninstall, hcheck, if_true]
      exact uninstallLoop_ok ..
    obtain ⟨disk, h⟩ := ih (uninstallEntry word s (plainJob arg st) wk e).1
    exact ⟨disk, by rw [untilError, if_pos hok, h]; rfl⟩

omit [DecidableEq α] in
theorem installMatches_iff {k : Key} {e : Entry α} :
    installMatches k.ref (some k.target) k.kind e = true ↔ e.key = k := by
  obtain ⟨⟨ref, target, kind⟩, sha, files⟩ := e
  obtain ⟨ref', target', kind'⟩ := k
  simp only [installMatches, Bool.and_eq_true, decide_eq_true_eq, Option.all_some, Key.mk.injEq]
  tauto

theorem uninstallActs_run (word : Char → Bool) {e : Entry α} {es : List (Entry α)}
    (hs : w.session = none) (hst : w.stored = e :: es) (ht : Tracks w.disk w.history w.stored) :
    ∃ disk, run (step word) w (uninstallActs w.history.home e) =
      some ⟨disk, es, none, w.history⟩ := by
  have hu := ht.unique
  rw [hst, List.map_cons, List.nodup_cons] at hu
  have hleft :
      w.stored.filter (fun c => !installMatches e.key.ref (some e.key.target) e.key.kind c) =
      es := by
    rw [hst, List.filter_cons_of_neg (by simp [installMatches_iff.mpr rfl]), List.filter_eq_self]
    intro c hc
    rw [Bool.not_eq_true', Bool.eq_false_iff, ne_eq, installMatches_iff]
    intro heq
    exact hu.1 (heq ▸ List.mem_map_of_mem hc)
  have href : '@' ∈ e.key.ref.toList := ht.parsed e (hst ▸ List.mem_cons_self ..)
  let session : Session α := ⟨e.key.kind, w.history.home e.key,
    .uninstall (oneTarget e.key.target) false, w.stored, false⟩
  obtain ⟨disk, hloop⟩ := uninstallEntries_plain word session e.key.ref none
    ⟨w.disk, es, false, w.history⟩
    (w.stored.filter (installMatches e.key.ref (some e.key.target) e.key.kind))
  have hscope : uninstallScope word session (plainJob e.key.ref none) false
      ⟨w.disk, w.stored, false, w.history⟩ (some e.key.target) =
        (⟨disk, es, false, w.history⟩, true) := by
    rw [← hleft] at hloop
    rw [← hleft]
    exact hloop
  have hrefLoop :
      refLoop word session (plainJob e.key.ref none) ⟨w.disk, w.stored, false, w.history⟩ =
      (⟨disk, es, false, w.history⟩, true) := by
    have hscopes : (oneTarget e.key.target).scopes = [some e.key.target] := rfl
    rw [refLoop]
    change uninstallRef word session (plainJob e.key.ref none) (oneTarget e.key.target) false _ = _
    rw [uninstallRef, if_pos (show '@' ∈ (plainJob e.key.ref none : Job α).arg.toList from href),
      hscopes, untilError, if_pos (by rw [hscope]), hscope]
    rfl
  have hbegin : step word w (.begin e.key.kind (w.history.home e.key)
      (.uninstall (oneTarget e.key.target) false)) = some { w with session := some session } := by
    simp only [step, hs]
    rfl
  have hstep : step word { w with session := some session } (.ref (plainJob e.key.ref none)) =
      some ⟨disk, w.stored, some { session with installed := es }, w.history⟩ := by
    simp only [step, Option.map_some, refStep]
    rw [show session.installed = w.stored from rfl, show session.dirty = false from rfl, hrefLoop]
    rfl
  refine ⟨disk, ?_⟩
  rw [uninstallActs, run_cons hbegin, run_cons hstep]
  rfl

theorem uninstallActs_along (word : Char → Bool) (hs : w.session = none) (e : Entry α) :
    Along (step word) (ActOk word) w (uninstallActs w.history.home e) := by
  have hbegin : step word w (.begin e.key.kind (w.history.home e.key)
      (.uninstall (oneTarget e.key.target) false)) = some { w with session := some ⟨e.key.kind,
        w.history.home e.key, .uninstall (oneTarget e.key.target) false, w.stored, false⟩ } := by
    simp only [step, hs]
  refine along_cons hbegin trivial ⟨?_, ?_⟩
  · intro s hs'
    cases hs'
    refine ⟨fun _ => rfl, fun c hc hm => ?_⟩
    obtain ⟨t, ht, hm⟩ := hm
    cases List.mem_singleton.mp ht
    rw [installMatches_iff.mp hm]
  · intro w₁ hw₁
    exact ⟨fun _ _ _ => rfl, fun _ _ => trivial⟩

theorem uninstallAll_run (word : Char → Bool) {es : List (Entry α)} (hs : w.session = none)
    (hst : w.stored = es) (ht : Tracks w.disk w.history w.stored) :
    ∃ disk, run (step word) w (es.flatMap (uninstallActs w.history.home)) =
        some ⟨disk, [], none, w.history⟩ ∧ Tracks disk w.history ([] : List (Entry α)) := by
  induction es generalizing w with
  | nil =>
    obtain ⟨disk, stored, session, history⟩ := w
    cases hs
    cases hst
    exact ⟨disk, rfl, ht⟩
  | cons e es ih =>
    obtain ⟨disk, hrun⟩ := uninstallActs_run word hs hst ht
    have hnext : WorldOk (⟨disk, es, none, w.history⟩ : World α) := by
      refine run_preserves (fun _ _ _ => worldOk_step) ?_ (uninstallActs_along word hs e) hrun
      rwa [WorldOk, hs]
    obtain ⟨disk', hrun', ht'⟩ := ih rfl rfl hnext
    exact ⟨disk', by rw [List.flatMap_cons, run_append hrun, hrun'], ht'⟩

end UninstallAll

/-- In every run of commands and edits that meets the condition at each of its steps, whatever a
command wrote and nobody has removed or edited since is listed in `installed.json`, and uninstalling
every listed entry from where it was installed to leaves none of it. -/
theorem installed_files_stay_tracked {acts : List (Act α)} (hs : w.session = none)
    (hst : w.stored = [])
    (hw : w.history.wrote = []) (hk : w.history.kept = [])
    (ha : Along (step word) (ActOk word) w acts) (hrun : run (step word) w acts = some w')
    (hs' : w'.session = none) :
    (∀ i ∈ w'.history.kept, look w'.disk i ≠ none →
        ∃ e ∈ w'.stored, ∃ f ∈ e.files, i ∈ (f.row (w'.history.home e.key).root).items) ∧
      ∃ w'', run (step word) w' (w'.stored.flatMap (uninstallActs w'.history.home)) = some w'' ∧
        ∀ i ∈ w'.history.kept, look w''.disk i = none := by
  have hstart : WorldOk w := by
    rw [WorldOk, hs]
    refine ⟨by simp [hst], by simp [hst], ?_, ?_, ?_, by simp [hk], by simp [hk], by simp [hw]⟩ <;>
    · rintro r ⟨e, he, -⟩
      simp [hst] at he
  have hend : WorldOk w' := run_preserves (fun _ _ _ => worldOk_step) hstart ha hrun
  have ht : Tracks w'.disk w'.history w'.stored := by rwa [WorldOk, hs'] at hend
  constructor
  · intro i hi hl
    obtain ⟨r, ⟨e, he, f, hf, rfl⟩, hir, -⟩ := ht.covers.covered i hi hl
    exact ⟨e, he, f, hf, hir⟩
  · obtain ⟨disk, hrun', ht'⟩ := uninstallAll_run word hs' rfl ht
    refine ⟨_, hrun', fun i hi => ?_⟩
    by_contra hl
    obtain ⟨r, ⟨e, he, -⟩, -⟩ := ht'.covers.covered i hi hl
    cases he

section Agents

def agentFile (file : String) : FileWrite ℕ :=
  ⟨".claude/agents/" ++ file, .replace, .text ['x'], [], none⟩

def version (sha file : String) : Staged ℕ := ⟨sha, fun _ => some [agentFile file]⟩

def project : Scope := ⟨"/work", false⟩

def freshWorld : World ℕ := ⟨fun _ => none, [], none, ⟨[], [], fun _ => project⟩⟩

def installActs (sha file : String) : List (Act ℕ) :=
  [.begin .plugin project (.install (oneTarget "claude-code") .namespaced false),
    .ref (plainJob "tools@repo" (some (version sha file))), .finish true]

def updateActs (sha file : String) : List (Act ℕ) :=
  [.begin .plugin project (.update .namespaced),
    .ref (plainJob "tools@repo" (some (version sha file))), .finish true]

theorem ready_agentFile (word : Char → Bool) (disk : Disk ℕ) (root name file : String) :
    Ready word disk (landing root name (agentFile file)) :=
  ⟨.file rfl, trivial, trivial, nofun⟩

theorem file_of_reach {β : Type} {s : Session ℕ} {name file : String} {x : β} {i : Item}
    (h : i ∈ reach s name [(x, [agentFile file])]) : ∃ t, i = .file t := by
  obtain ⟨pl, hpl, w, hw, hi⟩ := h
  cases List.mem_singleton.mp hpl
  cases List.mem_singleton.mp hw
  exact ⟨_, List.mem_singleton.mp hi⟩

theorem friendly_files (t t' : String) : Friendly (.file t) (.file t') := by
  by_cases h : t = t'
  · exact .inl (congrArg Item.file h)
  · exact .inr h

theorem admits_agentFile {β : Type} {s : Session ℕ} {wk : Work ℕ} {name file : String} {x : β}
    (h : ∀ i ∈ wk.history.wrote, ∃ t, i = .file t) :
    wk.Admits (reach s name [(x, [agentFile file])]) := by
  intro i hi j hj
  obtain ⟨t, rfl⟩ := hi.elim (h i) file_of_reach
  obtain ⟨t', rfl⟩ := file_of_reach hj
  exact friendly_files t t'

/-- A plugin is installed and then updated to a version with another file. -/
theorem updated_plugin_stays_tracked :
    ∃ w' : World ℕ, run (step Char.isAlphanum) freshWorld
        (installActs "v1" "a.md" ++ updateActs "v2" "b.md") = some w' ∧ w'.history.kept ≠ [] ∧
      (∀ i ∈ w'.history.kept, look w'.disk i ≠ none →
        ∃ e ∈ w'.stored, ∃ f ∈ e.files, i ∈ (f.row (w'.history.home e.key).root).items) ∧
      ∃ w'', run (step Char.isAlphanum) w' (w'.stored.flatMap (uninstallActs w'.history.home)) =
          some w'' ∧ ∀ i ∈ w'.history.kept, look w''.disk i = none := by
  have ha : Along (step Char.isAlphanum) (ActOk Char.isAlphanum) freshWorld
      (installActs "v1" "a.md" ++ updateActs "v2" "b.md") := by
    refine along_cons rfl trivial (along_cons rfl ?_ (along_cons rfl ?_ (along_cons rfl trivial
      (along_cons rfl ?_ (along_cons rfl ?_ trivial)))))
    · intro s hs
      cases hs
      intro _
      refine ⟨rfl, fun name repo st plans hname hst hplans => ?_⟩
      cases hst
      cases hplans
      refine ⟨admits_agentFile nofun, fun pl hpl => ?_⟩
      cases List.mem_singleton.mp hpl
      refine ⟨fun w hw => ?_, .inl rfl, fun _ => nofun⟩
      cases List.mem_singleton.mp hw
      exact ready_agentFile ..
    · exact fun _ _ _ => rfl
    · intro s hs
      cases hs
      refine ⟨rfl, fun _ => rfl, fun name repo st plans hname hst hplans => ?_⟩
      cases hst
      cases hplans
      refine ⟨admits_agentFile (fun i hi => ⟨_, List.mem_singleton.mp hi⟩), fun pl hpl => ?_⟩
      cases List.mem_singleton.mp hpl
      refine ⟨rfl, fun w hw => ?_, .inl rfl⟩
      cases List.mem_singleton.mp hw
      exact ready_agentFile ..
    · exact fun _ _ _ => rfl
  exact ⟨_, rfl, by decide +kernel, installed_files_stay_tracked rfl rfl rfl rfl ha rfl rfl⟩

/-- A plugin is installed again at a version with another file. The entry lists the new file only,
and the old one outlives the uninstall. -/
theorem reinstall_loses_old_file :
    ∃ w' w'' i, run (step Char.isAlphanum) freshWorld
        (installActs "v1" "a.md" ++ installActs "v2" "b.md") = some w' ∧ w'.session = none ∧
      i ∈ w'.history.kept ∧ look w'.disk i ≠ none ∧
      (∀ e ∈ w'.stored, ∀ f ∈ e.files, i ∉ (f.row (w'.history.home e.key).root).items) ∧
      run (step Char.isAlphanum) w' (w'.stored.flatMap (uninstallActs w'.history.home)) = some w'' ∧
        look w''.disk i ≠ none := by
  refine ⟨_, _, .file "/work/.claude/agents/a.md", rfl, rfl, ?_, ?_, ?_, rfl, ?_⟩
  all_goals decide +kernel

end Agents

end AchProofs.Localpkg.Install
