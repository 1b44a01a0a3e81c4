import AchProofs.Hydrate.Commit

namespace AchProofs.Hydrate

variable {α τ : Type}

/-- A dry run leaves the directory of the environment as it found it, but for what it swept from a
`tmp` that was there. -/
def AchDir.Traceless : AchDir → AchDir → Prop
  | .dir others lock tmp, .dir others' lock' tmp' =>
    others' = others ∧ lock' = lock ∧ (tmp' = none ∨ tmp.isSome ∧ tmp' = some [])
  | before, after => after = before

/-- The directory is not there and `.ach` not empty, or its lock is there, and its `tmp` if anything
is staged. -/
def AchDir.Settled (names : List String) : AchDir → Prop
  | .noParent => True
  | .parent others => others = true
  | .dir _ lock tmp => lock = true ∧ (names ≠ [] → tmp.isSome)

theorem traceless_iff (o : Opts) (hdry : o.dryRun = true) (before : AchDir) (names : List String) :
    AchDir.Traceless before (leaveAch o before names) ↔ before.Settled names := by
  unfold leaveAch
  cases before with
  | noParent => simp [hdry, AchDir.absent, AchDir.lockStep, AchDir.sweepTmp, AchDir.stage,
      AchDir.cleanup, AchDir.Traceless, AchDir.Settled]
  | parent others => cases others <;> simp [hdry, AchDir.absent, AchDir.lockStep, AchDir.sweepTmp,
      AchDir.stage, AchDir.cleanup, AchDir.Traceless, AchDir.Settled]
  | dir others lock tmp =>
    by_cases hn : names = [] <;> cases lock <;> cases tmp <;>
      simp [hdry, hn, AchDir.absent, AchDir.lockStep, AchDir.sweepTmp, AchDir.stage,
        AchDir.Traceless, AchDir.Settled]

section Plan

variable (site : Site α τ) (o : Opts)

theorem planPlugins_dryRun (b : Bool) (prev : Option (StateFile α)) (owned : List (FileEntry α))
    (before ps : List (ProjectedWrite α)) :
    planPlugins { o with dryRun := b } prev owned before ps =
      planPlugins o prev owned before ps := by
  induction ps generalizing before with
  | nil => rfl
  | cons p ps ih =>
    rw [planPlugins, planPlugins, ih]
    rfl

theorem plan_dryRun (b : Bool) (prev : Option (StateFile α)) (m : Manifest)
    (plugins skills : List (String × τ)) :
    plan site { o with dryRun := b } prev m plugins skills = plan site o prev m plugins skills := by
  unfold plan
  simp only [planPlugins_dryRun]
  rfl

variable [DecidableEq α] {disk disk' : Disk α} {prior : Option (FileEntry α)} {w : FileWrite α}
  {source : String} {e : FileEntry α}

/-- The checks that a publish makes on the disk: the path stays in the workspace, the write and the
file can be read, and without `--force` nothing of ours has drifted. -/
def Passes (disk : Disk α) (prior : Option (FileEntry α)) (w : FileWrite α) : Prop :=
  (o.isGlobal = true ∨ site.contained w.path = true) ∧
    ∃ fresh onDisk, freshHash w = some fresh ∧
      scopedHash disk w.merge w.path w.keys = some onDisk ∧
        (prior.isSome → shouldExit2 (driftOutcome prior onDisk fresh (w.sourceHash.getD fresh)) →
          o.force = true)

def entryOf (w : FileWrite α) (source : String) (fresh : Digest α) : FileEntry α :=
  ⟨w.path, fresh, w.sourceHash.getD fresh, w.merge, w.keys, source⟩

theorem publish_of_passes (source : String) {fresh : Digest α} (h : Passes site o disk prior w)
    (hfresh : freshHash w = some fresh) :
    ∃ onDisk, scopedHash disk w.merge w.path w.keys = some onDisk ∧
      publish site o disk prior w source =
        if o.dryRun ∨ prior.isSome ∧
            driftOutcome prior onDisk fresh (w.sourceHash.getD fresh) = .noOp then
          .done disk (entryOf w source fresh)
        else
          match writeFile site.word disk w with
          | some disk' => .done disk' (entryOf w source fresh)
          | none => .failed := by
  obtain ⟨hpath, fresh', onDisk, hf, hscoped, hdrift⟩ := h
  cases hfresh.symm.trans hf
  refine ⟨onDisk, hscoped, ?_⟩
  have hcontained : (!o.isGlobal && !site.contained w.path) = false := by
    rcases hpath with h | h <;> simp [h]
  have hforce : ¬ (prior.isSome ∧
      shouldExit2 (driftOutcome prior onDisk fresh (w.sourceHash.getD fresh)) ∧
        (!o.force) = true) := by
    rintro ⟨hp, hs, hf⟩
    simp [hdrift hp hs] at hf
  unfold publish
  rw [hcontained, hf, hscoped]
  simp only [Bool.false_eq_true, if_false, if_neg hforce]
  rfl

theorem passes_of_publish (h : publish site o disk prior w source = .done disk' e) :
    Passes site o disk prior w ∧ ∃ fresh, freshHash w = some fresh ∧
      e = entryOf w source fresh := by
  unfold publish at h
  split_ifs at h with hpath
  split at h
  · rename_i fresh onDisk hfresh hscoped
    dsimp only at h
    split_ifs at h with hdrift hskip
    · cases h
      exact ⟨⟨by
        simpa [Bool.and_eq_true, or_iff_not_imp_left] using hpath, fresh, onDisk, hfresh, hscoped,
        fun hp hs => by simpa [hp, hs] using hdrift⟩, fresh, hfresh, rfl⟩
    · split at h <;> cases h
      exact ⟨⟨by
        simpa [Bool.and_eq_true, or_iff_not_imp_left] using hpath, fresh, onDisk, hfresh, hscoped,
        fun hp hs => by simpa [hp, hs] using hdrift⟩, fresh, hfresh, rfl⟩
  · cases h

theorem publish_frame (h : publish site o disk prior w source = .done disk' e) {t : String}
    (ht : t ≠ w.path) : disk' t = disk t := by
  obtain ⟨hpass, fresh, hfresh, -⟩ := passes_of_publish site o h
  obtain ⟨onDisk, -, heq⟩ := publish_of_passes site o source hpass hfresh
  rw [heq] at h
  split_ifs at h
  · cases h
    rfl
  · cases hw : writeFile site.word disk w with
    | none => rw [hw] at h; cases h
    | some d =>
      rw [hw] at h
      cases h
      exact writeFile_other hw ht

theorem passes_congr (h : disk' w.path = disk w.path) :
    Passes site o disk' prior w ↔ Passes site o disk prior w := by
  have hscoped :
      scopedHash disk' w.merge w.path w.keys = scopedHash disk w.merge w.path w.keys := by
    simp only [scopedHash, h]
  simp only [Passes, hscoped]

theorem publish_dry {site : Site α τ} {o : Opts} (source : String) (hdry : o.dryRun = true)
    (h : Passes site o disk prior w) :
    ∃ fresh, freshHash w = some fresh ∧
      publish site o disk prior w source = .done disk (entryOf w source fresh) := by
  obtain ⟨-, fresh, -, hfresh, -⟩ := id h
  obtain ⟨onDisk, -, heq⟩ := publish_of_passes site o source h hfresh
  refine ⟨fresh, hfresh, ?_⟩
  rw [heq, if_pos (.inl hdry)]

end Plan

def Planned.path : Planned α → Option String
  | .publish _ _ _ w => some w.path
  | .fail => none

section Render

variable [DecidableEq α] {site : Site α τ} {o : Opts} {disk : Disk α}

/-- Every write to a file that an earlier write of the run goes to passes the checks on the disk as
it is before the run. -/
def Foreseen (site : Site α τ) (o : Opts) (disk : Disk α) (ps : List (Planned α)) : Prop :=
  ∀ before b source prior w after, ps = before ++ .publish b source prior w :: after →
    some w.path ∈ before.map Planned.path → Passes site o disk prior w

theorem publishPlanned_some {acc acc' : Disk α × State α} {p : Planned α}
    (h : publishPlanned site o acc p = some acc') :
    ∃ b source prior w fresh, p = .publish b source prior w ∧ Passes site o acc.1 prior w ∧
      freshHash w = some fresh ∧ acc'.2 = acc.2.record (entryOf w source fresh) b ∧
        ∀ t, t ≠ w.path → acc'.1 t = acc.1 t := by
  cases p with
  | fail => cases h
  | publish b source prior w =>
    cases hpub : publish site o acc.1 prior w source with
    | refused => simp [publishPlanned, hpub] at h
    | failed => simp [publishPlanned, hpub] at h
    | done disk' e =>
      simp only [publishPlanned, hpub] at h
      cases h
      obtain ⟨hpass, fresh, hfresh, rfl⟩ := passes_of_publish site o hpub
      exact ⟨b, source, prior, w, fresh, rfl, hpass, hfresh, rfl,
        fun t ht => publish_frame site o hpub ht⟩

variable {rows : State α} {ps : List (Planned α)} {r : Disk α × State α}

theorem publishPlanned_dry (hdry : o.dryRun = true) {b : Bucket} {source : String}
    {prior : Option (FileEntry α)} {w : FileWrite α} {fresh : Digest α}
    (hpass : Passes site o disk prior w) (hfresh : freshHash w = some fresh) :
    publishPlanned site o (disk, rows) (.publish b source prior w) =
      some (disk, rows.record (entryOf w source fresh) b) := by
  obtain ⟨fresh', hf, hpub⟩ := publish_dry source hdry hpass
  cases hfresh.symm.trans hf
  simp only [publishPlanned, hpub]

/-- After the writes of `before`, the real run goes on as the dry run does, as long as writes to
files already written pass the checks on the old disk. -/
theorem render_dry_of_real (before : List (Planned α)) {d : Disk α}
    (hd : ∀ t, some t ∉ before.map Planned.path → d t = disk t)
    (hreal : ps.foldlM (publishPlanned site { o with dryRun := false }) (d, rows) = some r)
    (hforeseen : Foreseen site o disk (before ++ ps) ) :
    ps.foldlM (publishPlanned site { o with dryRun := true }) (disk, rows) = some (disk, r.2) := by
  induction ps generalizing before d rows with
  | nil =>
    cases hreal
    rfl
  | cons p ps ih =>
    rw [List.foldlM_cons] at hreal ⊢
    obtain ⟨acc, hstep, hrest⟩ := Option.bind_eq_some_iff.mp hreal
    obtain ⟨b, source, prior, w, fresh, rfl, hpass, hfresh, hrows, hframe⟩ :=
      publishPlanned_some hstep
    have hpass₀ : Passes site o disk prior w := by
      by_cases hmem : some w.path ∈ before.map Planned.path
      · exact hforeseen before b source prior w ps rfl hmem
      · exact (passes_congr site o (hd _ hmem)).mp hpass
    rw [publishPlanned_dry rfl (show Passes site { o with dryRun := true } disk prior w from hpass₀)
      hfresh]
    obtain ⟨d', rows'⟩ := acc
    obtain rfl : rows' = rows.record (entryOf w source fresh) b := hrows
    refine ih (before ++ [.publish b source prior w]) (fun t ht => ?_) hrest ?_
    · simp only [List.map_append, List.map_cons, List.map_nil, List.mem_append, List.mem_singleton,
        not_or] at ht
      exact (hframe t fun heq => ht.2 (congrArg some heq)).trans (hd t ht.1)
    · rwa [List.append_assoc]

theorem passes_of_render_dry
    (h : ps.foldlM (publishPlanned site { o with dryRun := true }) (disk, rows) = some r)
    {b : Bucket} {source : String} {prior : Option (FileEntry α)} {w : FileWrite α}
    (hp : .publish b source prior w ∈ ps) : Passes site o disk prior w := by
  induction ps generalizing rows with
  | nil => cases hp
  | cons p ps ih =>
    rw [List.foldlM_cons] at h
    obtain ⟨acc, hstep, hrest⟩ := Option.bind_eq_some_iff.mp h
    obtain ⟨b', source', prior', w', fresh, rfl, hpass, hfresh, -, -⟩ := publishPlanned_some hstep
    rcases List.mem_cons.mp hp with heq | hp
    · cases heq
      exact hpass
    · rw [publishPlanned_dry rfl hpass hfresh] at hstep
      cases hstep
      exact ih hrest hp

/-- When the real render gets through, so does the dry one exactly if its writes are foreseen. -/
theorem render_dry_iff (hreal : site.render { o with dryRun := false } disk ps = some r) :
    (∃ r', site.render { o with dryRun := true } disk ps = some r') ↔ Foreseen site o disk ps := by
  constructor
  · rintro ⟨r', h⟩ before b source prior w after rfl -
    exact passes_of_render_dry h (List.mem_append_right _ (List.mem_cons_self ..))
  · intro h
    exact ⟨_, render_dry_of_real [] (fun _ _ => rfl) hreal h⟩

end Render

section Run

variable (site : Site α τ) (o : Opts)

/-- What a run has at hand when it starts to render. -/
structure Prepared (α τ : Type) where
  prev : Option (StateFile α)
  manifest : Manifest
  refs : ContextRefs
  plugins : List (String × τ)
  skills : List (String × τ)

def prepare (ws : Workspace α) : Option (Prepared α τ) :=
  if !site.lockFree then none
  else
    (loadState site o ws.stored).bind fun loaded =>
    site.manifest.bind fun m =>
    (targets o m).bind fun refs =>
    (site.unpackPlugins refs.plugins).bind fun plugins =>
    (site.unpackSkills refs.skills).map fun skills =>
      ⟨loaded.map (reconcileFile ws), m, refs, plugins, skills⟩

def Prepared.plan (p : Prepared α τ) : List (Planned α) :=
  Hydrate.plan site o p.prev p.manifest p.plugins p.skills

def Prepared.names (p : Prepared α τ) : List String := stagedNames p.plugins p.skills

variable [DecidableEq α]

def Prepared.report (p : Prepared α τ) (rows : State α) : List ItemChange × ℕ :=
  diffItems p.prev (some (composeNextState o p.prev rows []))

theorem diffItems_composeNextState (prev : Option (StateFile α)) (rows : State α)
    (runtimeFiles : List (FileEntry α)) :
    diffItems prev (some (composeNextState o prev rows runtimeFiles)) =
      diffItems prev (some (composeNextState o prev rows [])) := by
  unfold composeNextState
  dsimp only
  split
  · rfl
  · split_ifs <;> rfl

theorem hydrate_eq (ws : Workspace α) :
    hydrate site o ws = (prepare site o ws).bind fun p =>
      (if o.dryRun then some ws.content
        else site.deliver (p.refs.prompts ++ p.refs.artifacts) ws.content).bind
          fun content => runFrom site o ws p.prev p.manifest p.plugins p.skills content := by
  unfold hydrate prepare
  split
  · rfl
  · simp only [Option.bind_assoc, Option.bind_map, Function.comp_def]

theorem hydrate_real {ws ws' : Workspace α} {changes : List ItemChange} {unchanged : ℕ}
    (h : hydrate site { o with dryRun := false } ws = some (ws', changes, unchanged)) :
    ∃ p r, prepare site o ws = some p ∧
      site.render { o with dryRun := false } ws.disk (p.plan site o) = some r ∧
        (changes, unchanged) = p.report o r.2 := by
  rw [hydrate_eq] at h
  obtain ⟨p, hp, h⟩ := Option.bind_eq_some_iff.mp h
  obtain ⟨content, -, h⟩ := Option.bind_eq_some_iff.mp h
  unfold runFrom at h
  rw [plan_dryRun] at h
  obtain ⟨r, hr, h⟩ := Option.bind_eq_some_iff.mp h
  refine ⟨p, r, hp, hr, ?_⟩
  simp only [Bool.false_eq_true, if_false] at h
  obtain ⟨files, -, h⟩ := Option.map_eq_some_iff.mp h
  obtain ⟨-, hreport⟩ := Prod.mk.inj h
  rw [← hreport]
  exact diffItems_composeNextState o ..

theorem hydrate_dry {ws : Workspace α} {p : Prepared α τ} (hp : prepare site o ws = some p) :
    hydrate site { o with dryRun := true } ws =
      (site.render { o with dryRun := true } ws.disk (p.plan site o)).map fun r =>
        (⟨r.1, ws.content, ws.stored, leaveAch { o with dryRun := true } ws.ach p.names⟩,
          p.report o r.2) := by
  rw [hydrate_eq, show prepare site { o with dryRun := true } ws = some p from hp, Option.bind_some,
    if_pos rfl, Option.bind_some]
  unfold runFrom
  rw [plan_dryRun]
  exact Option.map_eq_bind.symm

/-- Whenever the real run succeeds, the dry run succeeds with the same report, leaves the tool root,
the environment's files and the state as they are and its directory without a trace, exactly if the
writes to files written before are foreseen and the directory is settled. -/
theorem dry_run_predicts_iff {ws ws' : Workspace α} {changes : List ItemChange} {unchanged : ℕ}
    (hreal : hydrate site { o with dryRun := false } ws = some (ws', changes, unchanged)) :
    (∃ ach, hydrate site { o with dryRun := true } ws =
      some ({ ws with ach := ach }, changes, unchanged) ∧
        ws.ach.Traceless ach) ↔
      ∀ p, prepare site o ws = some p →
        Foreseen site o ws.disk (p.plan site o) ∧ ws.ach.Settled p.names := by
  obtain ⟨p, r, hp, hr, hreport⟩ := hydrate_real site o hreal
  rw [hydrate_dry site o hp]
  constructor
  · rintro ⟨ach, hdry, htrace⟩ p' hp'
    cases hp.symm.trans hp'
    obtain ⟨r', hr', heq⟩ := Option.map_eq_some_iff.mp hdry
    obtain ⟨hws, -⟩ := Prod.mk.inj heq
    have hach : leaveAch { o with dryRun := true } ws.ach p.names = ach :=
      congrArg Workspace.ach hws
    refine ⟨(render_dry_iff hr).mp ⟨r', hr'⟩, ?_⟩
    exact (traceless_iff { o with dryRun := true } rfl ws.ach p.names).mp (hach ▸ htrace)
  · intro h
    obtain ⟨hforeseen, hsettled⟩ := h p hp
    have hdry :
        site.render { o with dryRun := true } ws.disk (p.plan site o) = some (ws.disk, r.2) :=
      render_dry_of_real [] (fun _ _ => rfl) hr hforeseen
    refine ⟨_, ?_, (traceless_iff { o with dryRun := true } rfl ws.ach p.names).mpr hsettled⟩
    rw [hdry, Option.map_some, ← hreport]

end Run

section Servers

open Foundation Cli.Merge

/-- The server `x` and maybe `z`, with a number for the settings of each. -/
def serversDoc (x : ℕ) (z : Option ℕ) : Doc ℕ where
  tree := .node "mcpServers" (.leaf "x" x (z.elim .nil fun v => .leaf "z" v .nil)) .nil
  ordered := by
    cases z with
    | none => simp [KeyTree.Ordered, KeyTree.keys]
    | some v =>
      have hxz : ∀ k ∈ ["z"], "x" < k := by decide
      exact ⟨nofun, ⟨hxz, nofun, trivial⟩, trivial⟩

def serversKeys (z : Option ℕ) : List String :=
  "mcpServers.x" :: if z.isSome then ["mcpServers.z"] else []

def serversWrite (x : ℕ) (z : Option ℕ) : FileWrite ℕ :=
  ⟨".mcp.json", .deep, .doc (serversDoc x z), serversKeys z, none⟩

def serversRow (source : String) (x : ℕ) (z : Option ℕ) : FileEntry ℕ :=
  let hash : Digest ℕ := .subtree (serversDoc x z).tree
  ⟨".mcp.json", hash, hash, .deep, serversKeys z, source⟩

def pluginSite (plugins : List (String × List (FileWrite ℕ))) : Site ℕ (List (FileWrite ℕ)) where
  word := Char.isAlphanum
  lockFree := true
  contained _ := true
  validState _ := true
  manifest := some ⟨"dev", some ⟨[], plugins.map fun p => ⟨p.1, p.1⟩, [], []⟩, none⟩
  unpackPlugins _ := some plugins
  unpackSkills _ := some []
  deliver _ content := some content
  renderRuntime _ := some []
  projectPlugin _ ws := some ws
  nests _ := some false
  projectSkills _ := some []
  remap := id
  leafAt path _ := path
  skillName := id
  foreign := []
  mirror _ content := (content, [])
  ignore _ disk := disk

def plainOpts : Opts := ⟨"dev", false, false, false, false, false, none, false, .refuse⟩

/-- The workspace after a first hydrate of two plugins that share the server `x`. -/
def sharedWorkspace : Workspace ℕ where
  disk t := if t = ".mcp.json" then some (.doc (serversDoc 1 (some 5))) else none
  content _ := none
  stored :=
    .file ⟨⟨[serversRow "one" 1 none, serversRow "two" 1 (some 5)], [], []⟩, "dev", [], [], []⟩
  ach := .dir false true (some [])

/-- Both plugins come with a new `x`. The real run overwrites it for the first and finds the second
in place; the dry run still sees the old `x` and takes it for an edit. -/
theorem dry_run_refuses_shared_server :
    let site := pluginSite [("one", [serversWrite 2 none]), ("two", [serversWrite 2 (some 5)])]
    (hydrate site plainOpts sharedWorkspace).isSome ∧
      (hydrate site { plainOpts with dryRun := true } sharedWorkspace).isNone := by
  decide +kernel

def keyWrite (k : String) (v : ℕ) : FileWrite ℕ :=
  ⟨".mcp.json", .deep,
    .doc ⟨.node "mcpServers" (.leaf k v .nil) .nil, by simp [KeyTree.Ordered, KeyTree.keys]⟩,
    ["mcpServers." ++ k], none⟩

def freshWorkspace : Workspace ℕ := { sharedWorkspace with stored := .absent }

/-- Both plugins write a server of their own to one file. -/
theorem dry_run_predicts_two_plugins :
    let site := pluginSite [("one", [keyWrite "x" 2]), ("two", [keyWrite "z" 6])]
    ∃ ws' changes unchanged ach, hydrate site plainOpts freshWorkspace =
      some (ws', changes, unchanged) ∧
      hydrate site { plainOpts with dryRun := true } freshWorkspace =
          some ({ freshWorkspace with ach := ach }, changes, unchanged) ∧
        freshWorkspace.ach.Traceless ach := by
  intro site
  have hsome : (hydrate site plainOpts freshWorkspace).isSome := by decide +kernel
  obtain ⟨⟨ws', changes, unchanged⟩, hreal⟩ := Option.isSome_iff_exists.mp hsome
  -- each of the two writes passes on the disk as it is before the run
  have hpass : ∀ p ∈ prepare site plainOpts freshWorkspace, ∀ x ∈ p.plan site plainOpts,
      (publishPlanned site plainOpts (freshWorkspace.disk, .empty) x).isSome := by decide +kernel
  obtain ⟨ach, hdry⟩ := (dry_run_predicts_iff site plainOpts hreal).mpr (fun p hp => by
    refine ⟨fun before b source prior w after heq _ => ?_, rfl, fun _ => rfl⟩
    obtain ⟨acc, hacc⟩ := Option.isSome_iff_exists.mp (hpass p hp (.publish b source prior w)
      (by rw [heq]; simp))
    obtain ⟨_, _, _, _, _, heq, hpasses, -⟩ := publishPlanned_some hacc
    cases heq
    exact hpasses)
  exact ⟨ws', changes, unchanged, ach, hreal, hdry⟩

end Servers

end AchProofs.Hydrate
