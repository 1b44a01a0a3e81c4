import AchProofs.Hydrate.Collisions
import AchProofs.Hydrate.StateItems

namespace AchProofs.Hydrate

variable {α τ : Type}

structure Ref where
  id : String
  name : String
deriving DecidableEq, Repr

structure ContextRefs where
  prompts : List Ref
  plugins : List Ref
  artifacts : List Ref
  skills : List Ref

structure RuntimeRefs where
  models : List Ref
  mcpServers : List Ref
  a2aAgents : List Ref

structure Manifest where
  environment : String
  context : Option ContextRefs
  runtime : Option RuntimeRefs

/-- The one plugin or skill of a run with `--only`. -/
structure OnlyItem where
  skill : Bool
  name : String
deriving DecidableEq, Repr

structure Opts where
  environment : String
  dryRun : Bool
  force : Bool
  sync : Bool
  onlyRuntime : Bool
  noRuntime : Bool
  only : Option OnlyItem
  isGlobal : Bool
  conflict : Policy

def Opts.includeRuntime (o : Opts) : Bool := !o.noRuntime && o.only.isNone

/-- The directory of the environment below `.ach`: without even that, without a directory of its
own, or with its lock and the names in its `tmp`. -/
inductive AchDir where
  | noParent
  | parent (others : Bool)
  | dir (others lock : Bool) (tmp : Option (List String))
deriving DecidableEq, Repr

def AchDir.absent : AchDir → Bool
  | .dir _ _ _ => false
  | _ => true

def AchDir.lockStep : AchDir → AchDir
  | .noParent => .dir false true none
  | .parent others => .dir others true none
  | .dir others _ tmp => .dir others true tmp

def AchDir.sweepTmp : AchDir → AchDir
  | .dir others lock tmp => .dir others lock (tmp.map fun _ => [])
  | d => d

def AchDir.stage (names : List String) : AchDir → AchDir
  | .dir others lock tmp =>
    .dir others lock (if names = [] then tmp else some (tmp.getD [] ++ names))
  | d => d

/-- The undoing of a dry run that made the directory: each name goes only if it is empty. -/
def AchDir.cleanup : AchDir → AchDir
  | .dir others _ _ => if others then .parent true else .noParent
  | d => d

/-- How the state file reads. -/
inductive Stored (α : Type) where
  | absent
  | file (f : StateFile α)
  | schemaMismatch
  | unreadable

/-- The tool root, the files the environment's directory holds, its state file for the platform, and
the directory itself. -/
structure Workspace (α : Type) where
  disk : Disk α
  content : Disk α
  stored : Stored α
  ach : AchDir

/-- What the run is given: the server's manifest and content, the platform's adapter, and what the
tree says of links and of other environments. -/
structure Site (α τ : Type) where
  word : Char → Bool
  lockFree : Bool
  contained : String → Bool
  validState : StateFile α → Bool
  manifest : Option Manifest
  /-- The directories that the references unpack to, by name, or a failure. -/
  unpackPlugins : List Ref → Option (List (String × τ))
  unpackSkills : List Ref → Option (List (String × τ))
  /-- The prompts and artifacts go straight to their place. -/
  deliver : List Ref → Disk α → Option (Disk α)
  renderRuntime : Manifest → Option (List (FileWrite α))
  projectPlugin : String → τ → Option (List (FileWrite α))
  /-- Whether the directory holds a skill, or a failure to lay it out. -/
  nests : τ → Option Bool
  projectSkills : List (String × τ) → Option (List (FileWrite α))
  remap : String → String
  leafAt : LeafAt
  skillName : String → String
  /-- The names of skills that state files in the directories beside the staging root claim. -/
  foreign : List String
  mirror : Manifest → Disk α → Disk α × List (FileEntry α)
  ignore : List String → Disk α → Disk α

section Plan

/-- A publish with the row it is compared to, or the point at which the renderer fails. -/
inductive Planned (α : Type) where
  | publish (b : Bucket) (source : String) (prior : Option (FileEntry α)) (w : FileWrite α)
  | fail

variable (site : Site α τ) (o : Opts)

def remapped (w : FileWrite α) : FileWrite α :=
  if o.isGlobal then { w with path := site.remap w.path } else w

def rowsOf (prev : Option (StateFile α)) (b : Bucket) : List (FileEntry α) :=
  match prev with
  | none => []
  | some f => f.bucket b

def validSegment (name : String) : Bool :=
  name ∉ ["", ".", ".."] && '/' ∉ name.toList && '\\' ∉ name.toList

def hasDirectRuntime (m : Manifest) : Bool :=
  match m.runtime with
  | none => false
  | some r => r.mcpServers ≠ [] || r.a2aAgents ≠ []

def runtimeWrites (m : Manifest) : Option (List (FileWrite α)) :=
  if o.includeRuntime && hasDirectRuntime m then
    (site.renderRuntime m).map fun ws => ws.map (remapped site o)
  else some []

def planRuntime (prev : Option (StateFile α)) (ws : List (FileWrite α)) : List (Planned α) :=
  ws.map fun w => .publish .adapter "" (findEntry (rowsOf prev .adapter) w.path) w

/-- The rows that own runtime keys: those of this run, or those of the state when the run writes
none. -/
def runtimeOwned (prev : Option (StateFile α)) (ws : List (FileWrite α)) : List (FileEntry α) :=
  if o.includeRuntime then
    ws.filterMap fun w => (freshHash w).map fun h =>
      ⟨w.path, h, w.sourceHash.getD h, w.merge, w.keys, ""⟩
  else rowsOf prev .adapter

/-- Pass A: what every plugin projects to, in the order of their names. -/
def collect (plugins : List (String × τ)) : Option (List (ProjectedWrite α)) :=
  (plugins.insertionSort fun a b => a.1 ≤ b.1).foldlM (fun all p =>
    if !validSegment p.1 then none
    else (site.projectPlugin p.1 p.2).map fun ws =>
      all ++ ws.map fun w => ⟨p.1, remapped site o w, false, false⟩) []

def priorPluginRow (prev : Option (StateFile α)) (target plugin : String) : Option (FileEntry α) :=
  let rows := rowsOf prev .plugins
  findEntry (if o.only.isSome then rows.filter fun e => e.source = plugin else rows) target

/-- Pass B on one write: it must not share its target with a write of another plugin, and loses what
the runtime owns. -/
def planPlugin (prev : Option (StateFile α)) (owned : List (FileEntry α))
    (before : List (ProjectedWrite α)) (p : ProjectedWrite α) : List (Planned α) :=
  if p.skipped || p.phantom then []
  else if p.fw.merge = .replace && before.any (fun q => !q.skipped && !q.phantom &&
      q.claims p.fw.path && q.plugin ≠ p.plugin) then [.fail]
  else
    let w := if p.fw.merge = .composite then { p.fw with keys := [p.plugin] } else p.fw
    match dropRuntimeOwnedMCP w owned with
    | none => [.fail]
    | some (false, _) => []
    | some (true, w) => [.publish .plugins p.plugin (priorPluginRow o prev w.path p.plugin) w]

def planPlugins (prev : Option (StateFile α)) (owned : List (FileEntry α)) :
    List (ProjectedWrite α) → List (ProjectedWrite α) → List (Planned α)
  | _, [] => []
  | before, p :: ps => planPlugin o prev owned before p ++ planPlugins prev owned (before ++ [p]) ps

/-- The projection is given the staging root `<ach-dir>/tmp`, so the name it puts in front of a
skill is that of this directory, whatever the environment. -/
def prefixed (name : String) : String := "tmp" ++ "-" ++ name

def stageName (prev : Option (StateFile α)) (name : String) : String :=
  if (rowsOf prev .skills).any (fun e => e.source = prefixed name) || name ∈ site.foreign then
    prefixed name
  else name

def skillWrites (prev : Option (StateFile α)) (skills : List (String × τ)) :
    Option (List (FileWrite α)) :=
  ((skills.insertionSort fun a b => a.1 ≤ b.1).foldlM (fun staged s =>
      if !validSegment s.1 then none
      else (site.nests s.2).map fun ok =>
        if ok then staged ++ [(stageName site prev s.1, s.2)] else staged) []).bind fun staged =>
    if staged = [] then some []
    else (site.projectSkills staged).map fun ws => ws.map (remapped site o)

def planSkills (prev : Option (StateFile α)) (skills : List (String × τ)) : List (Planned α) :=
  match skillWrites site o prev skills with
  | none => [.fail]
  | some ws => ws.map fun w =>
    .publish .skills (site.skillName w.path) (findEntry (rowsOf prev .skills) w.path) w

/-- Everything `Render` does, before it looks at the disk. -/
def plan (prev : Option (StateFile α)) (m : Manifest) (plugins skills : List (String × τ)) :
    List (Planned α) :=
  match runtimeWrites site o m with
  | none => [.fail]
  | some rt =>
    planRuntime prev rt ++
      if o.onlyRuntime then []
      else
        match collect site o plugins with
        | none => [.fail]
        | some all =>
          let all :=
            if o.only.isSome then all ++ installedClaims site.leafAt all (rowsOf prev .plugins)
            else all
          match resolvePluginCollisions o.conflict site.leafAt all with
          | none => [.fail]
          | some all => planPlugins o prev (runtimeOwned o prev rt) [] all ++
              planSkills site o prev skills

end Plan

section Run

variable (site : Site α τ) (o : Opts)

/-- Step 3. An environment mismatch or another schema only passes with `--force`. -/
def loadState : Stored α → Option (Option (StateFile α))
  | .absent => some none
  | .file f =>
    if !site.validState f then none
    else if f.environment ≠ "" ∧ f.environment ≠ o.environment ∧ !o.force then none
    else some (some f)
  | .schemaMismatch => if o.force then some none else none
  | .unreadable => none

def reconcileFile (ws : Workspace α) (f : StateFile α) : StateFile α where
  toState := reconcileVsDisk ws.disk f.toState
  environment := f.environment
  prompts := pruneMissing ws.content f.prompts
  artifacts := pruneMissing ws.content f.artifacts
  runtimeFiles := pruneMissing ws.content f.runtimeFiles

def Ref.isNamed (name : String) (r : Ref) : Bool := r.name = name || r.id = name

/-- Step 6: the references to unpack. With `--only` there must be the item. -/
def targets (m : Manifest) : Option ContextRefs :=
  let refs := if o.onlyRuntime then ⟨[], [], [], []⟩ else m.context.getD ⟨[], [], [], []⟩
  match o.only with
  | none => some refs
  | some it =>
    let mine := (if it.skill then refs.skills else refs.plugins).filter (Ref.isNamed it.name)
    if mine = [] then none
    else if it.skill then some ⟨[], [], [], mine⟩
    else some ⟨[], mine, [], []⟩

def OnlyItem.owns (it : OnlyItem) (e : FileEntry α) (env : String) : Bool :=
  e.source = it.name || it.skill && e.source = env ++ "-" ++ it.name

def OnlyItem.swap (it : OnlyItem) (env : String) (rows fresh : List (FileEntry α)) :
    List (FileEntry α) :=
  rows.filter (fun e => !(it.owns e env || fresh.any fun f => f.source = e.source)) ++ fresh

/-- `composeNextState` from the rows of the render and of the runtime mirror. -/
def composeNextState (prev : Option (StateFile α)) (rows : State α)
    (runtimeFiles : List (FileEntry α)) : StateFile α :=
  let base : StateFile α :=
    { prev.getD ⟨.empty, "", [], [], []⟩ with environment := o.environment }
  match o.only with
  | some it =>
    if it.skill then { base with skills := it.swap o.environment base.skills rows.skills }
    else { base with plugins := it.swap o.environment base.plugins rows.plugins }
  | none =>
    if o.onlyRuntime then { base with adapter := rows.adapter, runtimeFiles := runtimeFiles }
    else { base with toState := rows, runtimeFiles := runtimeFiles }

variable [DecidableEq α]

/-- `publishFile` with its flags: a drift is refused without `--force`, and a dry run writes
nothing. -/
def publish (disk : Disk α) (prior : Option (FileEntry α)) (w : FileWrite α) (source : String) :
    Published α :=
  if !o.isGlobal && !site.contained w.path then .failed
  else
    match freshHash w, scopedHash disk w.merge w.path w.keys with
    | some fresh, some onDisk =>
      let freshSource := w.sourceHash.getD fresh
      let outcome := driftOutcome prior onDisk fresh freshSource
      let entry : FileEntry α := ⟨w.path, fresh, freshSource, w.merge, w.keys, source⟩
      if prior.isSome ∧ shouldExit2 outcome ∧ !o.force then .refused
      else if o.dryRun ∨ prior.isSome ∧ outcome = .noOp then .done disk entry
      else
        match writeFile site.word disk w with
        | some disk' => .done disk' entry
        | none => .failed
    | _, _ => .failed

def publishPlanned (acc : Disk α × State α) : Planned α → Option (Disk α × State α)
  | .fail => none
  | .publish b source prior w =>
    match publish site o acc.1 prior w source with
    | .done disk e => some (disk, acc.2.record e b)
    | .refused => none
    | .failed => none

/-- `Render`: the publishes one by one, up to the first error. -/
def Site.render (disk : Disk α) (ps : List (Planned α)) : Option (Disk α × State α) :=
  ps.foldlM (publishPlanned site o) (disk, .empty)

/-- With `--force` a removal does not look for drift. -/
def syncOneWith (disk : Disk α) (del : FileEntry α × List String) : Option (Disk α) :=
  if o.force then
    match disk del.1.target with
    | none => some disk
    | some (.text t) =>
      if del.1.merge = .deep then none else some (removeEntry site.word disk del.1 del.2 (.text t))
    | some f => some (removeEntry site.word disk del.1 del.2 f)
  else syncOne site.word disk del

def contentRows (f : StateFile α) : List (FileEntry α) := f.prompts ++ f.artifacts ++ f.runtimeFiles

/-- Step 11. Without the flag it prunes the runtime rows and the rows of plugins that still
project. -/
def syncStep (prev next : StateFile α) (disk content : Disk α) : Option (Disk α × Disk α) :=
  let kept : StateFile α :=
    { next with skills := [], prompts := [], artifacts := [], runtimeFiles := [] }
  let next := if o.sync then next else kept
  let claims := walkEntries next.toState ++ contentRows next
  let rows := if o.sync then walkEntries prev.toState
    else walkEntries ⟨keptPluginRows prev.plugins next.plugins, [], prev.adapter⟩
  let below := if o.sync then contentRows prev else []
  -- all targets are checked before the first removal
  if !o.isGlobal && (deletions (rows ++ below) claims).any (fun d => !site.contained d.1.target)
    then none
  else
    ((deletions rows claims).foldlM (syncOneWith site o) disk).bind fun disk =>
      ((deletions below claims).foldlM (syncOneWith site o) content).map fun content =>
        (disk, content)

/-- The names staged below `tmp`. -/
def stagedNames (plugins skills : List (String × τ)) : List String :=
  (if plugins = [] then [] else ["plugin"]) ++ if skills = [] then [] else ["skill"]

def leaveAch (before : AchDir) (names : List String) : AchDir :=
  let after := (before.lockStep.sweepTmp.stage names).sweepTmp
  if o.dryRun && before.absent then after.cleanup else after

def runFrom (ws : Workspace α) (prev : Option (StateFile α)) (m : Manifest)
    (plugins skills : List (String × τ)) (content : Disk α) :
    Option (Workspace α × List ItemChange × ℕ) :=
  (site.render o ws.disk (plan site o prev m plugins skills)).bind fun rendered =>
    let ach := leaveAch o ws.ach (stagedNames plugins skills)
    if o.dryRun then
      let diff := diffItems prev (some (composeNextState o prev rendered.2 []))
      some (⟨rendered.1, content, ws.stored, ach⟩, diff.1, diff.2)
    else
      let mirrored := if o.includeRuntime then site.mirror m content else (content, [])
      let next := composeNextState o prev rendered.2 mirrored.2
      let synced := match prev with
        | none => some (rendered.1, mirrored.1)
        | some f => syncStep site o f next rendered.1 mirrored.1
      synced.map fun files =>
        let disk := if o.isGlobal then files.1
          else site.ignore ((walkEntries rendered.2).map FileEntry.target) files.1
        let diff := diffItems prev (some next)
        (⟨disk, files.2, .file next, ach⟩, diff.1, diff.2)

/-- `commit.run`: the workspace after a run that succeeds, the changes and the number of unchanged
items. -/
def hydrate (ws : Workspace α) : Option (Workspace α × List ItemChange × ℕ) :=
  if !site.lockFree then none
  else
    (loadState site o ws.stored).bind fun loaded =>
    site.manifest.bind fun m =>
    (targets o m).bind fun refs =>
    (site.unpackPlugins refs.plugins).bind fun plugins =>
    (site.unpackSkills refs.skills).bind fun skills =>
    -- a dry run leaves prompts and artifacts alone
    (if o.dryRun then some ws.content
      else site.deliver (refs.prompts ++ refs.artifacts) ws.content).bind
      fun content => runFrom site o ws (loaded.map (reconcileFile ws)) m plugins skills content

end Run

end AchProofs.Hydrate
