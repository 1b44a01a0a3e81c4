import AchProofs.Foundation.Run
import AchProofs.Hydrate.Item
import AchProofs.Hydrate.Collisions
import AchProofs.Localpkg.Destination

namespace AchProofs.Localpkg.Install

open Foundation Foundation.Run Cli.Merge Cli.Composite
  Hydrate

variable {α : Type}

inductive Kind where
  | plugin
  | skill
deriving DecidableEq

/-- A destination that a commit wrote, with the hash of the whole file afterwards. As in a hydrate,
no directory on the way to it is a link. -/
structure FileRec (α : Type) where
  relPath : String
  hash : File α
  merge : MergeKind
  keys : List String

/-- What an entry of `installed.json` is replaced by. -/
structure Key where
  ref : String
  target : String
  kind : Kind
deriving DecidableEq

structure Entry (α : Type) where
  key : Key
  resolvedSHA : String
  files : List (FileRec α)

/-- The tool root of a command: a project, or the home directory. -/
structure Scope where
  root : String
  isGlobal : Bool
deriving DecidableEq

section Commit

/-- Which write of a commit fails, and whether its file is in place by then. -/
structure Fault where
  index : ℕ
  landed : Bool
deriving DecidableEq

def Fault.later (f : Fault) : Fault := { f with index := f.index - 1 }

def recKeys (compositeID : String) (w : FileWrite α) : List String :=
  match w.merge with
  | .replace => []
  | .deep => w.keys
  | .composite =>
    let id := w.keys.headD ""
    [if id ≠ "" then id else if compositeID ≠ "" then compositeID else w.path]

def landing (root compositeID : String) (w : FileWrite α) : FileWrite α :=
  ⟨resolveDest root w.path, w.merge, w.content, recKeys compositeID w, none⟩

def recOf (disk : Disk α) (root compositeID : String) (w : FileWrite α) : FileRec α :=
  ⟨w.path, (disk (resolveDest root w.path)).getD w.content, w.merge, recKeys compositeID w⟩

/-- What a commit leaves: the disk, the writes that reached it, and the records if all did. -/
structure Committed (α : Type) where
  disk : Disk α
  landed : List (FileWrite α)
  recs : Option (List (FileRec α))

def commitLoop (word : Char → Bool) (root compositeID : String) :
    Option Fault → Disk α → List (FileWrite α) → Committed α
  | _, disk, [] => ⟨disk, [], some []⟩
  | fault, disk, w :: ws =>
    let failed : Committed α := ⟨disk, [], none⟩
    if fault = some ⟨0, false⟩ then failed
    else
      match writeFile word disk (landing root compositeID w) with
      | none => failed
      | some disk' =>
        if fault = some ⟨0, true⟩ then ⟨disk', [landing root compositeID w], none⟩
        else
          let rest := commitLoop word root compositeID (fault.map Fault.later) disk' ws
          ⟨rest.disk, landing root compositeID w :: rest.landed,
            rest.recs.map (recOf disk' root compositeID w :: ·)⟩

def checkCommit (contained : String → Bool) (sc : Scope) (ws : List (FileWrite α)) : Bool :=
  sc.isGlobal || ws.all fun w => contained (resolveDest sc.root w.path)

def commit (word : Char → Bool) (contained : String → Bool) (sc : Scope) (compositeID : String)
    (fault : Option Fault) (disk : Disk α) (ws : List (FileWrite α)) : Committed α :=
  if checkCommit contained sc ws then commitLoop word sc.root compositeID fault disk ws
  else ⟨disk, [], none⟩

end Commit

section Uninstall

inductive UninstallOp (α : Type) where
  | remove
  | modify (f : File α)
  | skip

variable [DecidableEq α]

def classifyReplace (f : FileRec α) (body : File α) : UninstallOp α :=
  if body = f.hash then .remove else .skip

def classifyUninstall (word : Char → Bool) (f : FileRec α) (body : File α) : UninstallOp α :=
  match f.merge, body with
  | .composite, .text t =>
    if f.keys.headD "" = "" then classifyReplace f body
    else
      let stripped := removeComposite word (f.keys.headD "") t
      if stripped.all Gitfetch.isSpace then .remove else .modify (.text stripped)
  | .composite, .doc d => if f.keys.headD "" = "" then classifyReplace f body else .modify (.doc d)
  | .deep, .doc d =>
    match pruneDoc d f.keys with
    | none => .remove
    | some d => .modify (.doc d)
  -- the user broke the document
  | .deep, .text _ => .skip
  | .replace, body => classifyReplace f body

/-- One file of an uninstall. A file that cannot be removed stays. -/
def uninstallOne (word : Char → Bool) (stuck : String → Bool) (root : String) (disk : Disk α)
    (f : FileRec α) : Disk α :=
  let abs := resolveDest root f.relPath
  match disk abs with
  | none => disk
  | some body =>
    match classifyUninstall word f body with
    | .remove => if stuck abs then disk else Function.update disk abs none
    | .modify body => Function.update disk abs (some body)
    | .skip => disk

/-- The files one by one, up to the one that cannot be read or rewritten. -/
def uninstallLoop (word : Char → Bool) (stuck : String → Bool) (root : String) :
    Option ℕ → Disk α → List (FileRec α) → Disk α × Bool
  | _, disk, [] => (disk, true)
  | fault, disk, f :: fs =>
    if fault = some 0 then (disk, false)
    else uninstallLoop word stuck root (fault.map (· - 1)) (uninstallOne word stuck root disk f) fs

def checkUninstall (contained : String → Bool) (sc : Scope) (fs : List (FileRec α)) : Bool :=
  sc.isGlobal || fs.all fun f => contained (resolveDest sc.root f.relPath)

def uninstall (word : Char → Bool) (contained stuck : String → Bool) (sc : Scope)
    (fault : Option ℕ) (disk : Disk α) (fs : List (FileRec α)) : Disk α × Bool :=
  if checkUninstall contained sc fs then uninstallLoop word stuck sc.root fault disk fs
  else (disk, false)

end Uninstall

section Installed

def ownersAt (installed : List (Entry α)) (ref target : String) : List String :=
  (installed.filter fun e => e.key.ref ≠ ref && e.key.target = target).flatMap fun e =>
    e.files.map FileRec.relPath

def resolveConflicts (ws : List (FileWrite α)) (owners : List String) (policy : Policy)
    (plugin root : String) : Option (List (FileWrite α)) :=
  ws.foldlM (fun out w =>
    if w.path ∉ owners ∨ w.merge ≠ .replace then some (out ++ [w])
    else
      match policy with
      | .overwrite => some (out ++ [w])
      | .skip => some out
      | .refuse => none
      | .namespaced => some (out ++ [{ w with path := leafAtRoot root w.path plugin }])) []

def upsertInstalled : List (Entry α) → Entry α → List (Entry α)
  | [], entry => [entry]
  | e :: es, entry => if e.key = entry.key then entry :: es else e :: upsertInstalled es entry

def installMatches (ref : String) (target : Option String) (kind : Kind) (e : Entry α) : Bool :=
  e.key.ref = ref && e.key.kind = kind && target.all (e.key.target = ·)

/-- The name and the repository of an argument, at its last `@`. -/
def splitRef (arg : String) : Option (String × String) :=
  if '@' ∈ arg.toList then
    some (String.ofList ((arg.toList.rdropWhile (· ≠ '@')).dropLast),
      String.ofList (arg.toList.rtakeWhile (· ≠ '@')))
  else none

end Installed

/-- The ids of `--target`, each once. -/
structure Targets where
  ids : List String
  nodup : ids.Nodup

inductive Op where
  | install (targets : Targets) (policy : Policy) (dryRun : Bool)
  | update (policy : Policy)
  /-- Without targets, of every one. -/
  | uninstall (targets : Targets) (dryRun : Bool)

def Op.isUninstall : Op → Bool
  | .uninstall _ _ => true
  | _ => false

def Op.dryRun : Op → Bool
  | .install _ _ dry => dry
  | .update _ => false
  | .uninstall _ dry => dry

/-- A command on its way: what it has read of `installed.json` and changed in memory. -/
structure Session (α : Type) where
  kind : Kind
  scope : Scope
  op : Op
  installed : List (Entry α)
  dirty : Bool

/-- A package as it was resolved and staged: its commit, and its projection for an adapter. -/
structure Staged (α : Type) where
  resolvedSHA : String
  project : String → Option (List (FileWrite α))

/-- One argument of a command, with what the machine makes of it: whether it resolves, which paths
stay within the root, and, by target, what fails. -/
structure Job (α : Type) where
  arg : String
  staged : Option (Staged α)
  env : String → String
  contained : String → Bool
  commitFault : String → Option Fault
  uninstallFault : String → Option ℕ
  stuck : String → Bool
  /-- Whether `installed.json` can be written if the command fails here. -/
  saves : Bool

/-- What an observer notes: every item a command wrote, those that no user has touched since, and
where each entry was last installed to. -/
structure History where
  wrote : List Item
  kept : List Item
  home : Key → Scope

def History.note (h : History) (landed : List (FileWrite α)) : History :=
  { h with wrote := h.wrote ++ landed.flatMap FileWrite.items
           kept := h.kept ++ landed.flatMap FileWrite.items }

/-- What a command changes. -/
structure Work (α : Type) where
  disk : Disk α
  installed : List (Entry α)
  dirty : Bool
  history : History

def Work.record (wk : Work α) (sc : Scope) (e : Entry α) : Work α :=
  { wk with installed := upsertInstalled wk.installed e
            dirty := true
            history := { wk.history with home := Function.update wk.history.home e.key sc } }

section Ref

variable [DecidableEq α] (word : Char → Bool) (s : Session α) (job : Job α)

/-- The writes for one target, after `--global` and the conflict policy. -/
def planFor (policy : Policy) (name target : String) (st : Staged α) :
    Option (List (FileWrite α)) :=
  (st.project target).bind fun ws =>
    let root := s.scope.root
    let ws := if s.scope.isGlobal then
        ws.map fun w => { w with path := remapGlobalPath job.env target root w.path }
      else ws
    resolveConflicts ws (ownersAt s.installed job.arg target) policy name
      (if s.scope.isGlobal then globalRoot job.env target root else root)

def installPlans (targets : Targets) (policy : Policy) (name : String) (st : Staged α) :
    Option (List (String × List (FileWrite α))) :=
  targets.ids.mapM fun t => (planFor s job policy name t st).map fun ws => (t, ws)

/-- One target of an install. Nothing is recorded for an empty projection. -/
def installTarget (name sha : String) (wk : Work α) (pl : String × List (FileWrite α)) :
    Work α × Bool :=
  let out := commit word job.contained s.scope name (job.commitFault pl.1) wk.disk pl.2
  let wk := { wk with disk := out.disk, history := wk.history.note out.landed }
  match out.recs with
  | none => (wk, false)
  | some [] => (wk, true)
  | some recs => (wk.record s.scope ⟨⟨job.arg, pl.1, s.kind⟩, sha, recs⟩, true)

/-- The installed entries of a ref that are behind, with their new writes. -/
def updatePlans (policy : Policy) (name : String) (st : Staged α) :
    Option (List (Entry α × List (FileWrite α))) :=
  (s.installed.filter fun e => installMatches job.arg none s.kind e &&
      e.resolvedSHA ≠ st.resolvedSHA).mapM fun e =>
    (planFor s job policy name e.key.target st).map fun ws => (e, ws)

def checkUpdatePlans (plans : List (Entry α × List (FileWrite α))) : Bool :=
  plans.all fun pl =>
    checkUninstall job.contained s.scope pl.1.files && checkCommit job.contained s.scope pl.2

/-- One entry of an update: the old files go, then the new ones come. The entry stays even when it
has no files any more. -/
def updateTarget (name sha : String) (wk : Work α) (pl : Entry α × List (FileWrite α)) :
    Work α × Bool :=
  let target := pl.1.key.target
  let removed := uninstall word job.contained job.stuck s.scope (job.uninstallFault target) wk.disk
    pl.1.files
  if !removed.2 then ({ wk with disk := removed.1 }, false)
  else
    let out := commit word job.contained s.scope name (job.commitFault target) removed.1 pl.2
    let wk := { wk with disk := out.disk, history := wk.history.note out.landed }
    match out.recs with
    | none => (wk, false)
    | some recs => (wk.record s.scope ⟨⟨job.arg, target, s.kind⟩, sha, recs⟩, true)

def uninstallEntry (wk : Work α) (e : Entry α) : Work α × Bool :=
  let removed := uninstall word job.contained job.stuck s.scope (job.uninstallFault e.key.target)
    wk.disk e.files
  ({ wk with disk := removed.1 }, removed.2)

/-- One scope of an uninstall: its entries leave the list before their files go. -/
def uninstallScope (dryRun : Bool) (wk : Work α) (target : Option String) : Work α × Bool :=
  let entries := wk.installed.filter (installMatches job.arg target s.kind)
  if dryRun then (wk, entries.all fun e => checkUninstall job.contained s.scope e.files)
  else
    let wk := { wk with
      installed := wk.installed.filter fun e => !installMatches job.arg target s.kind e }
    untilError (uninstallEntry word s job) wk entries

def Targets.scopes (t : Targets) : List (Option String) :=
  if t.ids = [] then [none] else t.ids.map some

def uninstallRef (targets : Targets) (dryRun : Bool) (wk : Work α) : Work α × Bool :=
  if '@' ∈ job.arg.toList then untilError (uninstallScope word s job dryRun) wk targets.scopes
  else (wk, false)

def installRef (targets : Targets) (policy : Policy) (dryRun : Bool) (wk : Work α) :
    Work α × Bool :=
  match splitRef job.arg, job.staged with
  | some (name, _), some st =>
    match installPlans s job targets policy name st with
    | none => (wk, false)
    | some plans =>
      if dryRun then (wk, true)
      -- all targets are checked before the first write
      else if !plans.all (fun pl => checkCommit job.contained s.scope pl.2) then (wk, false)
      else untilError (installTarget word s job name st.resolvedSHA) wk plans
  | _, _ => (wk, false)

def updateRef (policy : Policy) (wk : Work α) : Work α × Bool :=
  match splitRef job.arg, job.staged with
  | some (name, _), some st =>
    match updatePlans s job policy name st with
    | none => (wk, false)
    | some plans =>
      if !checkUpdatePlans s job plans then (wk, false)
      else untilError (updateTarget word s job name st.resolvedSHA) wk plans
  | _, _ => (wk, false)

def refLoop (wk : Work α) : Work α × Bool :=
  match s.op with
  | .uninstall targets dryRun => uninstallRef word s job targets dryRun wk
  | .install targets policy dryRun => installRef word s job targets policy dryRun wk
  | .update policy => updateRef word s job policy wk

end Ref

/-- The trees of all roots by absolute path, `installed.json`, the command under way and what was
noted of the earlier ones. -/
structure World (α : Type) where
  disk : Disk α
  stored : List (Entry α)
  session : Option (Session α)
  history : History

inductive Act (α : Type) where
  | edit (disk : Disk α)
  | begin (kind : Kind) (scope : Scope) (op : Op)
  | ref (job : Job α)
  | finish (saved : Bool)

variable [DecidableEq α]

def refStep (word : Char → Bool) (w : World α) (s : Session α) (job : Job α) : World α :=
  let out := refLoop word s job ⟨w.disk, s.installed, s.dirty, w.history⟩
  if out.2 then
    ⟨out.1.disk, w.stored, some { s with installed := out.1.installed, dirty := out.1.dirty },
      out.1.history⟩
  else
    -- an install or update that wrote something saves what it has, an uninstall does not
    ⟨out.1.disk, if !s.op.isUninstall && out.1.dirty && job.saves then out.1.installed
      else w.stored, none, out.1.history⟩

/-- The user edits files between the commands. A command reads `installed.json`, goes through its
arguments, and writes it back. -/
def step (word : Char → Bool) (w : World α) : Act α → Option (World α)
  | .edit disk =>
    match w.session with
    | some _ => none
    | none => some { w with
        disk := disk
        history := { w.history with
          kept := w.history.kept.filter fun i => look disk i = look w.disk i } }
  | .begin kind scope op =>
    match w.session with
    | some _ => none
    | none => some { w with session := some ⟨kind, scope, op, w.stored, false⟩ }
  | .ref job => w.session.map fun s => refStep word w s job
  | .finish saved => w.session.map fun s =>
      { w with
        session := none
        stored := if saved && !s.op.dryRun then s.installed else w.stored }

end AchProofs.Localpkg.Install
