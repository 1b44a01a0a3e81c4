import Mathlib

namespace AchProofs.Operator.AccessGroup

structure Permission where
  mcpServers : List String
  mcpAccessGroups : List String
  mcpToolPermissions : List (String × List String)
  agents : List String
  agentAccessGroups : List String
  deriving DecidableEq, Repr

/-- The entries of a team's metadata that are read. -/
structure Metadata where
  achManaged : Option String
  achEnvironment : Option String
  guardrails : List String
  deriving DecidableEq, Repr

/-- A team as LiteLLM has it. `accessGroupIDs` is its side of the relation to access groups. -/
structure Team where
  teamID : String
  alias_ : String
  accessGroupIDs : List String
  userIDs : List String
  models : Option (List String)
  permission : Option Permission
  metadata : Metadata
  deriving DecidableEq, Repr

/-- The four lists of an access group. -/
structure Bindings where
  models : List String
  mcps : List String
  agents : List String
  teams : List String
  deriving DecidableEq, Repr

structure Group where
  id : String
  bindings : Bindings
  deriving DecidableEq, Repr

/-- What LiteLLM holds: its servers and agents by name and id, its teams, and the access group of
the Environment. -/
structure LiteLLM where
  mcpServers : List (String × String)
  agents : List (String × String)
  teams : List Team
  group : Option Group
  deriving DecidableEq, Repr

/-- An Environment, and what the rest of its reconcile passes on: the guardrails that do not
resolve, the names its groups expand to, and the folding of an address to the one of its user. -/
structure Env where
  name : String
  generation : ℕ
  models : List String
  modelGroups : List String
  mcpServers : List String
  a2aAgents : List String
  guardrails : List String
  authorizedTeams : List String
  unresolvedGuardrails : List String
  groupMCP : List String
  groupAgents : List String
  normalizeEmail : String → String

/-- The calls that may fail. -/
inductive Call
  | listMCPServers
  | listA2AAgents
  | listAllTeams
  | createTeam
  | getShellTeam
  | updateTeam
  | getTeamInfo
  | getAccessGroup
  | createAccessGroup
  | updateRemovals
  | updateStep
  | updateFinal
  | listVerify
  deriving DecidableEq, Repr

inductive Reason
  | synced
  | unresolvedReferences
  | resolveFailed
  | shellTeamFailed
  | accessGroupCreateFailed
  | accessGroupUpdateFailed
  | mirrorUnconverged
  deriving DecidableEq, Repr

/-- What a pass leaves: the state, the states after each of its writes, the reason it reports, and
the generation, if any, at which the mirror is known not to converge. -/
structure Result where
  world : LiteLLM
  writes : List LiteLLM
  reason : Reason
  unconverged : Option ℕ
  deriving DecidableEq, Repr

def denyAllModel : String := "no-default-models"

def denyAllModelLegacy : String := "__deny_all__"

def denyAllAgent : String := "00000000-0000-0000-0000-000000000000"

def shellTeamAlias (env : String) : String := "ach-env-" ++ env

def userShellAlias (normalizeEmail : String → String) (email : String) : String :=
  "ach-user-" ++ normalizeEmail email

def compactSorted (l : List String) : List String := l.dedup.mergeSort

def unionSorted (a b : List String) : List String := compactSorted (a ++ b)

def sameGuardrailSet (a b : List String) : Bool := compactSorted a = compactSorted b

def sameSet (a b : List String) : Bool := a.length = b.length && b.all (fun x => x ∈ a)

def shellTeamPermissions : Permission := ⟨[], [], [], [denyAllAgent], []⟩

def shellTeamMetadata (env : Env) : Metadata := ⟨some "env-shell", some env.name, env.guardrails⟩

def newShellTeam (env : Env) : Team :=
  ⟨shellTeamAlias env.name, shellTeamAlias env.name, [], [], some [denyAllModel],
    some shellTeamPermissions, shellTeamMetadata env⟩

def Team.isShellTeamManaged (t : Team) (env : String) : Bool :=
  t.metadata.achManaged = some "env-shell" && t.metadata.achEnvironment = some env

def Team.isShellTeamShaped (t : Team) (env : String) : Bool :=
  t.alias_ = shellTeamAlias env &&
    (t.models = some [denyAllModel] || t.models = some [denyAllModelLegacy])

def Team.shellTeamDrifted (t : Team) (guardrails : List String) : Bool :=
  if !sameGuardrailSet t.metadata.guardrails guardrails then true
  else if t.models = none ∧ t.permission = none then false
  else if t.models ≠ some [denyAllModel] then true
  else
    match t.permission with
    | none => false
    | some op =>
      op.mcpServers.length ≠ 0 || op.mcpAccessGroups.length ≠ 0 ||
        op.mcpToolPermissions.length ≠ 0 || op.agentAccessGroups.length ≠ 0 ||
        op.agents ≠ [denyAllAgent]

/-- The last entry of a name counts, as in a map that is filled in order. -/
def idOf (entries : List (String × String)) (name : String) : Option String :=
  (entries.reverse.find? (fun e => e.1 ≠ "" && e.1 = name)).map Prod.snd

def mapResolve (names : List String) (entries : List (String × String)) :
    List String × List String :=
  ((names.filter (· ≠ "")).filterMap (idOf entries),
    (names.filter (· ≠ "")).filter (fun n => (idOf entries n).isNone))

/-- What a team list is read for, next to the mirror: the first team of an alias counts. -/
structure Entry where
  teamID : String
  alias_ : String
  userIDs : List String
  deriving DecidableEq, Repr

def Team.entry (t : Team) : Entry := ⟨t.teamID, t.alias_, t.userIDs⟩

def LiteLLM.entries (w : LiteLLM) : List Entry := w.teams.map Team.entry

def byAlias (es : List Entry) (name : String) : Option String :=
  (es.find? (fun e => e.teamID ≠ "" && e.alias_ ≠ "" && e.alias_ = name)).map Entry.teamID

def memberEmails (es : List Entry) (id : String) : List String :=
  match es.find? (fun e => e.teamID = id) with
  | none => []
  | some e => e.userIDs.filter (· ≠ "")

def LiteLLM.team (w : LiteLLM) (id : String) : Option Team := w.teams.find? (fun t => t.teamID = id)

def LiteLLM.teamAccessGroups (w : LiteLLM) (id : String) : List String :=
  ((w.team id).map Team.accessGroupIDs).getD []

/-- A team that enters the assigned list gains the group, one that leaves it loses the group. -/
def Team.shift (gid : String) (old new : List String) (t : Team) : Team :=
  if t.teamID ∈ new ∧ t.teamID ∉ old then
    if gid ∈ t.accessGroupIDs then t else { t with accessGroupIDs := t.accessGroupIDs ++ [gid] }
  else if t.teamID ∈ old ∧ t.teamID ∉ new then
    { t with accessGroupIDs := t.accessGroupIDs.filter (· ≠ gid) }
  else t

def LiteLLM.updateAccessGroup (w : LiteLLM) (g : Group) (b : Bindings) : LiteLLM :=
  { w with
    group := some ⟨g.id, b⟩
    teams := w.teams.map (Team.shift g.id g.bindings.teams b.teams) }

def LiteLLM.createAccessGroup (w : LiteLLM) (id : String) (b : Bindings) : LiteLLM :=
  { w with group := some ⟨id, b⟩, teams := w.teams.map (Team.shift id [] b.teams) }

def LiteLLM.createTeam (w : LiteLLM) (t : Team) : LiteLLM := { w with teams := w.teams ++ [t] }

def Team.reassert (env : Env) (t : Team) : Team :=
  { t with
    models := some [denyAllModel]
    permission := some shellTeamPermissions
    metadata := shellTeamMetadata env }

def LiteLLM.updateTeam (w : LiteLLM) (id : String) (env : Env) : LiteLLM :=
  { w with teams := w.teams.map (fun t => if t.teamID = id then t.reassert env else t) }

/-- The state `ensureShellTeam` leaves, its writes, and the id of the shell unless it fails. -/
structure Shell where
  world : LiteLLM
  writes : List LiteLLM
  id : Option String
  deriving DecidableEq, Repr

variable (fails : Call → Bool) (env : Env)

def ensureShellTeam (existingID : String) (w : LiteLLM) : Shell :=
  if existingID = "" then
    -- a second team of one id is refused
    if fails .createTeam || (w.team (shellTeamAlias env.name)).isSome then ⟨w, [], none⟩
    else
      let w' := w.createTeam (newShellTeam env)
      ⟨w', [w'], some (shellTeamAlias env.name)⟩
  else if fails .getShellTeam then ⟨w, [], none⟩
  else
    match w.team existingID with
    | none => ⟨w, [], some existingID⟩
    | some info =>
      let managed := info.isShellTeamManaged env.name
      if !managed && !info.isShellTeamShaped env.name then ⟨w, [], none⟩
      else if info.shellTeamDrifted env.guardrails || !managed then
        if fails .updateTeam then ⟨w, [], none⟩
        else
          let w' := w.updateTeam existingID env
          if (info.reassert env).shellTeamDrifted env.guardrails then ⟨w', [w'], none⟩
          else ⟨w', [w'], some existingID⟩
      else ⟨w, [], some existingID⟩

def mcpIDs (w : LiteLLM) : List String :=
  (mapResolve env.mcpServers w.mcpServers).1 ++ (mapResolve env.groupMCP w.mcpServers).1

def agentIDs (w : LiteLLM) : List String :=
  (mapResolve env.a2aAgents w.agents).1 ++ (mapResolve env.groupAgents w.agents).1

def authorizedTeamIDs (w : LiteLLM) : List String :=
  env.authorizedTeams.filterMap (byAlias w.entries)

def hasUnresolved (w : LiteLLM) : Bool :=
  0 < (mapResolve env.mcpServers w.mcpServers).2.length +
    (mapResolve env.a2aAgents w.agents).2.length +
    (env.authorizedTeams.filter (fun a => (byAlias w.entries a).isNone)).length +
    env.unresolvedGuardrails.length

def addNew (l ids : List String) : List String :=
  ids.foldl (fun l id => if id ∈ l then l else l ++ [id]) l

def entitledUserShellIDs (w info : LiteLLM) : List String :=
  addNew [] ((authorizedTeamIDs env w).flatMap fun id =>
    (memberEmails info.entries id).filterMap
      (fun email => byAlias w.entries (userShellAlias env.normalizeEmail email)))

/-- The desired lists. Names are resolved in the state read first, members are read later. -/
def desired (w info : LiteLLM) (shellID : String) : Bindings :=
  ⟨unionSorted env.models env.modelGroups, mcpIDs env w, agentIDs env w,
    addNew (addNew (authorizedTeamIDs env w) [shellID]) (entitledUserShellIDs env w info)⟩

/-- The intermediate list of the two-step repair, and whether it is needed. -/
def mirrorRepairStep (gid : String) (teams : List String) (seen : LiteLLM) : List String × Bool :=
  let stale := seen.teams.filter fun t =>
    t.teamID ≠ "" && t.teamID ∉ teams && gid ∈ t.accessGroupIDs
  (teams.filter (fun id => gid ∈ seen.teamAccessGroups id) ++ stale.map Team.teamID,
    teams.any (fun id => gid ∉ seen.teamAccessGroups id) || !stale.isEmpty)

def computeAccessGroupDrift (g : Group) (want : Bindings) (seen : LiteLLM) : Bool :=
  !sameSet g.bindings.models want.models || !sameSet g.bindings.mcps want.mcps ||
    !sameSet g.bindings.agents want.agents || !sameSet g.bindings.teams want.teams ||
    (mirrorRepairStep g.id want.teams seen).2

def intersect (a b : List String) : List String := a.filter (fun x => x ∈ b)

def withoutListedUnwanted (existing wanted : List String) (live : List (String × String)) :
    List String :=
  let listed := (live.filter (fun e => e.1 ≠ "")).filterMap (fun e => idOf live e.1)
  existing.filter (fun id => id ∉ listed || id ∈ wanted)

def shrunk (w : LiteLLM) (g : Group) (want : Bindings) : Bindings :=
  ⟨intersect g.bindings.models want.models,
    withoutListedUnwanted g.bindings.mcps want.mcps w.mcpServers,
    withoutListedUnwanted g.bindings.agents want.agents w.agents,
    intersect g.bindings.teams want.teams⟩

def shrinkAccessGroup (want : Bindings) (unconverged : Option ℕ) (w : LiteLLM) : Result :=
  match w.group with
  | none => ⟨w, [], .unresolvedReferences, unconverged⟩
  | some g =>
    let req := shrunk w g want
    if sameSet g.bindings.models req.models && sameSet g.bindings.mcps req.mcps &&
        sameSet g.bindings.agents req.agents && sameSet g.bindings.teams req.teams then
      ⟨w, [], .unresolvedReferences, unconverged⟩
    else if fails .updateRemovals then ⟨w, [], .accessGroupUpdateFailed, unconverged⟩
    else
      let w' := w.updateAccessGroup g req
      ⟨w', [w'], .unresolvedReferences, unconverged⟩

/-- The final PUT, and the one reading of the mirrors after a repair. -/
def finalPut (g : Group) (want : Bindings) (mirrorNeeded : Bool) (unconverged : Option ℕ)
    (before : List LiteLLM) (w : LiteLLM) : Result :=
  if fails .updateFinal then ⟨w, before, .accessGroupUpdateFailed, unconverged⟩
  else
    let w' := w.updateAccessGroup g want
    if !mirrorNeeded then ⟨w', before ++ [w'], .synced, unconverged⟩
    else if fails .listVerify then ⟨w', before ++ [w'], .resolveFailed, unconverged⟩
    else if (mirrorRepairStep g.id want.teams w').2 then
      ⟨w', before ++ [w'], .mirrorUnconverged, some env.generation⟩
    else ⟨w', before ++ [w'], .synced, none⟩

def repairAccessGroup (g : Group) (want : Bindings) (seen : LiteLLM) (unconverged : Option ℕ)
    (w : LiteLLM) : Result :=
  let step := mirrorRepairStep g.id want.teams seen
  if step.2 then
    if unconverged = some env.generation then ⟨w, [], .mirrorUnconverged, unconverged⟩
    else if fails .updateStep then ⟨w, [], .accessGroupUpdateFailed, unconverged⟩
    else
      let between := { want with teams := step.1 }
      let w' := w.updateAccessGroup g between
      finalPut fails env ⟨g.id, between⟩ want true unconverged [w'] w'
  else finalPut fails env g want false unconverged [] w

/-- The writes to the access group. The id is the one LiteLLM gives a group it creates. -/
def writeAccessGroup (newID : String) (want : Bindings) (seen : LiteLLM) (unconverged : Option ℕ)
    (w : LiteLLM) : Result :=
  if hasUnresolved env seen then shrinkAccessGroup fails want unconverged w
  else
    match w.group with
    | none =>
      if fails .createAccessGroup then ⟨w, [], .accessGroupCreateFailed, unconverged⟩
      else
        let w' := w.createAccessGroup newID want
        ⟨w', [w'], .synced, unconverged⟩
    | some g =>
      if computeAccessGroupDrift g want seen then
        repairAccessGroup fails env g want seen unconverged w
      else ⟨w, [], .synced, none⟩

def reconcileAccessGroup (newID : String) (unconverged : Option ℕ) (w : LiteLLM) : Result :=
  if fails .listMCPServers || fails .listA2AAgents || fails .listAllTeams then
    ⟨w, [], .resolveFailed, unconverged⟩
  else
    let existingID := (byAlias w.entries (shellTeamAlias env.name)).getD ""
    let shell := if hasUnresolved env w then ⟨w, [], some existingID⟩
      else ensureShellTeam fails env existingID w
    match shell.id with
    | none => ⟨shell.world, shell.writes, .shellTeamFailed, unconverged⟩
    | some shellID =>
      if fails .getTeamInfo || fails .getAccessGroup then
        ⟨shell.world, shell.writes, .resolveFailed, unconverged⟩
      else
        let r := writeAccessGroup fails env newID (desired env w shell.world shellID) w unconverged
          shell.world
        { r with writes := shell.writes ++ r.writes }

end AchProofs.Operator.AccessGroup
