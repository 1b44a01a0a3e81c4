import AchProofs.Access.EnvTable

namespace AchProofs.Access

inductive KeyType where
  | pk
  | ek
  | other
deriving DecidableEq

structure KeyContext where
  keyType : KeyType
  ownerEmail : String
  environment : String
  isAdmin : Bool

structure ErrResp where
  httpStatus : ℕ
  code : String
  message : String
deriving DecidableEq

def hasIntersect (a b : List String) : Bool := b.any (fun s => s ∈ a)

section Hydrate

structure RuntimeItem where
  id : String
  endpoint : String
  limits : Option (Option ℕ × Option ℕ)
deriving DecidableEq

structure ContextItem where
  name : String
  id : String
  downloadURL : String
deriving DecidableEq

structure HydrateResponse where
  schemaVersion : String
  environment : String
  models : List RuntimeItem
  mcpServers : List RuntimeItem
  a2aAgents : List RuntimeItem
  guardrails : List String
  prompts : List ContextItem
  plugins : List ContextItem
  artifacts : List ContextItem
  skills : List ContextItem
  notice : String
deriving DecidableEq

/-- What the hydrate handler reads beside the table: whether the store answers, the caller's teams
in LiteLLM, the model limits and the path escaping of the standard library. -/
structure HydrateDeps where
  ns : String
  baseURL : String
  storeDown : Bool
  lookupCallerTeams : String → Option (List String)
  limitsOf : String → Option (Option ℕ × Option ℕ)
  pathEscape : String → String

def runtimeItems (base : String) (f : String → String) (names : List String) : List RuntimeItem :=
  names.map (fun n => ⟨n, base ++ f n, none⟩)

def contextItems (d : HydrateDeps) (kind : String) (names : List String) : List ContextItem :=
  names.map (fun n => ⟨n, n, d.baseURL ++ "/content/" ++ kind ++ "/" ++ d.pathEscape n⟩)

def hydrateBody (d : HydrateDeps) (envName : String) (row : EnvironmentRow) : HydrateResponse where
  schemaVersion := "v1alpha1"
  environment := envName
  models := row.runtimeModels.map (fun n => ⟨n, d.baseURL ++ "/v1", d.limitsOf n⟩)
  mcpServers := runtimeItems d.baseURL (fun n => "/mcp/" ++ d.pathEscape n) row.runtimeMCPServers
  a2aAgents := runtimeItems d.baseURL (fun n => "/a2a/" ++ d.pathEscape n) row.runtimeA2AAgents
  guardrails := row.runtimeGuardrails
  prompts := contextItems d "prompt" row.contextPrompts
  plugins := contextItems d "plugin" row.contextPlugins
  artifacts := contextItems d "artifact" row.contextArtifacts
  skills := contextItems d "skill" row.contextSkills
  notice := row.notice

/-- The environment a hydrate request is about. The body is absent when it does not decode. -/
def hydrateTarget (kc : KeyContext) (body : Option String) : Except ErrResp String :=
  match body with
  | none =>
      .error ⟨400, "invalid_argument", "request body must be valid JSON with no unknown fields"⟩
  | some environment =>
    match kc.keyType with
    | .pk =>
      if environment = "" then
        .error ⟨400, "missing_environment", "environment is required for pk_ callers"⟩
      else .ok environment
    | .ek =>
      if environment ≠ "" ∧ environment ≠ kc.environment then
        .error ⟨403, "wrong_environment", "ek_ caller may only hydrate its bound Environment"⟩
      else .ok kc.environment
    | .other => .error ⟨401, "invalid_key_type", "hydrate requires pk_ or ek_"⟩

def hydrateEnv (d : HydrateDeps) (kc : KeyContext) (envName : String) :
    Option EnvironmentRow → Except ErrResp HydrateResponse
  | none => .error ⟨404, "environment_not_found", "environment not found"⟩
  | some env =>
    if kc.isAdmin then .ok (hydrateBody d envName env)
    else match d.lookupCallerTeams kc.ownerEmail with
      | none => .error ⟨503, "litellm_unreachable", "upstream LiteLLM unreachable"⟩
      | some teams =>
        if hasIntersect env.authorizedTeams teams then .ok (hydrateBody d envName env)
        else .error ⟨403, "unauthorized_team", "caller is not a member of any authorized team"⟩

def hydrateHandler (d : HydrateDeps) (t : EnvTable) (kc : KeyContext) (body : Option String) :
    Except ErrResp HydrateResponse :=
  match hydrateTarget kc body with
  | .error e => .error e
  | .ok envName =>
    if d.storeDown then .error ⟨500, "internal_error", "failed to read environment"⟩
    else hydrateEnv d kc envName (t.getEnvironmentByName d.ns envName)

end Hydrate

section Precheck

inductive PrecheckErr where
  | invalidKeyType
  | unauthorizedResource
  | unauthorizedTeam
  | liteLLMUnreachable
deriving DecidableEq

inductive ResourceKind where
  | mcp
  | a2a
deriving DecidableEq

/-- The forwarder's view: the environments of its namespace by name, and the team resolver. -/
structure PrecheckDeps where
  ns : String
  resolveTeams : String → Option (List String)

def runtimeList (row : EnvironmentRow) : ResourceKind → List String
  | .mcp => row.runtimeMCPServers
  | .a2a => row.runtimeA2AAgents

def envProviderGet (d : PrecheckDeps) (t : EnvTable) (name : String) : Option EnvironmentRow :=
  (t.listEnvironments d.ns).find? (fun r => r.name = name)

def grantedBy (kind : ResourceKind) (name : String) (callerTeams : List String)
    (row : EnvironmentRow) : List String :=
  if name ∈ runtimeList row kind then row.authorizedTeams.filter (fun t => t ∈ callerTeams) else []

def checkPk (d : PrecheckDeps) (t : EnvTable) (kc : KeyContext) (name : String)
    (kind : ResourceKind) : Except PrecheckErr (List String) :=
  match d.resolveTeams kc.ownerEmail with
  | none => .error .liteLLMUnreachable
  | some callerTeams =>
    if callerTeams = [] then .error .unauthorizedTeam
    else
      let granted := (t.listEnvironments d.ns).flatMap (grantedBy kind name callerTeams)
      if granted = [] then .error .unauthorizedTeam else .ok granted

def checkEk (d : PrecheckDeps) (t : EnvTable) (kc : KeyContext) (name : String)
    (kind : ResourceKind) : Except PrecheckErr (List String) :=
  match envProviderGet d t kc.environment with
  | none => .error .unauthorizedResource
  | some row =>
    if name ∈ runtimeList row kind then checkPk d t kc name kind else .error .unauthorizedResource

def check (d : PrecheckDeps) (t : EnvTable) (kc : KeyContext) (name : String)
    (kind : ResourceKind) : Except PrecheckErr (List String) :=
  match kc.keyType with
  | .ek => checkEk d t kc name kind
  | .pk => checkPk d t kc name kind
  | .other => .error .invalidKeyType

def checkMCP (d : PrecheckDeps) (t : EnvTable) (kc : KeyContext) (name : String) :
    Except PrecheckErr (List String) := check d t kc name .mcp

def checkA2A (d : PrecheckDeps) (t : EnvTable) (kc : KeyContext) (name : String) :
    Except PrecheckErr (List String) := check d t kc name .a2a

def checkEkOwner (d : PrecheckDeps) (t : EnvTable) (kc : KeyContext) : Except PrecheckErr Unit :=
  if kc.keyType = .ek then
    match envProviderGet d t kc.environment with
    | none => .error .unauthorizedResource
    | some row =>
      match d.resolveTeams kc.ownerEmail with
      | none => .error .liteLLMUnreachable
      | some teams =>
        if hasIntersect row.authorizedTeams teams then .ok () else .error .unauthorizedTeam
  else .ok ()

end Precheck

section Content

inductive ContentKind where
  | prompt
  | plugin
  | artifact
  | skill
  | unknown
deriving DecidableEq

inductive TeamLookup where
  | teams (l : List String)
  | notFound
  | failed

structure ContentDeps where
  ns : String
  resolveTeams : String → TeamLookup

def headerEnv (kc : KeyContext) (header : String) : Except ErrResp String :=
  match kc.keyType with
  | .pk =>
    if header = "" then
      .error ⟨400, "missing_environment", "x-ach-environment header required for pk_ requests"⟩
    else .ok header
  | .ek =>
    if header ≠ "" ∧ header ≠ kc.environment then
      .error ⟨403, "wrong_environment",
        "ek_ bound environment does not match x-ach-environment header"⟩
    else .ok kc.environment
  | .other => .error ⟨400, "invalid_key_format", "malformed bearer key"⟩

def resolveEnv (d : ContentDeps) (t : EnvTable) (kc : KeyContext) (header : String) :
    Except ErrResp EnvironmentRow :=
  match headerEnv kc header with
  | .error e => .error e
  | .ok name =>
    match (t.listEnvironments d.ns).find? (fun r => r.name = name) with
    | none => .error ⟨404, "environment_not_found", "environment not found"⟩
    | some row => .ok row

def enforceTeams (d : ContentDeps) (kc : KeyContext) (row : EnvironmentRow) : Except ErrResp Unit :=
  match d.resolveTeams kc.ownerEmail with
  | .failed => .error ⟨503, "litellm_unreachable", "team resolver unavailable"⟩
  | .notFound =>
    if hasIntersect [] row.authorizedTeams then .ok ()
    else .error ⟨403, "unauthorized_team", "team membership does not authorize this environment"⟩
  | .teams l =>
    if hasIntersect l row.authorizedTeams then .ok ()
    else .error ⟨403, "unauthorized_team", "team membership does not authorize this environment"⟩

def contentList (row : EnvironmentRow) : ContentKind → List String
  | .prompt => row.contextPrompts
  | .plugin => row.contextPlugins
  | .artifact => row.contextArtifacts
  | .skill => row.contextSkills
  | .unknown => []

def enforceAllowlist (row : EnvironmentRow) (kind : ContentKind) (name : String) :
    Except ErrResp Unit :=
  if name ∈ contentList row kind then .ok ()
  else .error ⟨403, "unauthorized_content", "content not in environment context allowlist"⟩

/-- The gates of the content pipeline that read the table, in their order. -/
def contentGates (d : ContentDeps) (t : EnvTable) (kc : KeyContext) (header : String)
    (kind : ContentKind) (name : String) : Except ErrResp Unit := do
  let row ← resolveEnv d t kc header
  enforceTeams d kc row
  enforceAllowlist row kind name

end Content

end AchProofs.Access
