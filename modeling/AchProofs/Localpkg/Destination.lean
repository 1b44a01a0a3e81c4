import AchProofs.Gitfetch.Fetch

namespace AchProofs.Localpkg.Install

open Gitfetch

def isAbs (p : String) : Bool := p.toList.head? = some '/'

def hasTextPrefix (p s : String) : Bool := p.toList.isPrefixOf s.toList

def trimTextPrefix (p s : String) : String :=
  if hasTextPrefix p s then String.ofList (s.toList.drop p.length) else s

def joinSegs (segs : List String) : String := String.intercalate "/" segs

/-- `filepath.Clean` of a text that is not empty. -/
def cleanPath (p : String) : String :=
  let c := clean p.toList
  let segs := c.segs.map String.ofList
  if c.absolute then "/" ++ joinSegs segs else if segs = [] then "." else joinSegs segs

/-- `filepath.Join`. -/
def joinPath (a b : String) : String :=
  if a = "" ∧ b = "" then ""
  else if a = "" then cleanPath b
  else if b = "" then cleanPath a
  else cleanPath (a ++ "/" ++ b)

def resolveDest (root dest : String) : String := if isAbs dest then dest else joinPath root dest

/-- How the destinations of an adapter resolve under `--global`. -/
structure GlobalScope where
  envVar : String
  fromDir : String
  envSuffix : String
  fallback : String
  subdirs : List String

def globalScopes (adapterID : String) : Option GlobalScope :=
  match adapterID with
  | "claude-code" => some ⟨"CLAUDE_CONFIG_DIR", ".claude/", "", "", []⟩
  | "codex" => some ⟨"CODEX_HOME", ".codex/", "", "", []⟩
  | "gemini-cli" => some ⟨"GEMINI_CLI_HOME", ".gemini/", ".gemini", "", []⟩
  | "pi" => some ⟨"PI_CODING_AGENT_DIR", ".pi/", "", ".pi/agent/", ["skills/", "prompts/"]⟩
  | "opencode" => some ⟨"XDG_CONFIG_HOME", ".opencode/", "opencode", ".config/opencode/", []⟩
  | _ => none

section Env

variable (env : String → String)

def configDir (envVar : String) : String :=
  let v := String.ofList (((env envVar).toList.dropWhile isSpace).rdropWhile isSpace)
  if v = "" || !isAbs v then "" else cleanPath v

def globalRoot (adapterID home : String) : String :=
  match globalScopes adapterID with
  | none => home
  | some s => if configDir env s.envVar = "" then home
      else joinPath (configDir env s.envVar) s.envSuffix

def remapGlobalPath (adapterID home path : String) : String :=
  match globalScopes adapterID with
  | none => path
  | some s =>
    let rest := trimTextPrefix s.fromDir path
    if !hasTextPrefix s.fromDir path then path
    else if s.subdirs ≠ [] && !s.subdirs.any (hasTextPrefix · rest) then path
    else
      let relative := if s.fallback ≠ "" then s.fallback ++ rest else path
      let root := globalRoot env adapterID home
      if root = home then relative
      else if home ≠ "" && joinPath root rest = joinPath home relative then relative
      else joinPath root rest

end Env

def shouldSkipName (seg plugin : String) : Bool :=
  let parts := seg.toList.splitOn '.'
  String.ofList (if parts.length = 1 then seg.toList else ['.'].intercalate parts.dropLast) = plugin

/-- The segments with the plugin's name before the one after `skills`, if there is one. -/
def nameSkill (plugin : String) : List String → Option (List String)
  | "skills" :: name :: rest =>
    some ("skills" :: (if shouldSkipName name plugin then name else plugin ++ "-" ++ name) :: rest)
  | seg :: rest => (nameSkill plugin rest).map (seg :: ·)
  | [] => none

/-- `namespace.Leaf`: the plugin's name goes before the skill's name, or before the file's. -/
def leafSegs (segs : List String) (plugin : String) : List String :=
  match nameSkill plugin segs with
  | some segs => segs
  | none =>
    let leaf := segs.getLastD ""
    if shouldSkipName leaf plugin then segs else segs.dropLast ++ [plugin ++ "-" ++ leaf]

def splitSlash (p : String) : List String := (p.toList.splitOn '/').map String.ofList

def leaf (p plugin : String) : String := joinSegs (leafSegs (splitSlash p) plugin)

def leafAtRoot (root p plugin : String) : String :=
  if !isAbs p || !isAbs root then leaf p plugin
  else
    let base := (clean root.toList).segs
    let segs := (clean p.toList).segs
    if base.isPrefixOf segs then
      let rel := (segs.drop base.length).map String.ofList
      "/" ++ joinSegs (base.map String.ofList ++ leafSegs (if rel = [] then ["."] else rel) plugin)
    else p

example : leafAtRoot "/x/skills" "/x/skills/.claude/commands/review.md" "codex" =
    "/x/skills/.claude/commands/codex-review.md" := by decide +kernel

example : leaf ".claude/skills/pdf/refs/a.md" "tools" = ".claude/skills/tools-pdf/refs/a.md" := by
  decide +kernel

end AchProofs.Localpkg.Install
