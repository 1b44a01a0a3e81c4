import AchProofs.Cli.Frontmatter
import AchProofs.Gitfetch.Fetch
import AchProofs.Hydrate.Publish

namespace AchProofs.Cli.Route

open Foundation.Percent Cli.Extract Cli.Frontmatter Gitfetch
  Hydrate

inductive PrefixKind
  | none
  | skill
  | command
  deriving DecidableEq, Repr

abbrev Transform := Text → Bytes → Option (Bytes × List Text)

structure Rule where
  fromGlob : Text
  toGlob : Text
  merge : MergeKind
  provenanceGate : Text
  transform : Option Transform
  prefixKind : PrefixKind
  sep : Text
  nameSep : Text
  userOnlyCommandDir : Text

structure FileWrite where
  path : Text
  content : Bytes
  sourceHash : Text
  merge : MergeKind
  keys : List Text
  deriving DecidableEq

inductive RouteError
  | absolute (dest : Text)
  | dotdot (dest : Text)
  | tooLarge (rel : Text)
  | transform (rel : Text)
  | collision (rel dest : Text)
  | noPlugin
  deriving DecidableEq, Repr

def projectMaxFileBytes : ℕ := 512 * 1048576

def knownComponentKinds : List Name :=
  ["rules", "commands", "agents", "skills", "mcp", ".mcp.json", "prompts", "AGENTS.md", "hooks"].map
    String.toList

/-- `strings.TrimPrefix`. -/
def trimPrefix (p s : Text) : Text := if p.isPrefixOf s then s.drop p.length else s

/-- `strings.TrimSuffix`. -/
def trimSuffix (s t : Text) : Text := if t.isSuffixOf s then s.take (s.length - t.length) else s

/-- `filepath.Ext`. -/
def ext (path : Text) : Text :=
  let tail := (path.reverse.takeWhile fun c => c ≠ '/' && c ≠ '.').reverse
  if path.reverse[tail.length]? = some '.' then '.' :: tail else []

/-- `filepath.Base`. -/
def base (path : Text) : Text :=
  let trimmed := (path.reverse.dropWhile (· = '/')).reverse
  if path = [] then ['.']
  else if trimmed = [] then ['/']
  else (trimmed.reverse.takeWhile (· ≠ '/')).reverse

/-- `filepath.Clean`. -/
def cleanText (path : Text) : Text :=
  let p := clean path
  if p.absolute then '/' :: render p.segs else if p.segs = [] then ['.'] else render p.segs

def globAnchor (glob : Text) : Text :=
  render ((glob.splitOn '/').takeWhile fun part => '*' ∉ part)

def remapSuffixExt (toGlob suffix : Text) : Text :=
  let toExt := ext (base toGlob)
  if suffix = [] then suffix
  else if (base toGlob).head? ≠ some '*' then suffix
  else if toExt = [] ∨ toExt = ['.'] then suffix
  else if ext suffix = toExt then suffix
  else trimSuffix suffix (ext suffix) ++ toExt

def suffixOf (fromGlob srcRel : Text) : Text :=
  if globAnchor fromGlob ≠ [] then trimPrefix ['/'] (trimPrefix (globAnchor fromGlob) srcRel)
    else srcRel

def target (fromGlob toGlob srcRel : Text) : Text :=
  let suffix := suffixOf fromGlob srcRel
  let toAnchor := globAnchor toGlob
  cleanText
    (if toAnchor = [] then suffix
    else if '*' ∉ toGlob then toAnchor
    else if suffix = [] then toAnchor
    else toAnchor ++ '/' :: remapSuffixExt toGlob suffix)

def dotdot : Name := ['.', '.']

def resolveRecursiveGlobTarget (fromGlob toGlob srcRel : Text) : Except RouteError Text :=
  let dest := target fromGlob toGlob srcRel
  if dest.head? = some '/' then .error (.absolute dest)
  else if dotdot ∈ dest.splitOn '/' then .error (.dotdot dest)
  else .ok dest

def Rule.anchorFirst (r : Rule) (topLevel : Name) : Name :=
  if globAnchor r.fromGlob = [] then topLevel else (globAnchor r.fromGlob).takeWhile (· ≠ '/')

def Rule.isFor (r : Rule) (topLevel : Name) (source : Text) : Bool :=
  r.anchorFirst topLevel = topLevel && (r.provenanceGate = [] || r.provenanceGate = source)

def Rule.takes (r : Rule) (rel : Text) : Bool :=
  !(['*', '.'].isPrefixOf (base r.fromGlob)) || ext rel = ext (base r.fromGlob)

/-- The first rule for the kind, for a file the first that takes its extension if there is one. -/
def matchRule (topLevel : Name) (rel source : Text) (isFile : Bool) :
    Option Rule → List Rule → Option Rule
  | fallback, [] => fallback
  | fallback, r :: rs =>
    if !r.isFor topLevel source then matchRule topLevel rel source isFile fallback rs
    else if isFile && !r.takes rel then
      matchRule topLevel rel source isFile (fallback.orElse fun _ => some r) rs
    else some r

def encodeText (t : Text) : Bytes := t.flatMap String.utf8EncodeChar

/-- The destination, the content and the extra command of a file of a plugin. -/
def applyPrefix (rule : Rule) (plugin dest : Text) (content : Bytes) :
    Text × Bytes × Option (Text × Bytes) :=
  let anchor := globAnchor rule.toGlob
  let suffix := trimPrefix ['/'] (trimPrefix anchor dest)
  let first := suffix.takeWhile (· ≠ '/')
  let tail := (suffix.dropWhile (· ≠ '/')).drop 1
  if plugin = [] ∨ rule.prefixKind = .none then (dest, content, none)
  else if suffix = [] ∨ suffix = dest then (dest, content, none)
  else
    match rule.prefixKind with
    | .none => (dest, content, none)
    | .skill =>
      let named := plugin ++ rule.sep ++ first
      let newDest := anchor ++ '/' :: named ++ '/' :: tail
      if tail = [] then (dest, content, none)
      else if tail ≠ "SKILL.md".toList then (newDest, content, none)
      else
        (newDest,
          renameFrontmatterName content
            (encodeText (plugin ++ (if rule.nameSep = [] then rule.sep else rule.nameSep) ++
              first)),
          if rule.userOnlyCommandDir ≠ [] ∧ userOnly content then
            some (rule.userOnlyCommandDir ++ '/' :: named ++ ".md".toList, skillAsCommand content)
          else none)
    | .command =>
      if rule.sep = ['/'] then (anchor ++ '/' :: plugin ++ '/' :: suffix, content, none)
      else (anchor ++ '/' :: plugin ++ rule.sep ++ suffix, content, none)

inductive SourceItem
  | dir
  | file (body : Bytes)
  | irregular
  deriving DecidableEq

def plain (n : Name) : Bool := n ∉ [[], ['.'], ['.', '.']] && '/' ∉ n

/-- What `filepath.WalkDir` comes through, in its order. -/
structure SourceTree where
  items : List (List Name × SourceItem)
  named : ∀ x ∈ items, x.1 ≠ [] ∧ ∀ n ∈ x.1, plain n = true
  distinct : (items.map Prod.fst).Nodup

/-- The writes so far, where a replaced destination has its write, whether that was converted, the
kinds without a rule, and the components that were kept. -/
structure Walked where
  fws : List FileWrite
  claimed : Text → Option ℕ
  converted : Text → Bool
  dropped : List Name
  kept : List (Name × Name)

def appendExtra (w : Walked) : Option FileWrite → Walked
  | none => w
  | some extra =>
    if (w.claimed extra.path).isSome then w
    else
      { w with
        fws := w.fws ++ [extra]
        claimed := Function.update w.claimed extra.path (some w.fws.length)
        converted := Function.update w.converted extra.path true }

/-- Adds a write. Of two that replace one file the one that is not converted stays. -/
def claim (w : Walked) (rel : Text) (isConverted : Bool) (fw : FileWrite) :
    Except RouteError Walked :=
  if fw.merge ≠ .replace then .ok { w with fws := w.fws ++ [fw] }
  else
    match w.claimed fw.path with
    | some i =>
      if w.converted fw.path && !isConverted then
        .ok { w with fws := w.fws.set i fw, converted := Function.update w.converted fw.path false }
      else if !w.converted fw.path && isConverted then .ok w
      else .error (.collision rel fw.path)
    | none =>
      .ok { w with
        fws := w.fws ++ [fw]
        claimed := Function.update w.claimed fw.path (some w.fws.length)
        converted := Function.update w.converted fw.path isConverted }

def component : List Name → Name
  | [] => []
  | [topLevel] => topLevel
  | [_, name] => trimSuffix name (ext name)
  | _ :: name :: _ => name

section Project

variable (hash : Bytes → Text) (rules : List Rule) (source plugin : Text)

def offer (rule : Rule) (rel : Text) (body : Bytes) :
    Except RouteError (FileWrite × Option FileWrite) :=
  match resolveRecursiveGlobTarget rule.fromGlob rule.toGlob rel with
  | .error e => .error e
  | .ok dest =>
    if body.length > projectMaxFileBytes then .error (.tooLarge rel)
    else
      match (rule.transform.elim (some (body, [])) fun t => t rel body) with
      | none => .error (.transform rel)
      | some (content, keys) =>
        let p := applyPrefix rule plugin dest content
        .ok (⟨p.1, p.2.1, hash body, rule.merge, keys⟩,
          p.2.2.map fun extra => ⟨extra.1, extra.2, hash body, .replace, []⟩)

/-- What the walk does with one entry. What lies in a directory without a rule has none either, so
that it makes no difference that `SkipDir` leaves it out. -/
def visit (w : Walked) (x : List Name × SourceItem) : Except RouteError Walked :=
  let rel := render x.1
  let topLevel := x.1.headD []
  match matchRule topLevel rel source (x.2 ≠ .dir) none rules with
  | none =>
    .ok (if topLevel ∈ knownComponentKinds ∧ topLevel ∉ w.dropped then
      { w with dropped := w.dropped ++ [topLevel] } else w)
  | some rule =>
    match x.2 with
    | .dir => .ok w
    | .irregular => .ok w
    | .file body =>
      if !rule.takes rel then .ok w
      else
        match offer hash plugin rule rel body with
        | .error e => .error e
        | .ok (fw, extra) =>
          claim (appendExtra { w with kept := w.kept.insert (topLevel, component x.1) } extra) rel
            rule.transform.isSome fw

structure ProjectResult where
  fileWrites : List FileWrite
  keptByKind : Name → ℕ
  dropped : List Name

def Walked.start : Walked := ⟨[], fun _ => none, fun _ => false, [], []⟩

def visitAll : Walked → List (List Name × SourceItem) → Except RouteError Walked
  | w, [] => .ok w
  | w, x :: xs =>
    match visit hash rules source plugin w x with
    | .error e => .error e
    | .ok w' => visitAll w' xs

def project (tree : SourceTree) : Except RouteError ProjectResult :=
  match visitAll hash rules source plugin Walked.start tree.items with
  | .error e => .error e
  | .ok w =>
    .ok ⟨w.fws.insertionSort (fun a b => a.path ≤ b.path), fun kind => w.kept.countP (·.1 = kind),
      w.dropped.insertionSort (· ≤ ·)⟩

end Project

/-- The name of a plugin directory without its `@<marketplace>`. -/
def pluginBaseName (plugin : Text) : Text := plugin.takeWhile (· ≠ '@')

def projectPlugin (hash : Bytes → Text) (rules : List Rule) (plugin : Text) (tree : SourceTree) :
    Except RouteError ProjectResult :=
  if pluginBaseName plugin = [] then .error .noPlugin
  else project hash rules [] (pluginBaseName plugin) tree

def validatePluginName (name : Text) : Bool :=
  name ∉ [[], ['.'], ['.', '.']] && '/' ∉ name && '\\' ∉ name && name.head? ≠
    some '/' && base name = name

end AchProofs.Cli.Route
