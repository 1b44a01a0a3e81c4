import AchProofs.Gitfetch.Fetch

namespace AchProofs.Localpkg

open Foundation.Links Foundation.Percent Cli.Extract
  Contentkit Gitfetch

inductive SourceKind
  | gitSubdir
  | url
  | github
  | localPath
  | unsupported
  deriving DecidableEq, Repr

structure Source where
  kind : SourceKind
  url : Text
  repo : Text
  path : Text
  ref : Text
  sha : Text
  deriving DecidableEq, Repr

structure Plugin where
  name : Text
  source : Source
  deriving DecidableEq, Repr

def Source.demoted : Source := ⟨.unsupported, [], [], [], [], []⟩

def marketplaceMaxPluginsPerCatalog : ℕ := 5000

def pluginNameMaxLen : ℕ := 253

def alnum (c : Char) : Bool := c.isAlpha || c.isDigit

def validatePluginName (name : Text) : Bool :=
  name.head?.any alnum && name.length ≤ pluginNameMaxLen &&
    name.all (fun c => alnum c || c ∈ ['.', '_', '-']) && ¬ ['.', '.'] <:+: name

def validateLocalPath (p : Text) : Bool := p.head? ≠ some '/' && ['.', '.'] ∉ p.splitOn '/'

def Source.valid (s : Source) : Bool :=
  match s.kind with
  | .gitSubdir => s.url ≠ [] && s.path ≠ []
  | .url => s.url ≠ []
  | .github => s.repo ≠ []
  | .localPath => s.path ≠ [] && validateLocalPath s.path
  | .unsupported => true

def Plugin.checked (p : Plugin) : Plugin :=
  if !validatePluginName p.name || !p.source.valid then { p with source := .demoted } else p

/-- `ParseClaudeCodeMarketplace`, after the text is decoded. -/
def parseClaudeCodeMarketplace (plugins : List Plugin) : Option (List Plugin) :=
  if plugins = [] ∨ plugins.length > marketplaceMaxPluginsPerCatalog then none
  else some (plugins.map Plugin.checked)

/-- A registered repository, at a ref. -/
structure Repo where
  cloneURL : Text
  ref : Text
  scheme : AuthScheme
  deriving DecidableEq, Repr

/-- The surroundings of one invocation: the caller's file system, the git servers, what the JSON
decoder makes of a catalog, and whether the token goes along to a URL named by a marketplace. Of
the token only this is kept, as it decides the scheme. -/
structure World where
  tar : Tar
  host : Host
  remote : Remote
  decode : Bytes → Option (List Plugin)
  attaches : Text → Text → Bool

def defaultRef (ref : Text) : Text := if ref = [] then "main".toList else ref

/-- `BuildEntrySpec`. -/
def buildEntrySpec (w : World) (repo : Repo) (src : Source) : Option Spec :=
  let scheme url := if w.attaches url repo.cloneURL then repo.scheme else .bearer
  match src.kind with
  | .gitSubdir | .url => some ⟨src.url, defaultRef src.ref, src.sha, src.path, scheme src.url⟩
  | .github =>
    let url := "https://github.com/".toList ++ src.repo ++ ".git".toList
    some ⟨url, defaultRef src.ref, src.sha, [], scheme url⟩
  | .localPath => some ⟨repo.cloneURL, repo.ref, [], src.path, scheme repo.cloneURL⟩
  | .unsupported => none

structure Key where
  url : Text
  ref : Text
  subtree : Text
  scheme : AuthScheme
  deriving DecidableEq, Repr

def fetchCacheKey (spec : Spec) : Key := ⟨spec.url, spec.ref, spec.subtree, spec.scheme⟩

abbrev FetchCache := Key → Option (Body × Text)

inductive ResolveError
  | lsRemote
  | fetch (e : FetchError)
  | noMarketplace
  | parse
  | notFound
  | unsupportedSource
  | slice
  | notArchive
  | verify (e : VerifyError)
  | extract (e : ExtractError)
  deriving DecidableEq, Repr

/-- The commit a specification names: its pin, or what its ref stands for. -/
def commit (w : World) (spec : Spec) : Option Text :=
  if spec.sha = [] then lsRemote w.remote spec.url spec.ref else some spec.sha

/-- Without a cache it is `none`. -/
def cachedFetch (w : World) (cache : Option FetchCache) (spec : Spec) :
    Except ResolveError (Body × Text) × Option FetchCache :=
  match cache.bind (· (fetchCacheKey spec)) with
  | some r => (.ok r, cache)
  | none =>
    match commit w spec with
    | none => (.error .lsRemote, cache)
    | some sha =>
      match fetch w.tar w.host w.remote { spec with sha := sha } with
      | .error e => (.error (.fetch e), cache)
      | .ok body =>
        (.ok (body, sha),
          cache.map fun c => Function.update c (fetchCacheKey spec) (some (body, sha)))

def cloneRepo (w : World) (cache : Option FetchCache) (repo : Repo) :
    Except ResolveError (Body × Text) × Option FetchCache :=
  cachedFetch w cache ⟨repo.cloneURL, repo.ref, [], [], repo.scheme⟩

/-- The member is the file itself, or lies in one directory more. -/
def isFile (target : List Name) (m : Member) : Bool :=
  let p := clean (trimDotSlash m.name)
  m.typeflag = .reg && (p.segs = target || !p.absolute && p.segs.tail = target)

def extractFileFromTar (ms : List Member) (target : List Name) : Option Bytes :=
  (ms.find? (isFile target)).map Member.body

def marketplacePath : List Name := [".claude-plugin", "marketplace.json"].map String.toList

def findEntry (w : World) (repoTar : Body) (name : Text) : Except ResolveError Source :=
  match (w.tar.read repoTar).bind (extractFileFromTar · marketplacePath) with
  | none => .error .noMarketplace
  | some json =>
    match (w.decode json).bind parseClaudeCodeMarketplace with
    | none => .error .parse
    | some plugins =>
      match plugins.find? fun p => p.name = name with
      | none => .error .notFound
      | some p => .ok p.source

def pluginEntryMaxFileBytes : ℕ := 64 * 1048576

def reroot (c : Tar) (sub : Cleaned) (m : Member) : Option Member :=
  let rel := clean (trimDotSlash m.name)
  if sub.segs ≠ [] ∧ rel.absolute = sub.absolute ∧ sub.segs <+: rel.segs ∧ rel.segs ≠ sub.segs then
    some (c.member (render (rel.segs.drop sub.segs.length)) m.typeflag m.mode m.body)
  else none

def tooLong (maxFileBytes : ℕ) (m : Member) : Bool :=
  m.typeflag = .reg && m.body.length > maxFileBytes

/-- `SliceSubtree` for an archive without a wrapper directory and a subtree that loses its own. -/
def sliceSubtree (c : Tar) (maxFileBytes : ℕ) (ms : List Member) (sub : Cleaned) :
    Option (List Member) :=
  let out := ms.filterMap (reroot c sub)
  if out.any (tooLong maxFileBytes) ∨ out = [] then none else some out

def header (m : Member) (offset : ℕ) : Header where
  name := m.name
  paxPath := m.paxPath
  typeflag := m.typeflag
  linkname := m.linkname
  mode := m.mode
  size := m.body.length
  offset := offset
  frontmatter := none

/-- The headers of an archive that starts after so many bytes: each is a block, and a body fills up
its last one. -/
def headers : ℕ → List Member → List Header
  | _, [] => []
  | at₁, m :: ms =>
    header m (at₁ + 512) :: headers (at₁ + 512 + (m.body.length + 511) / 512 * 512) ms

def defaultMaxEntries : ℕ := 65536

def defaultPluginMaxBytes : ℕ := 200 * 1048576

def stageConfig (h : Host) : Config where
  dst := h.stage
  maxEntries := defaultMaxEntries
  maxBytes := defaultPluginMaxBytes
  allowSymlinks := false

inductive Leaf
  | dir
  | file (body : Bytes) (mode : ℕ)
  deriving DecidableEq, Repr

abbrev Staged := List Name → Option Leaf

def place (m : Member) : List Name := (normal (parse m.name).parts).2

def Staged.put (s : Staged) (m : Member) : Staged := fun p =>
  match m.typeflag with
  | .dir => if p <+: place m then some .dir else s p
  | .reg =>
    if p = place m then some (.file m.body (maskMode m.mode))
    else if p <+: place m then some .dir
    else s p
  | _ => s p

def stageTar (h : Host) (ms : List Member) : Except ExtractError Staged :=
  match (extract (stageConfig h) ⟨⟨h.tree, []⟩, 0, 0⟩
      (ms.map fun m => (header m 0).entry h.privileged)).2 with
  | some e => .error e
  | none => .ok (ms.foldl Staged.put fun _ => none)

structure Resolved where
  sha : Text
  staged : Staged

def stagePlugin (w : World) (body : Body) (sha : Text) : Except ResolveError Resolved :=
  match w.tar.read body with
  | none => .error .notArchive
  | some ms =>
    match verifyPluginContents (headers 0 ms) with
    | .error e => .error (.verify e)
    | .ok () =>
      match stageTar w.host ms with
      | .error e => .error (.extract e)
      | .ok staged => .ok ⟨sha, staged⟩

/-- The entry's plugin, from the archive `repoTar` of the marketplace if it is in that
repository. -/
def installEntry (w : World) (cache : Option FetchCache) (repo : Repo) (repoTar : Body) (sha : Text)
    (spec : Spec) : Except ResolveError Resolved × Option FetchCache :=
  if spec.url = repo.cloneURL ∧ (clean spec.subtree).segs = [] then
    (stagePlugin w repoTar sha, cache)
  else if spec.url = repo.cloneURL then
    match (w.tar.read repoTar).bind
        (sliceSubtree w.tar pluginEntryMaxFileBytes · (clean spec.subtree)) with
    | none => (.error .slice, cache)
    | some ms => (stagePlugin w (.tar ms) sha, cache)
  else
    match cachedFetch w cache spec with
    | (.error e, cache) => (.error e, cache)
    | (.ok (body, entrySHA), cache) =>
      (stagePlugin w body (if entrySHA = [] then sha else entrySHA), cache)

def resolvePluginMarketplace (w : World) (cache : Option FetchCache) (repo : Repo) (name : Text) :
    Except ResolveError Resolved × Option FetchCache :=
  match cloneRepo w cache repo with
  | (.error e, cache) => (.error e, cache)
  | (.ok (repoTar, sha), cache) =>
    match findEntry w repoTar name with
    | .error e => (.error e, cache)
    | .ok src =>
      match buildEntrySpec w repo src with
      | none => (.error .unsupportedSource, cache)
      | some spec => installEntry w cache repo repoTar sha spec

/-- A direct fetch of what `BuildEntrySpec` makes of a source, verified and staged. -/
def fetchDirect (w : World) (repo : Repo) (src : Source) : Except ResolveError Resolved :=
  match buildEntrySpec w repo src with
  | none => .error .unsupportedSource
  | some spec =>
    match (cachedFetch w none spec).1 with
    | .error e => .error e
    | .ok (body, sha) => stagePlugin w body sha

end AchProofs.Localpkg
