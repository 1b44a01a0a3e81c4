import AchProofs.Localpkg.FetchedTree
import AchProofs.Skills.ContentDir

namespace AchProofs.Localpkg

open Foundation.Links Foundation.Percent Cli.Extract
  Contentkit Gitfetch Skills

inductive Lens
  | plugin
  | skill
  | pluginMarketplace
  | skillMarketplace
  | unknown
  deriving DecidableEq, Repr

/-- A repository as it is registered. -/
structure RepoEntry where
  name : Text
  cloneURL : Text
  gitRef : Text
  authScheme : AuthScheme
  skillsRootHint : Text
  deriving DecidableEq, Repr

def RepoEntry.repo (r : RepoEntry) : Repo := ⟨r.cloneURL, defaultRef r.gitRef, r.authScheme⟩

inductive LensError
  | resolve (e : ResolveError)
  | nameMismatch
  | discover
  | skillNotFound
  | sliceSkill
  | skillName
  | noSkillFile
  | unknownLens
  deriving DecidableEq, Repr

def defaultSkillMaxBytes : ℕ := 50 * 1048576

def skillStageConfig (h : Host) : Config := { stageConfig h with maxBytes := defaultSkillMaxBytes }

def skillsDir : Name := "skills".toList

/-- `Nest`: what is in the directory comes to lie in `skills/<name>`. -/
def nest (s : Staged) (name : Text) (dir : List Name) : Staged
  | [] => some .dir
  | [top] => if top = skillsDir then some .dir else none
  | top :: n :: q => if top = skillsDir ∧ n = name then s (dir ++ q) else none

def stageSkillNested (h : Host) (ms : List Member) (name : Text) : Except LensError Staged :=
  match extract (skillStageConfig h) (start h.tree)
      (ms.map fun m => (header m 0).entry h.privileged) with
  | (_, some e) => .error (.resolve (.extract e))
  | (s, none) =>
    match contentDir s.disk h.stage with
    | none => .error .noSkillFile
    | some dir => .ok (nest (ms.foldl Staged.put fun _ => none) name dir)

section Resolve

variable (w : World) (fm : Frontmatter)

def stageSkill (ms : List Member) (sha name : Text) : Except LensError Resolved :=
  match verifySkillContents (skillHeaders fm 0 ms) with
  | .error e => .error (.resolve (.verify e))
  | .ok () =>
    if validSkillName name = false then .error .skillName
    else
      match stageSkillNested w.host ms name with
      | .error e => .error e
      | .ok staged => .ok ⟨sha, staged⟩

def directSkill (repoTar : Body) (sha name : Text) : Except LensError Resolved :=
  match w.tar.read repoTar with
  | none => .error (.resolve .notArchive)
  | some ms => stageSkill w fm ms sha name

/-- The manager's own `normSubPath`. -/
def hintPath (p : Text) : Text := if trimSlash p = ['.'] then [] else trimSlash p

def skillPath (hint dir : Text) : Cleaned := subtreePath (hintPath hint) dir

def marketplaceSkill (hint : Text) (repoTar : Body) (sha name : Text) : Except LensError Resolved :=
  match w.tar.read repoTar with
  | none => .error .discover
  | some ms =>
    match discoverSkillsInTree fm ms hint with
    | none => .error .discover
    | some (root, skills) =>
      match skills.find? fun s => s.name = name with
      | none => .error .skillNotFound
      | some s =>
        match sliceSkillSubtree w.tar ms root (skillPath hint s.dir) with
        | none => .error .sliceSkill
        | some sliced => stageSkill w fm sliced sha name

def withClone (cache : Option FetchCache) (repo : Repo)
    (k : Body → Text → Except LensError Resolved) :
    Except LensError Resolved × Option FetchCache :=
  match cloneRepo w cache repo with
  | (.error e, cache) => (.error (.resolve e), cache)
  | (.ok (repoTar, sha), cache) => (k repoTar sha, cache)

def resolveDirectPlugin (cache : Option FetchCache) (repo : RepoEntry) (name : Text) :
    Except LensError Resolved × Option FetchCache :=
  if name ≠ repo.name then (.error .nameMismatch, cache)
  else withClone w cache repo.repo fun repoTar sha => (stagePlugin w repoTar sha).mapError .resolve

def resolveDirectSkill (cache : Option FetchCache) (repo : RepoEntry) (name : Text) :
    Except LensError Resolved × Option FetchCache :=
  withClone w cache repo.repo fun repoTar sha => directSkill w fm repoTar sha name

def resolveSkillMarketplace (cache : Option FetchCache) (repo : RepoEntry) (name : Text) :
    Except LensError Resolved × Option FetchCache :=
  withClone w cache repo.repo fun repoTar sha =>
    marketplaceSkill w fm repo.skillsRootHint repoTar sha name

structure Request where
  repo : RepoEntry
  name : Text
  lens : Lens
  deriving DecidableEq, Repr

def resolveWithCache (cache : Option FetchCache) (q : Request) :
    Except LensError Resolved × Option FetchCache :=
  match q.lens with
  | .plugin => resolveDirectPlugin w cache q.repo q.name
  | .skill => resolveDirectSkill w fm cache q.repo q.name
  | .pluginMarketplace =>
    let r := resolvePluginMarketplace w cache q.repo.repo q.name
    (r.1.mapError .resolve, r.2)
  | .skillMarketplace => resolveSkillMarketplace w fm cache q.repo q.name
  | .unknown => (.error .unknownLens, cache)

def resolve (q : Request) : Except LensError Resolved := (resolveWithCache w fm none q).1

def resolveAll : Option FetchCache → List Request → List (Except LensError Resolved)
  | _, [] => []
  | cache, q :: qs =>
    let r := resolveWithCache w fm cache q
    r.1 :: resolveAll r.2 qs

end Resolve

end AchProofs.Localpkg
