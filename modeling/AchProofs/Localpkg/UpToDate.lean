import AchProofs.Localpkg.Spots

namespace AchProofs.Localpkg

open Foundation.Links Foundation.Percent Cli.Extract Contentkit Gitfetch Skills

/-- The test of `update`: the entry's commit is the one that it resolves to now. -/
def upToDate (resolvedSHA : Text) (rr : Resolved) : Bool := rr.sha = resolvedSHA

/-- What a resolution takes of a commit's tree, and how. -/
inductive Place
  | root
  | skill
  | skills (hint : Text)
  | slice (sub : Cleaned)
  | subtree (sub : Text)
  deriving DecidableEq, Repr

/-- What a place comes to in a commit's tree: the directory of a plugin, a file that is the archive
of one, or the directory of a skill, in the tree or as discovery reads it. -/
inductive Spot
  | dir (p : List Name)
  | archive (body : Bytes)
  | skill (p : List Name)
  | listed (p : List Name)
  deriving DecidableEq, Repr

/-- The files and directories at a spot, as they lie in the tree. -/
def Spot.contents (c : Tar) (t : Worktree) (name : Text) : Spot → Staged
  | .dir p => fun q => leafAt t (p ++ q)
  | .archive body => ((c.untar body).getD []).foldl Staged.put fun _ => none
  | .skill p => nest (leafAt t) name p
  | .listed p => nest (laidAt (gitView t)) name p

/-- The spot of a place. A path is cleaned, and the links on it are followed. -/
def Finds (host : Host) (t : Worktree) (name : Text) : Place → Spot → Prop
  | .root, x => x = .dir []
  | .slice sub, x => x = .dir sub.segs
  | .subtree sub, x => ∃ p, Leads host t sub p ∧ (t.find p = some .dir ∧ x = .dir p ∨
      ∃ body exec, t.find p = some (.file body exec) ∧ x = .archive body)
  | .skill, x => ∃ p, HasSkill t p ∧ (∀ p', HasSkill t p' → p ≤ p') ∧ x = .skill p
  | .skills hint, x => x = .listed ((clean (hintPath hint)).segs ++ [name])

theorem finds_unique {host : Host} {t : Worktree} {name : Text} {p : Place} {x y : Spot}
    (hx : Finds host t name p x) (hy : Finds host t name p y) : x = y := by
  cases p with
  | root => exact hx.trans hy.symm
  | slice sub => exact hx.trans hy.symm
  | skills hint => exact hx.trans hy.symm
  | skill =>
    obtain ⟨p, hp, hleast, rfl⟩ := hx
    obtain ⟨p', hp', hleast', rfl⟩ := hy
    rw [le_antisymm (hleast p' hp') (hleast' p hp)]
  | subtree sub =>
    obtain ⟨p, hp, hcase⟩ := hx
    obtain ⟨p', hp', hcase'⟩ := hy
    obtain rfl := leads_unique hp hp'
    obtain ⟨hdir, rfl⟩ | ⟨body, exec, hfile, rfl⟩ := hcase <;>
      obtain ⟨hdir', rfl⟩ | ⟨body', exec', hfile', rfl⟩ := hcase' <;> simp_all

def specPlace (repo : Repo) (spec : Spec) : Place :=
  if spec.url = repo.cloneURL ∧ (clean spec.subtree).segs = [] then .root
  else if spec.url = repo.cloneURL then .slice (clean spec.subtree)
  else .subtree spec.subtree

section Places

variable (w : World) (fm : Frontmatter)

/-- The place that the lens leads to, for a marketplace's plugin by the entry it has there now. -/
def placeOf (cache : Option FetchCache) (q : Request) : Option Place :=
  match q.lens with
  | .plugin => some .root
  | .skill => some .skill
  | .skillMarketplace => some (.skills q.repo.skillsRootHint)
  | .pluginMarketplace =>
    match (cloneRepo w cache q.repo.repo).1 with
    | .error _ => none
    | .ok (repoTar, _) =>
      ((findEntry w repoTar q.name).toOption.bind (buildEntrySpec w q.repo.repo)).map
        (specPlace q.repo.repo)
  | .unknown => none

def stageAt (t : Worktree) (sha name : Text) : Place → Except LensError Resolved
  | .root => (stagePlugin w (.tar (packed w.tar t [])) sha).mapError .resolve
  | .skill => directSkill w fm (.tar (packed w.tar t [])) sha name
  | .skills hint => marketplaceSkill w fm hint (.tar (packed w.tar t [])) sha name
  | .slice sub =>
    match sliceSubtree w.tar pluginEntryMaxFileBytes (packed w.tar t []) sub with
    | none => .error (.resolve .slice)
    | some ms => (stagePlugin w (.tar ms) sha).mapError .resolve
  | .subtree sub =>
    match tarSubtree w.tar w.host t sub with
    | .error e => .error (.resolve (.fetch e))
    | .ok body => (stagePlugin w body sha).mapError .resolve

/-- A resolution stages the place of its request, from the tree of the commit it reports. -/
def StagedAt (cache : Option FetchCache) (q : Request) (r : Resolved) : Prop :=
  ∃ p url t, placeOf w cache q = some p ∧ w.remote.tree url r.sha = some t ∧
    stageAt w fm t r.sha q.name p = .ok r

/-- The request leads to the spot in the tree of the commit. -/
def Lands (cache : Option FetchCache) (q : Request) (sha : Text) (t : Worktree) (x : Spot) : Prop :=
  ∃ p url, placeOf w cache q = some p ∧ w.remote.tree url sha = some t ∧ Finds w.host t q.name p x

end Places

section Staged

variable {w : World} {fm : Frontmatter} {cache : Option FetchCache} {q : Request} {r : Resolved}
  {name sha : Text}

theorem ok_of_mapError {ε ε' α : Type} {f : ε → ε'} {x : Except ε α} {a : α}
    (h : x.mapError f = .ok a) : x = .ok a := by
  cases x with
  | error e => cases h
  | ok b => exact congrArg Except.ok (Except.ok.inj h)

theorem staged_stagePlugin {body : Body} (h : stagePlugin w body sha = .ok r) :
    ∃ ms, w.tar.read body = some ms ∧ ms ≠ [] ∧ r = ⟨sha, ms.foldl Staged.put fun _ => none⟩ := by
  obtain ⟨ms, s, hread, hverify, hstage, rfl⟩ := stagePlugin_ok_iff.mp h
  refine ⟨ms, hread, ?_, ?_⟩
  · rintro rfl
    exact not_stages_nil ⟨hverify, s, hstage⟩
  · unfold stageTar at hstage
    split at hstage <;> cases hstage
    rfl

/-- What is staged from a place is what the tree has there. -/
theorem contents_of_stageAt {t : Worktree} {p : Place} (h : stageAt w fm t sha name p = .ok r) :
    ∃ x, Finds w.host t name p x ∧ r = ⟨sha, x.contents w.tar t name⟩ := by
  cases p with
  | root =>
    obtain ⟨ms, hread, hne, rfl⟩ := staged_stagePlugin (ok_of_mapError h)
    cases hread
    refine ⟨.dir [], rfl, ?_⟩
    rw [packed, foldl_put_below (fun _ => .slash) hne]
    rfl
  | skill =>
    obtain ⟨p, hp, hleast, rfl⟩ := staged_directSkill h
    exact ⟨.skill p, ⟨p, hp, hleast, rfl⟩, rfl⟩
  | skills hint => exact ⟨_, rfl, staged_marketplaceSkill h⟩
  | slice sub =>
    rw [stageAt] at h
    split at h
    · cases h
    rename_i ms hslice
    obtain ⟨ms, hread, hne, rfl⟩ := staged_stagePlugin (ok_of_mapError h)
    cases hread
    have hsub : sub.segs ≠ [] := by
      intro hnil
      simp [sliceSubtree, reroot, hnil] at hslice
    obtain ⟨-, -, rfl, -⟩ := (sliceSubtree_eq_some_iff hsub).mp hslice
    refine ⟨.dir sub.segs, rfl, ?_⟩
    rw [foldl_put_below (fun ns => by rw [List.append_nil]; exact .bare) hne]
    rfl
  | subtree sub =>
    rw [stageAt] at h
    split at h
    · cases h
    rename_i body htar
    obtain ⟨ms, hread, hne, rfl⟩ := staged_stagePlugin (ok_of_mapError h)
    obtain ⟨p, hp, ⟨hdir, rfl⟩ | ⟨bytes, exec, hfile, rfl⟩⟩ := tarSubtree_ok_iff.mp htar
    · cases hread
      refine ⟨.dir p, ⟨p, hp, .inl ⟨hdir, rfl⟩⟩, ?_⟩
      rw [packed, foldl_put_below (fun _ => .slash) hne]
      rfl
    · refine ⟨.archive bytes, ⟨p, hp, .inr ⟨bytes, exec, hfile, rfl⟩⟩, ?_⟩
      have hread : w.tar.untar bytes = some ms := hread
      rw [Spot.contents, hread]
      rfl

theorem sha_of_stageAt {t : Worktree} {p : Place} (h : stageAt w fm t sha name p = .ok r) :
    r.sha = sha := by
  obtain ⟨x, -, rfl⟩ := contents_of_stageAt h
  rfl

/-- The clone of a repository is the tree of the commit that comes with it. -/
theorem withClone_ok (hc : Filled w cache) {repo : Repo}
    {k : Body → Text → Except LensError Resolved}
    (h : (withClone w cache repo k).1 = .ok r) :
    ∃ t s, w.remote.tree repo.cloneURL s = some t ∧ k (.tar (packed w.tar t [])) s = .ok r := by
  unfold withClone at h
  split at h
  · cases h
  · rename_i body s cache' hclone
    obtain ⟨t, htree, rfl⟩ := cloneRepo_ok hc.honest (congrArg Prod.fst hclone)
    exact ⟨t, s, htree, h⟩

theorem stagedAt_entry (hc : Filled w cache) (hlens : q.lens = .pluginMarketplace)
    (h : (resolvePluginMarketplace w cache q.repo.repo q.name).1 = .ok r) :
    StagedAt w fm cache q r := by
  unfold resolvePluginMarketplace at h
  split at h
  · cases h
  rename_i repoTar sha cache' hclone
  split at h
  · cases h
  rename_i src hfind
  split at h
  · cases h
  rename_i spec hspec
  obtain ⟨t, htree, rfl⟩ := cloneRepo_ok hc.honest (congrArg Prod.fst hclone)
  have hplace : placeOf w cache q = some (specPlace q.repo.repo spec) := by
    simp [placeOf, hlens, hclone, hfind, Except.toOption, hspec]
  have hc' : Filled w cache' := by
    have := hc.fetch ⟨q.repo.repo.cloneURL, q.repo.repo.ref, [], [], q.repo.repo.scheme⟩
    rwa [← cloneRepo, hclone] at this
  unfold installEntry at h
  split_ifs at h with hroot hown
  · dsimp only at h
    obtain rfl := sha_of_stagePlugin h
    refine ⟨_, _, t, hplace, htree, ?_⟩
    rw [specPlace, if_pos hroot, stageAt, h]
    rfl
  · split at h
    · cases h
    rename_i ms hslice
    dsimp only at h
    obtain rfl := sha_of_stagePlugin h
    refine ⟨_, _, t, hplace, htree, ?_⟩
    have hslice :
        sliceSubtree w.tar pluginEntryMaxFileBytes (packed w.tar t []) (clean spec.subtree) =
        some ms := hslice
    rw [specPlace, if_neg hroot, if_pos hown, stageAt, hslice]
    exact congrArg (Except.mapError _) h
  · split at h
    · cases h
    rename_i body entrySHA cache'' hfetch
    obtain ⟨t', hcheck, htar⟩ := fetch_ok (honest_fetch hc'.honest (congrArg Prod.fst hfetch))
    obtain ⟨htree', hne⟩ := checkout_ok hcheck
    have hne : entrySHA ≠ [] := hne
    rw [if_neg hne] at h
    obtain rfl := sha_of_stagePlugin h
    refine ⟨_, _, t', hplace, htree', ?_⟩
    have htar : tarSubtree w.tar w.host t' spec.subtree = .ok body := htar
    rw [specPlace, if_neg hroot, if_neg hown, stageAt, htar]
    exact congrArg (Except.mapError _) h

theorem stagedAt_of_resolve (hc : Filled w cache) (h : (resolveWithCache w fm cache q).1 = .ok r) :
    StagedAt w fm cache q r := by
  unfold resolveWithCache at h
  cases hlens : q.lens with
  | plugin =>
    simp only [hlens, resolveDirectPlugin] at h
    split_ifs at h
    obtain ⟨t, s, htree, hstage⟩ := withClone_ok hc h
    obtain rfl := sha_of_stagePlugin (ok_of_mapError hstage)
    exact ⟨.root, _, t, by rw [placeOf, hlens], htree, hstage⟩
  | skill =>
    simp only [hlens, resolveDirectSkill] at h
    obtain ⟨t, s, htree, hstage⟩ := withClone_ok hc h
    obtain rfl := sha_of_stageAt (p := .skill) hstage
    exact ⟨.skill, _, t, by rw [placeOf, hlens], htree, hstage⟩
  | skillMarketplace =>
    simp only [hlens, resolveSkillMarketplace] at h
    obtain ⟨t, s, htree, hstage⟩ := withClone_ok hc h
    obtain rfl := sha_of_stageAt (p := .skills _) hstage
    exact ⟨.skills _, _, t, by rw [placeOf, hlens], htree, hstage⟩
  | pluginMarketplace =>
    simp only [hlens] at h
    exact stagedAt_entry hc hlens (ok_of_mapError h)
  | unknown =>
    simp only [hlens] at h
    cases h

end Staged

/-- A commit stands for one tree, wherever and whenever a server shows it. -/
def OneTree (remote remote' : Remote) : Prop :=
  ∀ url url' sha t t', remote.tree url sha = some t → remote'.tree url' sha = some t' → t' = t

def pluginCommit : Text := List.replicate 40 'c'

def twoPlugins : Worktree where
  items := [([['a']], .dir), ([['a'], "commands".toList], .dir),
    ([['a'], "commands".toList, ['x']], .file [1] false),
    ([['b']], .dir), ([['b'], "commands".toList], .dir),
    ([['b'], "commands".toList, ['x']], .file [2] false)]
  distinct := by decide +kernel
  named := by decide +kernel
  parents := by decide +kernel

def marketTree (moved : Bool) : Worktree where
  items := [([".claude-plugin".toList], .dir),
    (marketplacePath, .file (if moved then [2] else [1]) false)]
  distinct := by cases moved <;> decide +kernel
  named := by cases moved <;> decide +kernel
  parents := by cases moved <;> decide +kernel

def marketRemote (moved : Bool) : Remote where
  refs url ref :=
    if ref ≠ branchRef "main".toList then none
    else if url = partsURL then some pluginCommit
    else some (if moved then secondCommit else firstCommit)
  tree _ sha :=
    if sha = pluginCommit then some twoPlugins
    else if sha = firstCommit then some (marketTree false)
    else if sha = secondCommit then some (marketTree true)
    else none
  cloneBytes _ _ _ := 0

/-- Its plugin is in the other repository, in the directory `a`, and later in the one given. -/
def market (later : Text) : World where
  tar := ⟨fun _ => none, fun _ => false⟩
  host := shopHost
  remote := marketRemote false
  decode json := some [⟨['p'],
    ⟨.gitSubdir, partsURL, [], if json = [2] then later else ['a'], "main".toList, []⟩⟩]
  attaches _ _ := true

def marketPlugin (later : Text) (moved : Bool) : Except LensError Resolved :=
  (resolveWithCache { market later with remote := marketRemote moved } (fun _ => none)
    (some fun _ => none) ⟨shopEntry, ['p'], .pluginMarketplace⟩).1

/-- The commands of a plugin, which an adapter copies. -/
def commandWrites (s : Staged) : List Name → Option Leaf := fun p => s ("commands".toList :: p)

theorem oneTree_market (moved : Bool) : OneTree (marketRemote false) (marketRemote moved) :=
  fun _ _ _ _ _ h h' => Option.some.inj (h'.symm.trans h)

theorem exists_of_sha {x : Except LensError Resolved} {sha : Text}
    (h : x.toOption.map Resolved.sha = some sha) : ∃ r, x = .ok r ∧ r.sha = sha := by
  cases x with
  | error e => cases h
  | ok r => exact ⟨r, rfl, Option.some.inj h⟩

end AchProofs.Localpkg
