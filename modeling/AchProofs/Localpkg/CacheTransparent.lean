import AchProofs.Localpkg.Lenses
import AchProofs.Localpkg.EntryPins

namespace AchProofs.Localpkg

open Foundation.Links Foundation.Percent Cli.Extract
  Contentkit Gitfetch Skills

def Repo.spec (r : Repo) : Spec := ⟨r.cloneURL, r.ref, [], [], r.scheme⟩

section Specs

variable (w : World)

def entrySpec (repo : Repo) (name : Text) : Option Spec :=
  match (cloneRepo w none repo).1 with
  | .error _ => none
  | .ok (repoTar, _) =>
    ((findEntry w repoTar name).toOption.bind (buildEntrySpec w repo)).filter
      fun spec => spec.url ≠ repo.cloneURL

def specsOf (q : Request) : List Spec :=
  match q.lens with
  | .plugin => if q.name = q.repo.name then [q.repo.repo.spec] else []
  | .skill => [q.repo.repo.spec]
  | .pluginMarketplace => q.repo.repo.spec :: (entrySpec w q.repo.repo q.name).toList
  | .skillMarketplace => [q.repo.repo.spec]
  | .unknown => []

/-- Two specifications with the same cache key name the same commit. -/
def OneCommit (specs : List Spec) : Prop :=
  ∀ s ∈ specs, ∀ t ∈ specs, fetchCacheKey s = fetchCacheKey t → commit w s = commit w t

def FetchedBy (specs : List Spec) (c : FetchCache) : Prop :=
  ∀ key r, c key = some r → ∃ s ∈ specs, fetchCacheKey s = key ∧ (cachedFetch w none s).1 = .ok r

end Specs

section Transparent

variable {w : World} {specs : List Spec} {c : FetchCache} {spec : Spec}

theorem fetched_congr {s t : Spec} (hkey : fetchCacheKey s = fetchCacheKey t)
    (hcommit : commit w s = commit w t) : (cachedFetch w none s).1 = (cachedFetch w none t).1 := by
  obtain ⟨url, ref, sha, subtree, scheme⟩ := s
  obtain ⟨url', ref', sha', subtree', scheme'⟩ := t
  cases hkey
  simp only [cachedFetch, Option.bind_none, hcommit]
  rfl

theorem cachedFetch_off (spec : Spec) : (cachedFetch w none spec).2 = none := by
  rcases cachedFetch_cache w none spec with h | ⟨_, _, _, h⟩ <;> exact h

theorem FetchedBy.update (hc : FetchedBy w specs c) (hs : spec ∈ specs) {r : Body × Text}
    (hr : (cachedFetch w none spec).1 = .ok r) :
    FetchedBy w specs (Function.update c (fetchCacheKey spec) (some r)) := by
  intro key r' hkey
  by_cases hk : key = fetchCacheKey spec
  · subst hk
    rw [Function.update_self] at hkey
    cases hkey
    exact ⟨spec, hs, rfl, hr⟩
  · rw [Function.update_of_ne hk] at hkey
    exact hc key r' hkey

theorem cachedFetch_miss_eq (hmiss : c (fetchCacheKey spec) = none) :
    cachedFetch w (some c) spec = ((cachedFetch w none spec).1,
      some (match (cachedFetch w none spec).1 with
        | .ok r => Function.update c (fetchCacheKey spec) (some r)
        | .error _ => c)) := by
  have hbind : (some c).bind (fun m : FetchCache => m (fetchCacheKey spec)) = none := hmiss
  simp only [cachedFetch, hbind, Option.bind_none]
  cases commit w spec with
  | none => rfl
  | some sha =>
    dsimp only
    cases fetch w.tar w.host w.remote { spec with sha := sha } with
    | error e => rfl
    | ok body => rfl

theorem cachedFetch_transparent (hone : OneCommit w specs) (hc : FetchedBy w specs c)
    (hs : spec ∈ specs) :
    ∃ c', cachedFetch w (some c) spec = ((cachedFetch w none spec).1, some c') ∧
      FetchedBy w specs c' := by
  cases hhit : c (fetchCacheKey spec) with
  | some r =>
    obtain ⟨t, ht, hkey, hfetched⟩ := hc _ r hhit
    obtain ⟨body, sha⟩ := r
    have hsame := fetched_congr hkey (hone t ht spec hs hkey)
    have hbind : (some c).bind (fun m : FetchCache => m (fetchCacheKey spec)) = some (body, sha) :=
      hhit
    exact ⟨c, by rw [cachedFetch_hit hbind, ← hsame, hfetched], hc⟩
  | none =>
    refine ⟨_, cachedFetch_miss_eq hhit, ?_⟩
    cases hfetch : (cachedFetch w none spec).1 with
    | error e => exact hc
    | ok r => exact hc.update hs hfetch

theorem withClone_transparent (hone : OneCommit w specs) (hc : FetchedBy w specs c) {repo : Repo}
    (hs : repo.spec ∈ specs) (k : Body → Text → Except LensError Resolved) :
    ∃ c', withClone w (some c) repo k = ((withClone w none repo k).1, some c') ∧
      FetchedBy w specs c' := by
  obtain ⟨c', hclone, hc'⟩ := cachedFetch_transparent hone hc hs
  refine ⟨c', ?_, hc'⟩
  have hrepo : cloneRepo w (some c) repo = ((cloneRepo w none repo).1, some c') := hclone
  rw [withClone, withClone, hrepo]
  generalize cloneRepo w none repo = r
  obtain ⟨_ | ⟨repoTar, sha⟩, _⟩ := r
  · rfl
  · rfl

theorem installEntry_transparent (hone : OneCommit w specs) (hc : FetchedBy w specs c) {repo : Repo}
    {repoTar : Body} {sha : Text} (hs : spec.url ≠ repo.cloneURL → spec ∈ specs) :
    ∃ c', installEntry w (some c) repo repoTar sha spec =
      ((installEntry w none repo repoTar sha spec).1, some c') ∧ FetchedBy w specs c' := by
  unfold installEntry
  split_ifs with hroot hown
  · exact ⟨c, rfl, hc⟩
  · refine ⟨c, ?_, hc⟩
    split <;> rfl
  · obtain ⟨c', hfetch, hc'⟩ := cachedFetch_transparent hone hc (hs hown)
    refine ⟨c', ?_, hc'⟩
    rw [hfetch]
    generalize cachedFetch w none spec = r
    obtain ⟨_ | ⟨body, entrySHA⟩, _⟩ := r
    · rfl
    · rfl

theorem resolvePluginMarketplace_transparent (hone : OneCommit w specs) (hc : FetchedBy w specs c)
    {repo : Repo} {name : Text} (hs : repo.spec ∈ specs)
    (hentry : ∀ spec, entrySpec w repo name = some spec → spec ∈ specs) :
    ∃ c', resolvePluginMarketplace w (some c) repo name =
      ((resolvePluginMarketplace w none repo name).1, some c') ∧ FetchedBy w specs c' := by
  obtain ⟨c', hclone, hc'⟩ := cachedFetch_transparent hone hc hs
  have hrepo : cloneRepo w (some c) repo = ((cloneRepo w none repo).1, some c') := hclone
  have hoff : (cloneRepo w none repo).2 = none := cachedFetch_off repo.spec
  have hspec : ∀ repoTar sha, (cloneRepo w none repo).1 = .ok (repoTar, sha) → ∀ src,
      findEntry w repoTar name = .ok src → ∀ spec, buildEntrySpec w repo src = some spec →
        spec.url ≠ repo.cloneURL → spec ∈ specs := by
    intro repoTar sha hcloned src hfind spec hbuild hurl
    refine hentry spec ?_
    simp [entrySpec, hcloned, hfind, Except.toOption, hbuild, hurl]
  rw [resolvePluginMarketplace, resolvePluginMarketplace, hrepo]
  generalize cloneRepo w none repo = r at hoff hspec
  obtain ⟨cloned, off⟩ := r
  dsimp only at hoff hspec ⊢
  subst hoff
  cases cloned with
  | error e => exact ⟨c', rfl, hc'⟩
  | ok r =>
    obtain ⟨repoTar, sha⟩ := r
    dsimp only
    cases hfind : findEntry w repoTar name with
    | error e => exact ⟨c', rfl, hc'⟩
    | ok src =>
      dsimp only
      cases hbuild : buildEntrySpec w repo src with
      | none => exact ⟨c', rfl, hc'⟩
      | some spec =>
        exact installEntry_transparent hone hc' (hspec repoTar sha rfl src hfind spec hbuild)

theorem resolveWithCache_transparent (fm : Frontmatter) (hone : OneCommit w specs)
    (hc : FetchedBy w specs c) {q : Request}
    (hs : ∀ s ∈ specsOf w q, s ∈ specs) :
    ∃ c', resolveWithCache w fm (some c) q = (resolve w fm q, some c') ∧ FetchedBy w specs c' := by
  rw [resolve, resolveWithCache, resolveWithCache]
  unfold specsOf at hs
  cases hlens : q.lens with
  | plugin =>
    rw [hlens] at hs
    dsimp only at hs ⊢
    rw [resolveDirectPlugin, resolveDirectPlugin]
    split_ifs with hname
    · exact ⟨c, rfl, hc⟩
    · rw [if_pos (not_not.mp hname)] at hs
      exact withClone_transparent hone hc (hs _ (List.mem_singleton_self _)) _
  | skill =>
    rw [hlens] at hs
    exact withClone_transparent hone hc (hs _ (List.mem_singleton_self _)) _
  | skillMarketplace =>
    rw [hlens] at hs
    exact withClone_transparent hone hc (hs _ (List.mem_singleton_self _)) _
  | unknown => exact ⟨c, rfl, hc⟩
  | pluginMarketplace =>
    rw [hlens] at hs
    obtain ⟨c', hres, hc'⟩ := resolvePluginMarketplace_transparent hone hc
      (hs _ (List.mem_cons_self ..)) fun spec (hspec : entrySpec w q.repo.repo q.name =
        some spec) =>
        hs spec (by simp [hspec])
    refine ⟨c', ?_, hc'⟩
    dsimp only
    rw [hres]

end Transparent

/-- In an invocation in which any two specifications that share a cache key name the same commit,
every resolution through the shared cache returns what it returns without a cache, be it a staged
tree and a commit or an error. -/
theorem cache_transparent (w : World) (fm : Frontmatter) (qs : List Request)
    (hone : OneCommit w (qs.flatMap (specsOf w))) :
    resolveAll w fm (some fun _ => none) qs = qs.map (resolve w fm) := by
  have hrun : ∀ rest c, (∀ q ∈ rest, q ∈ qs) → FetchedBy w (qs.flatMap (specsOf w)) c →
      resolveAll w fm (some c) rest = rest.map (resolve w fm) := by
    intro rest
    induction rest with
    | nil => exact fun _ _ _ => rfl
    | cons q rest ih =>
      intro c hrest hc
      have hq : q ∈ qs := hrest q (List.mem_cons_self ..)
      obtain ⟨c', hres, hc'⟩ := resolveWithCache_transparent fm hone hc
        fun s hs => List.mem_flatMap.mpr ⟨q, hq, hs⟩
      rw [resolveAll, hres, List.map_cons,
        ih c' (fun x hx => hrest x (List.mem_cons_of_mem _ hx)) hc']
  exact hrun qs _ (fun _ h => h) nofun

def partsURL : Text := "https://git.example/parts.git".toList

def partsSource (sha : Text) : Source := ⟨.gitSubdir, partsURL, [], "p".toList, "main".toList, sha⟩

def partsShop (p q : Text) : World :=
  { shop localSource with
    decode := fun _ => some [⟨"p".toList, partsSource p⟩, ⟨"q".toList, partsSource q⟩] }

def shopEntry : RepoEntry := ⟨"shop".toList, shopURL, [], .bearer, []⟩

def bothPlugins : List Request :=
  [⟨shopEntry, "p".toList, .pluginMarketplace⟩, ⟨shopEntry, "q".toList, .pluginMarketplace⟩]

theorem cache_transparent_one_pin :
    resolveAll (partsShop firstCommit firstCommit) (fun _ => none) (some fun _ => none)
      bothPlugins =
      bothPlugins.map (resolve (partsShop firstCommit firstCommit) fun _ => none) :=
  cache_transparent (partsShop firstCommit firstCommit) (fun _ => none) bothPlugins (by
    unfold OneCommit
    decide +kernel)

/-- Two pins of one repository: the second plugin is staged at the commit of the first. -/
theorem second_pin_ignored :
    resolveAll (partsShop firstCommit secondCommit) (fun _ => none) (some fun _ => none)
      bothPlugins ≠
      bothPlugins.map (resolve (partsShop firstCommit secondCommit) fun _ => none) := by
  intro h
  have hcached :
      (resolveAll (partsShop firstCommit secondCommit) (fun _ => none) (some fun _ => none)
      bothPlugins).map (fun r => r.toOption.map fun t => (t.sha, t.staged ["SKILL.md".toList])) =
      [some (firstCommit, some (.file [1] 0o644)), some (firstCommit, some (.file [1] 0o644))] := by
    decide +kernel
  have hplain : (bothPlugins.map (resolve (partsShop firstCommit secondCommit) fun _ => none)).map
      (fun r => r.toOption.map fun t => (t.sha, t.staged ["SKILL.md".toList])) =
      [some (firstCommit, some (.file [1] 0o644)),
        some (secondCommit, some (.file [2] 0o644))] := by
    decide +kernel
  rw [h, hplain] at hcached
  exact absurd hcached (by decide +kernel)

end AchProofs.Localpkg
