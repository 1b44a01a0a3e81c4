import AchProofs.Localpkg.FetchedTree

namespace AchProofs.Localpkg

open Foundation.Links Foundation.Percent Cli.Extract
  Cli.Contain Contentkit Gitfetch

def Agree (a b : Except ResolveError Resolved) : Prop := ∀ r, a = .ok r ↔ b = .ok r

/-- A commit has a plugin that a fetch of the specification installs: in the directory its path
leads to, or packed in a file. -/
def Fetchable (w : World) (spec : Spec) (sha : Text) : Prop :=
  ∃ t p, checkout w.remote { spec with sha := sha } = .ok t ∧ Leads w.host t spec.subtree p ∧
    (t.find p = some .dir ∧ Stages w (packed w.tar t p) ∨
      ∃ body exec ms, t.find p = some (.file body exec) ∧ w.tar.untar body = some ms ∧ Stages w ms)

def Small (t : Worktree) (p : List Name) : Prop :=
  ∀ q body exec, (q, Item.file body exec) ∈ t.below p → body.length ≤ pluginEntryMaxFileBytes

/-- The tree of the marketplace has a plugin that can be sliced from its archive, or is one. -/
def Sliceable (w : World) (t : Worktree) (sub : Cleaned) : Prop :=
  t.find sub.segs = some .dir ∧ Stages w (packed w.tar t sub.segs) ∧
    (sub.segs ≠ [] → sub.absolute = false ∧ Small t sub.segs)

/-- The specification stands for a directory of the very tree the marketplace was read from. -/
structure NamesOwn (w : World) (t : Worktree) (sha : Text) (spec : Spec) : Prop where
  commit : commit w spec = some sha
  checkout : checkout w.remote { spec with sha := sha } = .ok t
  relative : (clean spec.subtree).escapes = false
  dir : t.find (clean spec.subtree).segs = some .dir
  small : (clean spec.subtree).segs ≠ [] → Small t (clean spec.subtree).segs

/-- An entry in the marketplace's own repository names the commit that the marketplace was read at
and a plain directory there; any other was not fetched before at another commit. Or there is nothing
to install either way. -/
def InstallsPinned (w : World) (cache : Option FetchCache) (repo : Repo) (sha : Text)
    (spec : Spec) :
    Prop :=
  if spec.url = repo.cloneURL then
    ∀ t, w.remote.tree repo.cloneURL sha = some t →
      NamesOwn w t sha spec ∨
        ¬ Sliceable w t (clean spec.subtree) ∧ ∀ s, commit w spec = some s → ¬ Fetchable w spec s
  else
    ∀ body cached, cache.bind (· (fetchCacheKey spec)) = some (body, cached) →
      commit w spec = some cached ∨
        ¬ Fetchable w spec cached ∧ ∀ s, commit w spec = some s → ¬ Fetchable w spec s

variable {w : World} {cache : Option FetchCache} {repo : Repo} {spec : Spec} {t : Worktree}
  {body : Body} {sha : Text} {r : Resolved}

theorem fetchable_iff :
    Fetchable w spec sha ↔
      ∃ body r, fetch w.tar w.host w.remote { spec with sha := sha } = .ok body ∧
        stagePlugin w body sha = .ok r := by
  constructor
  · rintro ⟨t, p, hcheckout, hleads, hholds⟩
    have hfetch : fetch w.tar w.host w.remote { spec with sha := sha } =
        tarSubtree w.tar w.host t spec.subtree := by
      simp only [fetch, hcheckout]
    rcases hholds with ⟨hdir, hstages⟩ | ⟨bytes, exec, ms, hfile, huntar, hstages⟩
    · obtain ⟨r, hr⟩ : ∃ r, stagePlugin w (.tar (packed w.tar t p)) sha = .ok r :=
        exists_stagePlugin_iff.mpr ⟨_, rfl, hstages⟩
      exact ⟨_, r, hfetch.trans (tarSubtree_ok_iff.mpr ⟨p, hleads, .inl ⟨hdir, rfl⟩⟩), hr⟩
    · obtain ⟨r, hr⟩ : ∃ r, stagePlugin w (.raw bytes) sha = .ok r :=
        exists_stagePlugin_iff.mpr ⟨ms, huntar, hstages⟩
      exact ⟨.raw bytes, r,
        hfetch.trans (tarSubtree_ok_iff.mpr ⟨p, hleads, .inr ⟨bytes, exec, hfile, rfl⟩⟩), hr⟩
  · rintro ⟨body, r, hfetch, hstage⟩
    obtain ⟨t, hcheckout, htar⟩ := fetch_ok hfetch
    obtain ⟨ms, hread, hstages⟩ := exists_stagePlugin_iff.mp ⟨r, hstage⟩
    obtain ⟨p, hleads, ⟨hdir, rfl⟩ | ⟨bytes, exec, hfile, rfl⟩⟩ := tarSubtree_ok_iff.mp htar
    · cases hread
      exact ⟨t, p, hcheckout, hleads, .inl ⟨hdir, hstages⟩⟩
    · exact ⟨t, p, hcheckout, hleads, .inr ⟨bytes, exec, ms, hfile, hread, hstages⟩⟩

variable {p : List Name} {src : Source}

theorem below_named : ∀ x ∈ t.below p, x.1 ≠ [] ∧ ∀ n ∈ x.1, proper n := by
  intro x hx
  obtain ⟨y, hy, hsome⟩ := List.mem_filterMap.mp hx
  split_ifs at hsome with hcond
  cases hsome
  obtain ⟨⟨rest, hrest⟩, hne⟩ := hcond
  have hdrop : y.1.drop p.length = rest := by rw [← hrest, List.drop_left]
  dsimp only
  rw [hdrop]
  refine ⟨fun hnil => hne ?_, fun n hn => (t.named y hy).2 n ?_⟩
  · rw [← hrest, hnil, List.append_nil]
  · rw [← hrest]
    exact List.mem_append_right _ hn

theorem find_of_mem_below {x : List Name × Item} (hx : x ∈ t.below p) : t.find p = some .dir := by
  obtain ⟨y, hy, hsome⟩ := List.mem_filterMap.mp hx
  split_ifs at hsome with hcond
  obtain ⟨⟨rest, hrest⟩, hne⟩ := hcond
  have hfind : t.find (p ++ rest) = some y.2 := by
    rw [hrest]
    exact (find_eq_some_iff (t.named y hy).1).mpr hy
  refine find_above hfind fun hnil => hne ?_
  rw [← hrest, hnil, List.append_nil]

theorem any_tooLong_iff (c : Tar) (slash : Text) :
    ((t.below p).filterMap (c.pack slash)).any (tooLong pluginEntryMaxFileBytes) = false ↔
      Small t p := by
  rw [List.any_eq_false]
  constructor
  · intro h q body exec hmem
    have hpack : c.pack slash (q, .file body exec) =
      some (c.member (render q) .reg (if exec then 0o755 else 0o644) body) := rfl
    have := h _ (List.mem_filterMap.mpr ⟨_, hmem, hpack⟩)
    simpa [tooLong, Tar.member] using this
  · intro h m hm
    obtain ⟨⟨q, it⟩, hmem, hpack⟩ := List.mem_filterMap.mp hm
    cases it with
    | dir => cases hpack; simp [tooLong, Tar.member]
    | file body exec =>
      cases hpack
      simpa [tooLong, Tar.member] using h q body exec hmem
    | link target => cases hpack

theorem sliceSubtree_eq_some_iff {c : Tar} {sub : Cleaned} {ms : List Member}
    (hsub : sub.segs ≠ []) :
    sliceSubtree c pluginEntryMaxFileBytes (packed c t []) sub = some ms ↔
      sub.absolute = false ∧ Small t sub.segs ∧ ms = (t.below sub.segs).filterMap (c.pack []) ∧
        ms ≠ [] := by
  obtain ⟨absolute, segs⟩ := sub
  unfold sliceSubtree packed
  cases absolute with
  | true =>
    dsimp only
    rw [filterMap_reroot_absolute]
    simp
  | false =>
    dsimp only at hsub ⊢
    rw [filterMap_reroot hsub]
    by_cases hany : ((t.below segs).filterMap (c.pack [])).any (tooLong pluginEntryMaxFileBytes)
    · rw [if_pos (.inl hany)]
      simp only [reduceCtorEq, true_and, false_iff]
      rintro ⟨hsmall, -, -⟩
      rw [(any_tooLong_iff _ _).mpr hsmall] at hany
      cases hany
    · have hsmall : Small t segs := (any_tooLong_iff _ _).mp (Bool.of_not_eq_true hany)
      by_cases hnil : (t.below segs).filterMap (c.pack []) = []
      · rw [if_pos (.inr hnil), hnil]
        simp only [reduceCtorEq, true_and, false_iff]
        rintro ⟨-, rfl, hne⟩
        exact hne rfl
      · rw [if_neg (by simp [hany, hnil])]
        simp only [Option.some.injEq, true_and]
        constructor
        · rintro rfl
          exact ⟨hsmall, rfl, hnil⟩
        · rintro ⟨-, rfl, -⟩
          rfl

theorem installEntry_own (hurl : spec.url = repo.cloneURL) :
    (installEntry w cache repo (.tar (packed w.tar t [])) sha spec).1 = .ok r ↔
      Sliceable w t (clean spec.subtree) ∧
        stagePlugin w (.tar (packed w.tar t (clean spec.subtree).segs)) sha = .ok r := by
  have hstages : ∀ {ms : List Member}, stagePlugin w (.tar ms) sha = .ok r → Stages w ms := by
    intro ms h
    obtain ⟨ms', hread, h'⟩ := exists_stagePlugin_iff.mp ⟨r, h⟩
    cases hread
    exact h'
  unfold installEntry
  by_cases hsegs : (clean spec.subtree).segs = []
  · rw [if_pos ⟨hurl, hsegs⟩]
    unfold Sliceable
    rw [hsegs]
    exact ⟨fun h => ⟨⟨rfl, hstages h, fun hne => absurd rfl hne⟩, h⟩, fun h => h.2⟩
  · rw [if_neg (fun h => hsegs h.2), if_pos hurl]
    have halike := alike_pack (c := w.tar) (below_named (t := t) (p := (clean spec.subtree).segs))
    have hcongr := stagePlugin_congr halike w sha
    have hread : (w.tar.read (.tar (packed w.tar t []))).bind
        (sliceSubtree w.tar pluginEntryMaxFileBytes · (clean spec.subtree)) =
          sliceSubtree w.tar pluginEntryMaxFileBytes (packed w.tar t []) (clean spec.subtree) := rfl
    rw [hread]
    cases hslice : sliceSubtree w.tar pluginEntryMaxFileBytes (packed w.tar t [])
      (clean spec.subtree) with
    | none =>
      simp only [reduceCtorEq, false_iff]
      rintro ⟨⟨hdir, hst, hrel⟩, -⟩
      obtain ⟨habs, hsmall⟩ := hrel hsegs
      have hne : (t.below (clean spec.subtree).segs).filterMap (w.tar.pack []) ≠ [] := by
        intro hnil
        rw [hnil, List.forall₂_nil_right_iff] at halike
        unfold packed at hst
        rw [halike] at hst
        exact not_stages_nil hst
      have := (sliceSubtree_eq_some_iff hsegs).mpr ⟨habs, hsmall, rfl, hne⟩
      rw [hslice] at this
      cases this
    | some ms =>
      obtain ⟨habs, hsmall, rfl, hne⟩ := (sliceSubtree_eq_some_iff hsegs).mp hslice
      dsimp only
      rw [← hcongr]
      obtain ⟨m, hm⟩ := List.exists_mem_of_ne_nil _ hne
      obtain ⟨x, hx, -⟩ := List.mem_filterMap.mp hm
      exact ⟨fun h => ⟨⟨find_of_mem_below hx, hstages h, fun _ => ⟨habs, hsmall⟩⟩, h⟩, fun h => h.2⟩

theorem fetchDirect_ok_iff (hspec : buildEntrySpec w repo src = some spec) :
    fetchDirect w repo src = .ok r ↔
      ∃ s body, commit w spec = some s ∧
        fetch w.tar w.host w.remote { spec with sha := s } = .ok body ∧
          stagePlugin w body s = .ok r := by
  unfold fetchDirect
  rw [hspec]
  dsimp only
  cases hfetch : (cachedFetch w none spec).1 with
  | error e =>
    simp only [reduceCtorEq, false_iff]
    rintro ⟨s, body, hcommit, hbody, -⟩
    have := cachedFetch_none_ok_iff.mpr ⟨hcommit, hbody⟩
    rw [hfetch] at this
    cases this
  | ok fetched =>
    obtain ⟨body, s⟩ := fetched
    obtain ⟨hcommit, hbody⟩ := cachedFetch_none_ok_iff.mp hfetch
    constructor
    · intro h
      exact ⟨s, body, hcommit, hbody, h⟩
    · rintro ⟨s', body', hcommit', hbody', h⟩
      cases hcommit.symm.trans hcommit'
      cases hbody.symm.trans hbody'
      exact h

theorem exists_fetchDirect_iff (hspec : buildEntrySpec w repo src = some spec) :
    (∃ r, fetchDirect w repo src = .ok r) ↔ ∃ s, commit w spec = some s ∧ Fetchable w spec s := by
  simp only [fetchDirect_ok_iff hspec, fetchable_iff]
  constructor
  · rintro ⟨r, s, body, hcommit, hfetch, hstage⟩
    exact ⟨s, hcommit, body, r, hfetch, hstage⟩
  · rintro ⟨s, hcommit, body, r, hfetch, hstage⟩
    exact ⟨r, s, body, hcommit, hfetch, hstage⟩

theorem cloneRepo_ok (hc : Honest w cache) (h : (cloneRepo w cache repo).1 = .ok (body, sha)) :
    ∃ t, w.remote.tree repo.cloneURL sha = some t ∧ body = .tar (packed w.tar t []) := by
  obtain ⟨t, hcheckout, htar⟩ := fetch_ok (honest_fetch hc h)
  refine ⟨t, (checkout_ok hcheckout).1, ?_⟩
  cases htar
  rfl

theorem agree_own (hspec : buildEntrySpec w repo src = some spec) (hurl : spec.url = repo.cloneURL)
    (htree : w.remote.tree repo.cloneURL sha = some t) :
    Agree (installEntry w cache repo (.tar (packed w.tar t [])) sha spec).1
      (fetchDirect w repo src) ↔
      NamesOwn w t sha spec ∨
        ¬ Sliceable w t (clean spec.subtree) ∧ ∀ s, commit w spec = some s →
          ¬ Fetchable w spec s := by
  constructor
  · intro hagree
    by_cases hslice : Sliceable w t (clean spec.subtree)
    · -- what is sliced is what was named
      obtain ⟨r, hr⟩ : ∃ r, stagePlugin w (.tar (packed w.tar t (clean spec.subtree).segs)) sha =
        .ok r :=
        exists_stagePlugin_iff.mpr ⟨_, rfl, hslice.2.1⟩
      obtain ⟨s, body, hcommit, hfetch, hstage⟩ :=
        (fetchDirect_ok_iff hspec).mp ((hagree r).mp ((installEntry_own hurl).mpr ⟨hslice, hr⟩))
      have hs : s = sha := (sha_of_stagePlugin hstage).symm.trans (sha_of_stagePlugin hr)
      subst hs
      obtain ⟨t', hcheckout, htar⟩ := fetch_ok hfetch
      have ht : some t' = some t := (checkout_ok hcheckout).1.symm.trans (hurl ▸ htree)
      cases ht
      obtain ⟨p, hleads, -⟩ := tarSubtree_ok_iff.mp htar
      exact .inl ⟨hcommit, hcheckout, hleads.1, hslice.1, fun hne => (hslice.2.2 hne).2⟩
    · refine .inr ⟨hslice, fun s hcommit hfetchable => hslice ?_⟩
      obtain ⟨r, hr⟩ := (exists_fetchDirect_iff hspec).mpr ⟨s, hcommit, hfetchable⟩
      exact ((installEntry_own hurl).mp ((hagree r).mpr hr)).1
  · rintro (hown | ⟨hslice, hfetch⟩) r
    · have hbody : fetch w.tar w.host w.remote { spec with sha := sha } =
          .ok (.tar (packed w.tar t (clean spec.subtree).segs)) := by
        simp only [fetch, hown.checkout]
        exact tarSubtree_ok_iff.mpr ⟨_, leads_segs hown.relative hown.dir, .inl ⟨hown.dir, rfl⟩⟩
      rw [installEntry_own hurl, fetchDirect_ok_iff hspec]
      constructor
      · rintro ⟨-, hr⟩
        exact ⟨sha, _, hown.commit, hbody, hr⟩
      · rintro ⟨s, body, hcommit, hfetch, hr⟩
        cases hown.commit.symm.trans hcommit
        cases hbody.symm.trans hfetch
        obtain ⟨ms, hread, hstages⟩ := exists_stagePlugin_iff.mp ⟨r, hr⟩
        cases hread
        have habs : (clean spec.subtree).absolute = false := by
          have := hown.relative
          simp only [Cleaned.escapes, Bool.or_eq_false_iff] at this
          exact this.1
        exact ⟨⟨hown.dir, hstages, fun hne => ⟨habs, hown.small hne⟩⟩, hr⟩
    · refine iff_of_false (fun h => hslice ((installEntry_own hurl).mp h).1) fun h => ?_
      obtain ⟨s, hcommit, hfetchable⟩ := (exists_fetchDirect_iff hspec).mp ⟨r, h⟩
      exact hfetch s hcommit hfetchable

theorem installEntry_fetched (hc : Honest w cache) (hurl : spec.url ≠ repo.cloneURL)
    {repoTar : Body} :
    (installEntry w cache repo repoTar sha spec).1 = .ok r ↔
      ∃ s body, (cachedFetch w cache spec).1 = .ok (body, s) ∧ stagePlugin w body s = .ok r := by
  unfold installEntry
  rw [if_neg (fun h => hurl h.1), if_neg hurl]
  cases hfetch : cachedFetch w cache spec with
  | mk res cache' =>
    cases res with
    | error e => simp
    | ok fetched =>
      obtain ⟨body, s⟩ := fetched
      have hne : s ≠ [] := by
        obtain ⟨t, hcheckout, -⟩ := fetch_ok (honest_fetch hc (congrArg Prod.fst hfetch))
        exact (checkout_ok hcheckout).2
      dsimp only
      rw [if_neg hne]
      constructor
      · intro h
        exact ⟨s, body, rfl, h⟩
      · rintro ⟨s', body', hok, h⟩
        cases hok
        exact h

theorem agree_fetched {repoTar : Body} (hspec : buildEntrySpec w repo src = some spec)
    (hc : Honest w cache) (hurl : spec.url ≠ repo.cloneURL) :
    Agree (installEntry w cache repo repoTar sha spec).1 (fetchDirect w repo src) ↔
      ∀ body cached, cache.bind (· (fetchCacheKey spec)) = some (body, cached) →
        commit w spec = some cached ∨
          ¬ Fetchable w spec cached ∧ ∀ s, commit w spec = some s → ¬ Fetchable w spec s := by
  cases hhit : cache.bind (· (fetchCacheKey spec)) with
  | none =>
    refine iff_of_true (fun r => ?_) nofun
    rw [installEntry_fetched hc hurl, cachedFetch_miss hhit, fetchDirect_ok_iff hspec]
    simp only [cachedFetch_none_ok_iff, and_assoc]
  | some fetched =>
    obtain ⟨body, s⟩ := fetched
    have hbody : fetch w.tar w.host w.remote { spec with sha := s } = .ok body := hc _ _ _ hhit
    have hserved : ∀ r, (installEntry w cache repo repoTar sha spec).1 = .ok r ↔
        stagePlugin w body s = .ok r := by
      intro r
      rw [installEntry_fetched hc hurl, cachedFetch_hit hhit]
      simp
    simp only [Option.some.injEq, Prod.mk.injEq, and_imp]
    constructor
    · rintro hagree _ _ rfl rfl
      by_cases hfetchable : Fetchable w spec s
      · obtain ⟨body', r, hfetch, hr⟩ := fetchable_iff.mp hfetchable
        cases hbody.symm.trans hfetch
        obtain ⟨s', body', hcommit, -, hstage⟩ :=
          (fetchDirect_ok_iff hspec).mp ((hagree r).mp ((hserved r).mpr hr))
        have hs : s' = s := (sha_of_stagePlugin hstage).symm.trans (sha_of_stagePlugin hr)
        exact .inl (hs ▸ hcommit)
      · refine .inr ⟨hfetchable, fun s' hcommit h => hfetchable ?_⟩
        obtain ⟨r, hr⟩ := (exists_fetchDirect_iff hspec).mpr ⟨s', hcommit, h⟩
        exact fetchable_iff.mpr ⟨body, r, hbody, (hserved r).mp ((hagree r).mpr hr)⟩
    · intro h r
      rw [hserved, fetchDirect_ok_iff hspec]
      rcases h body s rfl rfl with hcommit | ⟨hcached, hnamed⟩
      · constructor
        · intro hr
          exact ⟨s, body, hcommit, hbody, hr⟩
        · rintro ⟨s', body', hcommit', hbody', hr⟩
          cases hcommit.symm.trans hcommit'
          cases hbody.symm.trans hbody'
          exact hr
      · refine iff_of_false (fun hr => hcached (fetchable_iff.mpr ⟨body, r, hbody, hr⟩)) ?_
        rintro ⟨s', body', hcommit, hfetch, hr⟩
        exact hnamed s' hcommit (fetchable_iff.mpr ⟨body', r, hfetch, hr⟩)

theorem cloneRepo_cache (hurl : spec.url ≠ repo.cloneURL) :
    (cloneRepo w cache repo).2.bind (· (fetchCacheKey spec)) =
      cache.bind (· (fetchCacheKey spec)) := by
  unfold cloneRepo
  rcases cachedFetch_cache w cache ⟨repo.cloneURL, repo.ref, [], [], repo.scheme⟩ with h | ⟨_, _, _,
    h⟩
  · rw [h]
  · rw [h]
    cases cache with
    | none => rfl
    | some c =>
      refine Function.update_of_ne (fun heq => hurl ?_) ..
      exact congrArg Key.url heq

/-- A marketplace entry is installed as a direct fetch of its specification would, exactly if it
stands for the commit and the directory that it is served from, or there is nothing to install. -/
theorem entry_installs_pinned_iff (w : World) {cache : Option FetchCache} (hc : Filled w cache)
    (repo : Repo) (name : Text) {repoTar : Body} {sha : Text} {src : Source}
    (hclone : (cloneRepo w cache repo).1 = .ok (repoTar, sha))
    (hentry : findEntry w repoTar name = .ok src) :
    Agree (resolvePluginMarketplace w cache repo name).1 (fetchDirect w repo src) ↔
      ∀ spec, buildEntrySpec w repo src = some spec → InstallsPinned w cache repo sha spec := by
  have hc' : Honest w (cloneRepo w cache repo).2 := (hc.fetch _).honest
  obtain ⟨t, htree, rfl⟩ := cloneRepo_ok hc.honest hclone
  cases hspec : buildEntrySpec w repo src with
  | none =>
    refine iff_of_true (fun r => ?_) nofun
    unfold resolvePluginMarketplace fetchDirect
    generalize cloneRepo w cache repo = cloned at hclone
    obtain ⟨_, cache'⟩ := cloned
    cases hclone
    simp [hentry, hspec]
  | some spec =>
    have hresolve : (resolvePluginMarketplace w cache repo name).1 =
        (installEntry w (cloneRepo w cache repo).2 repo (.tar (packed w.tar t [])) sha spec).1 := by
      unfold resolvePluginMarketplace
      generalize cloneRepo w cache repo = cloned at hclone
      obtain ⟨_, cache'⟩ := cloned
      cases hclone
      simp [hentry, hspec]
    rw [hresolve]
    simp only [Option.some.injEq, forall_eq']
    unfold InstallsPinned
    split_ifs with hurl
    · rw [agree_own hspec hurl htree, htree]
      simp
    · rw [agree_fetched hspec hc' hurl, cloneRepo_cache hurl]

/-- A marketplace with one plugin, of which the skill changes with the second commit. -/
def shopTree (second : Bool) : Worktree where
  items := [([".claude-plugin".toList], .dir), (marketplacePath, .file [0x7b, 0x7d] false),
    (["p".toList], .dir),
    (["p".toList, "SKILL.md".toList], .file (if second then [2] else [1]) false)]
  distinct := by cases second <;> decide +kernel
  named := by cases second <;> (simp only [List.forall_mem_cons]; decide +kernel)
  parents := by cases second <;> (simp only [List.forall_mem_cons]; decide +kernel)

def shopHost : Host where
  tree p := if p = ["c".toList] ∨ p = ["s".toList] then some .dir else none
  root := ["c".toList]
  above := by
    intro m hm hpre
    rcases m with _ | ⟨a, _ | ⟨b, m⟩⟩
    · exact absurd rfl hm
    · obtain ⟨rfl, -⟩ := List.cons_prefix_cons.mp hpre
      decide +kernel
    · exact absurd hpre.length_le (by simp)
  stage := ["s".toList]
  stage_ne := by decide +kernel
  staging := by decide +kernel
  empty := by simp
  privileged := false

def shopURL : Text := "https://git.example/shop.git".toList

def firstCommit : Text := List.replicate 40 'a'

def secondCommit : Text := List.replicate 40 'b'

/-- Its `main` is at the first commit, and its catalog has the plugin from this source. -/
def shop (src : Source) : World where
  tar := ⟨fun _ => none, fun _ => false⟩
  host := shopHost
  remote :=
    { refs := fun _ ref => if ref = branchRef "main".toList then some firstCommit else none
      tree := fun _ sha =>
        if sha = firstCommit then some (shopTree false)
        else if sha = secondCommit then some (shopTree true)
        else none
      cloneBytes := fun _ _ _ => 0 }
  decode _ := some [⟨"p".toList, src⟩]
  attaches _ _ := true

def shopRepo : Repo := ⟨shopURL, "main".toList, .bearer⟩

def localSource : Source := ⟨.localPath, [], [], "./p".toList, [], []⟩

theorem entry_installs_pinned_iff_local :
    Agree (resolvePluginMarketplace (shop localSource) none shopRepo "p".toList).1
      (fetchDirect (shop localSource) shopRepo localSource) := by
  have hclone : (cloneRepo (shop localSource) none shopRepo).1 =
      .ok (.tar (packed (shop localSource).tar (shopTree false) []), firstCommit) := by
    rfl
  have hentry : findEntry (shop localSource)
      (.tar (packed (shop localSource).tar (shopTree false) [])) "p".toList = .ok localSource := by
    rfl
  refine (entry_installs_pinned_iff (shop localSource) .off shopRepo "p".toList hclone hentry).mpr
    ?_
  intro spec hspec
  cases hspec
  rw [InstallsPinned, if_pos rfl]
  intro t htree
  cases htree
  exact .inl ⟨rfl, rfl, by decide +kernel, by decide +kernel,
    fun _ => (any_tooLong_iff (shop localSource).tar []).mp (by decide +kernel)⟩

def pinnedSource : Source := ⟨.gitSubdir, shopURL, [], "p".toList, "main".toList, secondCommit⟩

/-- The pin is ignored: what is staged is the marketplace's own commit. -/
theorem pinned_entry_ignored :
    (∃ repoTar, (cloneRepo (shop pinnedSource) none shopRepo).1 = .ok (repoTar, firstCommit) ∧
        findEntry (shop pinnedSource) repoTar "p".toList = .ok pinnedSource) ∧
      ¬ Agree (resolvePluginMarketplace (shop pinnedSource) none shopRepo "p".toList).1
        (fetchDirect (shop pinnedSource) shopRepo pinnedSource) := by
  refine ⟨⟨_, rfl, rfl⟩, fun hagree => ?_⟩
  have hstaged :
      (resolvePluginMarketplace (shop pinnedSource) none shopRepo "p".toList).1.toOption.map
      (fun r => (r.sha, r.staged ["SKILL.md".toList])) =
        some (firstCommit, some (.file [1] 0o644)) := by decide +kernel
  have hdirect : (fetchDirect (shop pinnedSource) shopRepo pinnedSource).toOption.map
      (fun r => (r.sha, r.staged ["SKILL.md".toList])) =
        some (secondCommit, some (.file [2] 0o644)) := by decide +kernel
  cases hres : (resolvePluginMarketplace (shop pinnedSource) none shopRepo "p".toList).1 with
  | error e => rw [hres] at hstaged; cases hstaged
  | ok r =>
    rw [hres] at hstaged
    rw [(hagree r).mp hres] at hdirect
    exact absurd (hstaged.symm.trans hdirect) (by decide +kernel)

end AchProofs.Localpkg
