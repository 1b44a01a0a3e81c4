import AchProofs.Localpkg.SlicedTree

namespace AchProofs.Localpkg

open Foundation.Links Foundation.Percent Cli.Extract
  Cli.Contain Contentkit Gitfetch

section Worktree

variable {t : Worktree} {p q : List Name} {it : Item}

theorem find_eq_some_iff (hp : p ≠ []) : t.find p = some it ↔ (p, it) ∈ t.items := by
  unfold Worktree.find
  rw [if_neg hp, Option.map_eq_some_iff]
  constructor
  · rintro ⟨x, hx, rfl⟩
    have hname : x.1 = p := by simpa using List.find?_some hx
    rw [← hname]
    exact List.mem_of_find?_eq_some hx
  · intro h
    obtain ⟨x, hx⟩ : ∃ x, t.items.find? (fun x => x.1 = p) = some x := by
      rw [← Option.isSome_iff_exists, List.find?_isSome]
      exact ⟨(p, it), h, by simp⟩
    have hname : x.1 = p := by simpa using List.find?_some hx
    have heq := List.inj_on_of_nodup_map t.distinct (List.mem_of_find?_eq_some hx) h hname
    exact ⟨x, hx, by rw [heq]⟩

theorem find_parent {n : Name} (h : t.find (p ++ [n]) = some it) : t.find p = some .dir := by
  have hmem := (find_eq_some_iff (by simp)).mp h
  rcases t.parents _ hmem with hp | hp <;> rw [List.dropLast_concat] at hp
  · rw [hp]; rfl
  · by_cases hnil : p = []
    · rw [hnil]; rfl
    · exact (find_eq_some_iff hnil).mpr hp

theorem find_above (h : t.find (p ++ q) = some it) (hq : q ≠ []) : t.find p = some .dir := by
  induction q using List.reverseRecOn generalizing it with
  | nil => exact absurd rfl hq
  | append_singleton q n ih =>
    rw [← List.append_assoc] at h
    by_cases hnil : q = []
    · rw [hnil, List.append_nil] at h
      exact find_parent h
    · exact ih (find_parent h) hnil

theorem cloned_below (host : Host) (p : List Name) :
    host.cloned t (host.root ++ p) = (t.find p).map Item.node := by
  simp [Host.cloned]

theorem evalSymlinks_cloned (host : Host) (h : t.find p = some .dir) :
    evalSymlinks (host.cloned t) (host.root ++ p) = .ok (host.root ++ p) := by
  have hdirs : ∀ m, m ≠ [] → m <+: host.root ++ p → host.cloned t ([] ++ m) = some .dir := by
    intro m hm hpre
    rw [List.nil_append]
    by_cases hin : host.root <+: m
    · obtain ⟨m', rfl⟩ := hin
      obtain ⟨rest, rfl⟩ := (List.prefix_append_right_inj _).mp hpre
      rw [cloned_below]
      by_cases hrest : rest = []
      · rw [hrest, List.append_nil] at h
        rw [h]
        rfl
      · rw [find_above h hrest]
        rfl
    · rw [Host.cloned, if_neg hin]
      refine host.above m hm ?_
      exact (List.prefix_or_prefix_of_prefix hpre (List.prefix_append _ _)).resolve_right hin
  exact walk_names_ok (fun _ => rfl) hdirs

theorem evalSymlinks_root (host : Host) (t : Worktree) :
    evalSymlinks (host.cloned t) host.root = .ok host.root := by
  have h := evalSymlinks_cloned (t := t) (p := []) host rfl
  rwa [List.append_nil] at h

end Worktree

def packed (c : Tar) (t : Worktree) (p : List Name) : List Member :=
  (t.below p).filterMap (c.pack ['/'])

/-- The path of a subtree leads to a place of the tree. -/
def Leads (host : Host) (t : Worktree) (subtree : Text) (p : List Name) : Prop :=
  (clean subtree).escapes = false ∧
    evalSymlinks (host.cloned t) (host.root ++ (clean subtree).segs) = .ok (host.root ++ p)

variable {host : Host} {subtree : Text} {c : Tar}

theorem leads_segs {t : Worktree} (hesc : (clean subtree).escapes = false)
    (hdir : t.find (clean subtree).segs = some .dir) : Leads host t subtree (clean subtree).segs :=
  ⟨hesc, evalSymlinks_cloned host hdir⟩

theorem leads_unique {t : Worktree} {p q : List Name} (hp : Leads host t subtree p)
    (hq : Leads host t subtree q) : p = q :=
  List.append_cancel_left (Except.ok.inj (hp.2.symm.trans hq.2))

theorem tarSubtree_of_leads {t : Worktree} {p : List Name} (h : Leads host t subtree p) :
    tarSubtree c host t subtree =
      match t.find p with
      | some .dir => .ok (.tar (packed c t p))
      | some (.file body _) => .ok (.raw body)
      | _ => .error .notRegular := by
  unfold tarSubtree
  by_cases hsub : subtree = []
  · subst hsub
    rw [leads_unique h (leads_segs (by decide) rfl)]
    rfl
  · rw [if_neg hsub, h.1, evalSymlinks_root, h.2]
    simp only [Bool.false_eq_true, if_false, List.prefix_append, not_true, List.drop_left]
    rfl

theorem leads_of_tarSubtree {t : Worktree} {body : Body}
    (h : tarSubtree c host t subtree = .ok body) : ∃ p, Leads host t subtree p := by
  by_cases hsub : subtree = []
  · subst hsub
    exact ⟨_, leads_segs (by decide) rfl⟩
  · unfold tarSubtree at h
    rw [if_neg hsub, evalSymlinks_root] at h
    by_cases hesc : (clean subtree).escapes
    · rw [if_pos hesc] at h
      cases h
    · rw [if_neg hesc] at h
      dsimp only at h
      split at h
      · cases h
      · rename_i realStart heval
        split_ifs at h with hin
        obtain ⟨p, rfl⟩ := hin
        exact ⟨p, Bool.of_not_eq_true hesc, heval⟩

theorem tarSubtree_ok_iff {t : Worktree} {body : Body} :
    tarSubtree c host t subtree = .ok body ↔
      ∃ p, Leads host t subtree p ∧ (t.find p = some .dir ∧ body = .tar (packed c t p) ∨
        ∃ bytes exec, t.find p = some (.file bytes exec) ∧ body = .raw bytes) := by
  constructor
  · intro h
    obtain ⟨p, hp⟩ := leads_of_tarSubtree h
    rw [tarSubtree_of_leads hp] at h
    refine ⟨p, hp, ?_⟩
    rcases hfind : t.find p with _ | _ | ⟨bytes, exec⟩ | target <;> rw [hfind] at h <;> cases h
    · exact .inl ⟨rfl, rfl⟩
    · exact .inr ⟨bytes, exec, rfl, rfl⟩
  · rintro ⟨p, hp, ⟨hdir, rfl⟩ | ⟨bytes, exec, hfile, rfl⟩⟩
    · rw [tarSubtree_of_leads hp, hdir]
    · rw [tarSubtree_of_leads hp, hfile]

theorem checkout_ok {r : Remote} {spec : Spec} {t : Worktree} (h : checkout r spec = .ok t) :
    r.tree spec.url spec.sha = some t ∧ spec.sha ≠ [] := by
  unfold checkout at h
  cases htree : r.tree spec.url spec.sha with
  | none =>
    simp only [htree] at h
    split_ifs at h
  | some t' =>
    simp only [htree] at h
    split_ifs at h with _ _ _ hsha
    cases h
    refine ⟨rfl, fun hnil => hsha ?_⟩
    rw [hnil]
    rfl

section Staging

variable {w : World} {body : Body} {sha : Text} {ms : List Member} {r : Resolved}

def Stages (w : World) (ms : List Member) : Prop :=
  verifyPluginContents (headers 0 ms) = .ok () ∧ ∃ s, stageTar w.host ms = .ok s

theorem stagePlugin_ok_iff :
    stagePlugin w body sha = .ok r ↔
      ∃ ms s, w.tar.read body = some ms ∧ verifyPluginContents (headers 0 ms) = .ok () ∧
        stageTar w.host ms = .ok s ∧ r = ⟨sha, s⟩ := by
  unfold stagePlugin
  cases hread : w.tar.read body with
  | none => simp
  | some ms =>
    cases hverify : verifyPluginContents (headers 0 ms) with
    | error e => simp [hverify]
    | ok u =>
      cases hstage : stageTar w.host ms with
      | error e => simp [hverify, hstage]
      | ok s => simp [hverify, hstage, eq_comm]

theorem exists_stagePlugin_iff :
    (∃ r, stagePlugin w body sha = .ok r) ↔ ∃ ms, w.tar.read body = some ms ∧ Stages w ms := by
  simp only [stagePlugin_ok_iff, Stages]
  constructor
  · rintro ⟨r, ms, s, hread, hverify, hstage, -⟩
    exact ⟨ms, hread, hverify, s, hstage⟩
  · rintro ⟨ms, hread, hverify, s, hstage⟩
    exact ⟨_, ms, s, hread, hverify, hstage, rfl⟩

theorem sha_of_stagePlugin (h : stagePlugin w body sha = .ok r) : r.sha = sha := by
  obtain ⟨_, _, _, _, _, rfl⟩ := stagePlugin_ok_iff.mp h
  rfl

theorem not_stages_nil : ¬ Stages w [] := fun h => nomatch h.1

end Staging

section Cache

variable {w : World} {cache : Option FetchCache} {spec : Spec} {body : Body} {sha : Text}

/-- A cache as the fetches of one invocation fill it. -/
inductive Filled (w : World) : Option FetchCache → Prop
  | off : Filled w none
  | new : Filled w (some fun _ => none)
  | fetch {cache : Option FetchCache} (spec : Spec) (h : Filled w cache) :
      Filled w (cachedFetch w cache spec).2

/-- What the cache has under a key was fetched there, at the commit that stands with it. -/
def Honest (w : World) (cache : Option FetchCache) : Prop :=
  ∀ key body sha, cache.bind (· key) = some (body, sha) →
    fetch w.tar w.host w.remote ⟨key.url, key.ref, sha, key.subtree, key.scheme⟩ = .ok body

theorem cachedFetch_hit (h : cache.bind (· (fetchCacheKey spec)) = some (body, sha)) :
    cachedFetch w cache spec = (.ok (body, sha), cache) := by
  simp only [cachedFetch, h]

theorem cachedFetch_miss (h : cache.bind (· (fetchCacheKey spec)) = none) :
    (cachedFetch w cache spec).1 = (cachedFetch w none spec).1 := by
  simp only [cachedFetch, h, Option.bind_none]
  cases commit w spec with
  | none => rfl
  | some sha => dsimp only; split <;> rfl

theorem cachedFetch_none_ok_iff :
    (cachedFetch w none spec).1 = .ok (body, sha) ↔
      commit w spec = some sha ∧
        fetch w.tar w.host w.remote { spec with sha := sha } = .ok body := by
  simp only [cachedFetch, Option.bind_none]
  cases hcommit : commit w spec with
  | none => simp
  | some s =>
    cases hfetch : fetch w.tar w.host w.remote { spec with sha := s } with
    | error e =>
      simp only [hfetch, reduceCtorEq, false_iff, Option.some.injEq]
      rintro ⟨rfl, h⟩
      rw [hfetch] at h
      cases h
    | ok b =>
      simp only [hfetch, Except.ok.injEq, Prod.mk.injEq, Option.some.injEq]
      constructor
      · rintro ⟨rfl, rfl⟩
        exact ⟨rfl, hfetch⟩
      · rintro ⟨rfl, h⟩
        rw [hfetch] at h
        exact ⟨Except.ok.inj h, rfl⟩

theorem cachedFetch_cache (w : World) (cache : Option FetchCache) (spec : Spec) :
    (cachedFetch w cache spec).2 = cache ∨
      ∃ body sha, fetch w.tar w.host w.remote { spec with sha := sha } = .ok body ∧
        (cachedFetch w cache spec).2 =
          cache.map fun c => Function.update c (fetchCacheKey spec) (some (body, sha)) := by
  unfold cachedFetch
  split
  · exact .inl rfl
  · split
    · exact .inl rfl
    · rename_i sha _
      split
      · exact .inl rfl
      · rename_i body hfetch
        exact .inr ⟨body, sha, hfetch, rfl⟩

theorem Filled.honest (h : Filled w cache) : Honest w cache := by
  induction h with
  | off => exact nofun
  | new => exact nofun
  | @fetch cache spec _ ih =>
    rcases cachedFetch_cache w cache spec with hsame | ⟨body, sha, hfetch, hnew⟩
    · rw [hsame]
      exact ih
    · rw [hnew]
      intro key body' sha' hkey
      cases cache with
      | none => cases hkey
      | some c =>
        simp only [Option.map_some, Option.bind_some] at hkey
        by_cases hk : key = fetchCacheKey spec
        · subst hk
          rw [Function.update_self] at hkey
          cases hkey
          exact hfetch
        · rw [Function.update_of_ne hk] at hkey
          exact ih key body' sha' hkey

theorem honest_fetch (hc : Honest w cache) (h : (cachedFetch w cache spec).1 = .ok (body, sha)) :
    fetch w.tar w.host w.remote { spec with sha := sha } = .ok body := by
  cases hhit : cache.bind (· (fetchCacheKey spec)) with
  | some r =>
    obtain ⟨b, s⟩ := r
    rw [cachedFetch_hit hhit] at h
    cases h
    exact hc _ _ _ hhit
  | none =>
    rw [cachedFetch_miss hhit] at h
    exact (cachedFetch_none_ok_iff.mp h).2

theorem fetch_ok {s : Spec} (h : fetch w.tar w.host w.remote s = .ok body) :
    ∃ t, checkout w.remote s = .ok t ∧ tarSubtree w.tar w.host t s.subtree = .ok body := by
  unfold fetch at h
  cases hc : checkout w.remote s with
  | error e => rw [hc] at h; cases h
  | ok t => rw [hc] at h; exact ⟨t, rfl, h⟩

end Cache

end AchProofs.Localpkg
