import AchProofs.Hydrate.Ledger

namespace AchProofs.Hydrate

open Foundation.Run

variable {α : Type}

/-- The environments hydrated into one tool root: each has a state file and a hydrate of its own,
the tree is one. A file is known by the path it is written to, which is its own place as long as no
directory on the way is a link. -/
structure SharedTree (α : Type) where
  disk : Disk α
  links : Dir → Bool
  saved : String → State α
  pass : String → Option (Pass α)

namespace SharedTree

def world (s : SharedTree α) (env : String) : World α := ⟨s.disk, s.saved env, s.pass env⟩

def put (s : SharedTree α) (env : String) (w : World α) : SharedTree α :=
  ⟨w.disk, s.links, Function.update s.saved env w.saved, Function.update s.pass env w.pass⟩

def prune (s : SharedTree α) (achDir : Dir) (dels : List (FileEntry α × List String)) :
    SharedTree α :=
  let tree := pruneEmptyDirs achDir (dels.map fun del => del.1.target) (s.disk, s.links)
  { s with disk := tree.1, links := tree.2 }

theorem world_put_self (s : SharedTree α) (env : String) (w : World α) :
    (s.put env w).world env = w := by
  simp [put, world]

theorem world_put_of_ne (s : SharedTree α) {env env' : String} (h : env' ≠ env) (w : World α) :
    (s.put env w).world env' = { s.world env' with disk := w.disk } := by
  simp [put, world, h]

end SharedTree

def SharedTree.achDir (env : String) : Dir := [".ach".toList, env.toList]

/-- The rows that the action takes off the tree. -/
def Act.dels (s : World α) : Act α → List (FileEntry α × List String)
  | .finish flag => (s.pass.map fun p => deletions (p.syncPrev flag) (p.syncNext flag)).getD []
  | _ => []

def sharedStep [DecidableEq α] (word : Char → Bool) (s : SharedTree α) (a : String × Act α) :
    Option (SharedTree α) :=
  (step word (s.world a.1) a.2).map fun w =>
    (s.put a.1 w).prune (SharedTree.achDir a.1) (a.2.dels (s.world a.1))

/-- A full uninstall of an environment. -/
def SharedTree.uninstall [DecidableEq α] (word : Char → Bool) (s : SharedTree α) (env : String) :
    Option (SharedTree α) :=
  let next := buildScopedEmpty (s.saved env) true false
  (sync word (walkEntries (s.saved env)) (walkEntries next) s.disk).map fun disk =>
    { s with disk := disk }.prune (achDir env)
    (deletions (walkEntries (s.saved env)) (walkEntries next))

/-- What the action writes lies apart from all that other environments have on record. -/
def ForeignApart (s : SharedTree α) (env : String) : Act α → Prop
  | .publish _ _ w => ∀ env', env' ≠ env → ∀ e ∈ (s.world env').rows,
      ∀ i ∈ e.items, ∀ j ∈ w.items, i.Apart j
  | _ => True

/-- No directory on the way to what the action writes is a link. -/
def Unlinked (s : SharedTree α) : Act α → Prop
  | .publish _ _ w => ∀ d ∈ parents w.path, s.links d = false
  | _ => True

def isEdit : Act α → Bool
  | .edit _ => true
  | _ => false

/-- Nobody edits the tree, the hydrate goes well in its own right, keeps clear of the rows of other
environments and writes through no link. -/
structure SharedAct (word : Char → Bool) (s : SharedTree α) (a : String × Act α) : Prop where
  unedited : isEdit a.2 = false
  safe : SafeAct word (s.world a.1) a.2
  foreign : ForeignApart s a.1 a.2
  unlinked : Unlinked s a.2

structure SharedInv (s : SharedTree α) : Prop where
  inv : ∀ env, Inv (s.world env)
  unlinked : ∀ env, ∀ e ∈ (s.world env).rows, ∀ d ∈ parents e.target, s.links d = false
  apart : ∀ env env', env' ≠ env → ∀ e ∈ (s.world env').rows, ∀ r ∈ (s.world env).rows,
    RowsApart e r

/-- What holds of a step of one environment: the rows it has afterwards are old ones, or that of
what it writes, which lies apart from what others have; and what lies apart from its rows still
stands. -/
structure Reach (s : World α) (a : Act α) (s' : World α) (foreign : List (FileEntry α)) : Prop where
  rows : ∀ r ∈ s'.rows, r ∈ s.rows ∨
    (∀ e ∈ foreign, RowsApart e r) ∧ ∃ b source w, a = .publish b source w ∧ r.target = w.path
  upheld : ∀ e ∈ foreign, (∀ r ∈ s.rows, RowsApart e r) → Upheld s.disk e → Upheld s'.disk e

theorem Inv.transfer {s : World α} {disk' : Disk α} (hi : Inv s)
    (h : ∀ e ∈ s.rows, Upheld s.disk e → Upheld disk' e) : Inv { s with disk := disk' } := by
  cases hp : s.pass with
  | none =>
    simp only [Inv, World.rows, hp] at hi h ⊢
    exact ⟨hi.apart, fun e he => h e he (hi.upheld e he)⟩
  | some p =>
    simp only [Inv, World.rows, hp] at hi h ⊢
    refine ⟨hi.apart, hi.sound, fun e he hap => ?_, hi.next.apart, fun r hr => ?_⟩
    · exact h e (List.mem_append_left _ he) (hi.kept e he hap)
    · exact h r (List.mem_append_right _ hr) (hi.next.upheld r hr)

section Step

variable [DecidableEq α] {word : Char → Bool} {s s' : World α} {foreign : List (FileEntry α)}

theorem reach_begin (hs : step word s .begin = some s') : Reach s .begin s' foreign := by
  cases hp : s.pass with
  | some p => simp [step, hp] at hs
  | none =>
    simp only [step, hp, Option.some.injEq] at hs
    subst hs
    refine ⟨fun r hr => .inl ?_, fun e _ _ hu => hu⟩
    have hmem : r ∈ walkEntries (reconcileVsDisk s.disk s.saved) := by
      simpa [World.rows, walkEntries, State.empty] using hr
    simpa only [World.rows, hp] using (reconcile_sublist s.disk s.saved).subset hmem

theorem reach_publish {b : Bucket} {source : String} {w : FileWrite α} (hi : Inv s)
    (ha : SafeAct word s (.publish b source w)) (hs : step word s (.publish b source w) = some s')
    (hforeign : ∀ e ∈ foreign, ∀ i ∈ e.items, ∀ j ∈ w.items, i.Apart j) :
    Reach s (.publish b source w) s' foreign := by
  obtain ⟨p, hp, rfl⟩ := Option.map_eq_some_iff.mp hs
  simp only [Inv, hp] at hi
  obtain ⟨disk', r, hpub, hitems, hl, -⟩ := (ha p hp).lands source hi
  have hapart : ∀ e ∈ foreign, RowsApart e r :=
    fun e he i hie j hj => hforeign e he i hie j (hitems ▸ hj)
  have htarget : r.target = w.path := by
    obtain ⟨i, hir⟩ := exists_mem_items r.target hl.orderly.sound
    have hiw : i ∈ w.items := hitems ▸ hir
    exact (target_of_mem_items hir).symm.trans (target_of_mem_items hiw)
  simp only [publishStep, hpub]
  refine ⟨fun r' hr' => ?_, fun e he _ hu => hl.upheld_of_apart hu (hapart e he)⟩
  simp only [World.rows, List.mem_append, mem_record] at hr'
  obtain hr' | hr' | rfl := hr'
  · exact .inl (by simp [World.rows, hp, hr'])
  · exact .inl (by simp [World.rows, hp, hr'])
  · exact .inr ⟨hapart, b, source, w, rfl, htarget⟩

theorem reach_finish {flag : Bool} (hi : Inv s) (ha : SafeAct word s (.finish flag))
    (hs : step word s (.finish flag) = some s') : Reach s (.finish flag) s' foreign := by
  cases hp : s.pass with
  | none => simp [step, hp] at hs
  | some p =>
    simp only [Inv, hp] at hi
    obtain ⟨disk', hd, hsync, -⟩ := hi.finish word (ha p hp)
    simp only [step, hp, hd, Option.map_some, Option.some.injEq] at hs
    subst hs
    have hrows : s.rows = walkEntries p.prev ++ walkEntries p.next := by simp only [World.rows, hp]
    refine ⟨fun r hr => .inl (by rw [hrows]; exact List.mem_append_right _ hr),
      fun e _ hap hu => ?_⟩
    refine ⟨hsync.orderly e hu.toOrderly, hu.intact.congr fun i hie => ?_⟩
    refine hsync.frame i fun r hr j hj _ => hap r ?_ i hie j hj
    rw [hrows]
    exact List.mem_append_left _ ((syncPrev_sublist p flag).subset hr)

theorem reach_step {a : Act α} (hi : Inv s) (hedit : isEdit a = false) (ha : SafeAct word s a)
    (hs : step word s a = some s')
    (hforeign : ∀ b source w, a = .publish b source w →
      ∀ e ∈ foreign, ∀ i ∈ e.items, ∀ j ∈ w.items, i.Apart j) : Reach s a s' foreign := by
  cases a with
  | edit disk => cases hedit
  | begin => exact reach_begin hs
  | publish b source w => exact reach_publish hi ha hs (hforeign b source w rfl)
  | finish flag => exact reach_finish hi ha hs

omit [DecidableEq α] in
theorem mem_of_mem_deletions {prev next : List (FileEntry α)} {del : FileEntry α × List String}
    (h : del ∈ deletions prev next) : del.1 ∈ prev := by
  obtain ⟨e, he, hdel⟩ := List.mem_filterMap.mp ((List.mem_insertionSort _).mp h)
  obtain ⟨keys, -, rfl⟩ := Option.map_eq_some_iff.mp hdel
  exact he

omit [DecidableEq α] in
theorem mem_rows_of_dels {a : Act α} {del : FileEntry α × List String} (h : del ∈ a.dels s) :
    del.1 ∈ s.rows := by
  cases a with
  | finish flag =>
    cases hp : s.pass with
    | none => simp [Act.dels, hp] at h
    | some p =>
      simp only [Act.dels, hp, Option.map_some, Option.getD_some] at h
      simp only [World.rows, hp]
      exact List.mem_append_left _ ((syncPrev_sublist p flag).subset (mem_of_mem_deletions h))
  | edit | begin | publish => cases h

end Step

variable [DecidableEq α] {word : Char → Bool} {s s' : SharedTree α}

omit [DecidableEq α] in
theorem SharedTree.prune_eq {dels : List (FileEntry α × List String)} {achDir : Dir}
    (h : ∀ del ∈ dels, ∀ d ∈ parents del.1.target, s.links d = false) :
    s.prune achDir dels = s := by
  rw [prune, pruneEmptyDirs_of_unlinked]
  intro t ht
  obtain ⟨del, hdel, rfl⟩ := List.mem_map.mp ht
  exact h del hdel

theorem sharedInv_step {a : String × Act α} (h : SharedInv s) (ha : SharedAct word s a)
    (hs : sharedStep word s a = some s') : SharedInv s' := by
  obtain ⟨w, hstep, rfl⟩ := Option.map_eq_some_iff.mp hs
  obtain ⟨env, a⟩ := a
  have hprune : (s.put env w).prune (SharedTree.achDir env) (a.dels (s.world env)) = s.put env w :=
    SharedTree.prune_eq fun del hdel => h.unlinked env _ (mem_rows_of_dels hdel)
  change SharedInv ((s.put env w).prune (SharedTree.achDir env) (a.dels (s.world env)))
  rw [hprune]
  have hreach : ∀ env', env' ≠ env → Reach (s.world env) a w (s.world env').rows := fun env' hne =>
    reach_step (h.inv env) ha.unedited ha.safe hstep fun b source w hw => by
      cases hw
      exact ha.foreign env' hne
  have hrows : ∀ env', env' ≠ env → ((s.put env w).world env').rows = (s.world env').rows := by
    intro env' hne
    rw [s.world_put_of_ne hne]
    rfl
  have hnew : ∀ env', env' ≠ env → ∀ e ∈ (s.world env').rows, ∀ r ∈ w.rows, RowsApart e r :=
    fun env' hne e he r hr =>
      ((hreach env' hne).rows r hr).elim (h.apart env env' hne e he r) (fun hap => hap.1 e he)
  refine ⟨fun env' => ?_, fun env' e he d hd => ?_, fun x y hxy e he r hr => ?_⟩
  · by_cases hne : env' = env
    · subst hne
      rw [s.world_put_self]
      exact inv_step (h.inv env') ha.safe hstep
    · rw [s.world_put_of_ne hne]
      exact (h.inv env').transfer fun e he =>
        (hreach env' hne).upheld e he (h.apart env env' hne e he)
  · by_cases hne : env' = env
    · subst hne
      rw [s.world_put_self] at he
      -- no other environment is needed to see where the rows come from
      have hown : Reach (s.world env') a w [] :=
        reach_step (h.inv env') ha.unedited ha.safe hstep (by simp)
      obtain hold | ⟨-, b, source, w, rfl, ht⟩ := hown.rows e he
      · exact h.unlinked env' e hold d hd
      · exact ha.unlinked d (ht ▸ hd)
    · rw [hrows env' hne] at he
      exact h.unlinked env' e he d hd
  · by_cases hx : x = env
    · subst hx
      rw [hrows y hxy] at he
      rw [s.world_put_self] at hr
      exact hnew y hxy e he r hr
    rw [hrows x hx] at hr
    by_cases hy : y = env
    · subst hy
      rw [s.world_put_self] at he
      exact (hnew x hx r hr e he).symm
    · rw [hrows y hy] at he
      exact h.apart x y hxy e he r hr

omit [DecidableEq α] in
theorem sharedInv_empty (hs : ∀ env, s.saved env = .empty) (hp : ∀ env, s.pass env = none) :
    SharedInv s := by
  have hrows : ∀ env, (s.world env).rows = [] := fun env => by
    simp [World.rows, SharedTree.world, hp, hs, walkEntries, State.empty]
  refine ⟨fun env => ?_, fun env e he => ?_, fun env env' _ e he => ?_⟩
  · simp only [Inv, SharedTree.world, hp, hs]
    exact standing_empty s.disk
  · rw [hrows] at he
    cases he
  · rw [hrows] at he
    cases he

/-- After hydrates of any environments that keep clear of each other's rows, uninstalling one leaves
all that another has on record as it was recorded. -/
theorem uninstall_leaves_other_environment {acts : List (String × Act α)}
    (hs : ∀ env, s.saved env = .empty) (hp : ∀ env, s.pass env = none)
    (ha : Along (sharedStep word) (SharedAct word) s acts)
    (hrun : run (sharedStep word) s acts = some s') (env env' : String) (hne : env' ≠ env)
    (hpe : s'.pass env = none) (hpe' : s'.pass env' = none) :
    ∃ t, s'.uninstall word env = some t ∧ ∀ e ∈ walkEntries (s'.saved env'), Intact t.disk e := by
  have h : SharedInv s' :=
    run_preserves (fun _ _ _ => sharedInv_step) (sharedInv_empty hs hp) ha hrun
  have hi := h.inv env
  have hi' := h.inv env'
  have hap := h.apart env env' hne
  have hlinks := h.unlinked env
  simp only [Inv, World.rows, SharedTree.world, hpe, hpe'] at hi hi' hap hlinks
  obtain ⟨disk', hd, hsync⟩ :
      ∃ disk', sync word (walkEntries (s'.saved env)) [] s'.disk = some disk' ∧
        Synced (walkEntries (s'.saved env)) [] s'.disk disk' :=
    sync_synced word hi.apart (fun e he => (hi.upheld e he).toOrderly) (by simp) (by simp)
  have hprune : { s' with disk := disk' }.prune (SharedTree.achDir env)
      (deletions (walkEntries (s'.saved env)) []) = { s' with disk := disk' } :=
    SharedTree.prune_eq fun del hdel => hlinks _ (mem_of_mem_deletions hdel)
  refine ⟨{ s' with disk := disk' }, ?_, fun e he => (hi'.upheld e he).intact.congr fun i hie => ?_⟩
  · have hnext : walkEntries (buildScopedEmpty (s'.saved env) true false) = [] := rfl
    rw [SharedTree.uninstall, hnext, hd, Option.map_some, hprune]
  · exact hsync.frame i fun r hr j hj _ => hap e he r hr i hie j hj

def unshared (links : List Dir) : SharedTree ℕ :=
  ⟨fun _ => none, fun d => links.contains d, fun _ => .empty, fun _ => none⟩

def hydrateOne (env : String) (b : Bucket) (source : String) (w : FileWrite ℕ) :
    List (String × Act ℕ) :=
  [(env, .begin), (env, .publish b source w), (env, .finish false)]

def serverAndSkill : List (String × Act ℕ) :=
  hydrateOne "one" .adapter "" (serverWrite 2) ++ hydrateOne "two" .skills "x" skillFile

theorem skill_survives_uninstall :
    ∃ s t, run (sharedStep Char.isAlphanum) (unshared []) serverAndSkill = some s ∧
      walkEntries (s.saved "two") ≠ [] ∧ s.uninstall Char.isAlphanum "one" = some t ∧
      ∀ e ∈ walkEntries (s.saved "two"), Intact t.disk e := by
  have halong : Along (sharedStep Char.isAlphanum) (SharedAct Char.isAlphanum) (unshared [])
      serverAndSkill := by
    refine along_cons rfl ⟨rfl, trivial, trivial, trivial⟩ (along_cons rfl ?_ (along_cons rfl ?_
      (along_cons rfl ⟨rfl, trivial, trivial, trivial⟩
        (along_cons rfl ?_ (along_cons rfl ?_ trivial)))))
    · refine ⟨rfl, fun p hp => ?_, fun env' hne e he => ?_, fun _ _ => rfl⟩
      · cases hp
        exact ⟨⟨by decide, .keys (oneServer 2) emptyDoc rfl rfl rfl (contributes_oneServer 2),
          by simp [walkEntries, State.empty]⟩, places_serverWrite _ 2, by rintro _ ⟨⟩⟩
      · simp [SharedTree.world, SharedTree.put, SharedTree.prune, World.rows, unshared, hne,
          walkEntries, State.empty] at he
    · refine ⟨rfl, fun p hp => ?_, trivial, trivial⟩
      cases hp
      exact ⟨by decide, by decide⟩
    · refine ⟨rfl, fun p hp => ?_, fun env' hne e he i hi j hj => ?_, fun _ _ => rfl⟩
      · cases hp
        exact ⟨⟨trivial, .file rfl, by simp [walkEntries, State.empty]⟩,
          by rintro _ _ ⟨⟩, by rintro _ ⟨⟩⟩
      · cases List.mem_singleton.mp hj
        by_cases hone : env' = "one"
        · subst hone
          revert i
          revert e
          decide
        · simp [SharedTree.world, SharedTree.put, SharedTree.prune, World.rows, unshared, hne, hone,
            walkEntries, State.empty] at he
    · refine ⟨rfl, fun p hp => ?_, trivial, trivial⟩
      cases hp
      exact ⟨by decide, by decide⟩
  obtain ⟨t, ht, hintact⟩ := uninstall_leaves_other_environment (fun _ => rfl) (fun _ => rfl)
    halong rfl "one" "two" (by decide) rfl rfl
  exact ⟨_, t, rfl, by decide, ht, hintact⟩

/-- Both environments have the server, and the uninstall of one takes it from the other. -/
theorem shared_server_is_uninstalled :
    ∃ s t, run (sharedStep Char.isAlphanum) (unshared [])
        (hydrateOne "one" .adapter "" (serverWrite 2) ++ hydrateOne "two" .adapter ""
          (serverWrite 2)) =
          some s ∧ s.pass "one" = none ∧ s.pass "two" = none ∧
      s.uninstall Char.isAlphanum "one" = some t ∧
      ¬ ∀ e ∈ walkEntries (s.saved "two"), Intact t.disk e :=
  ⟨_, _, rfl, rfl, rfl, rfl, by decide⟩

/-- The tool's directory is a link, and goes with the skill of one environment. -/
example : ∃ s t, run (sharedStep Char.isAlphanum) (unshared [[".claude".toList]])
        (hydrateOne "one" .skills "x" skillFile ++
          hydrateOne "two" .skills "y" ⟨".claude/skills/y/SKILL.md", .replace, .text [], [],
            none⟩) =
          some s ∧ s.uninstall Char.isAlphanum "one" = some t ∧
      ¬ ∀ e ∈ walkEntries (s.saved "two"), Intact t.disk e :=
  ⟨_, _, rfl, rfl, by decide⟩

end AchProofs.Hydrate
