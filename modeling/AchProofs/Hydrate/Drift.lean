import AchProofs.Hydrate.Passes
import AchProofs.Hydrate.Upheld

namespace AchProofs.Hydrate

open Foundation Foundation.Run Cli.Merge Cli.DottedKey Cli.Composite

variable {α : Type}

/-- A write that suits its file and stays clear of what the hydrate has written before. -/
structure WriteOk (word : Char → Bool) (disk : Disk α) (next : List (FileEntry α))
    (w : FileWrite α) : Prop where
  sound : Sound w.keys w.merge
  fits : Fits word disk w
  apart : ∀ r ∈ next, ∀ i ∈ w.items, ∀ j ∈ r.items, i.Apart j

theorem WriteOk.rowsApart {word : Char → Bool} {disk : Disk α} {next : List (FileEntry α)}
    {w : FileWrite α} {r : FileEntry α} (h : WriteOk word disk next w) (hr : r.items = w.items) :
    ∀ r' ∈ next, RowsApart r' r :=
  fun r' hr' i hi j hj => (h.apart r' hr' j (hr ▸ hj) i hi).symm

def Current (disk : Disk α) (w : FileWrite α) : Prop :=
  ∃ fresh, freshHash w = some fresh ∧ scopedHash disk w.merge w.path w.keys = some (some fresh)

/-- The recorded row answers for what the write asks for, keys not yet on disk aside. -/
def SameScope (disk : Disk α) (q : FileEntry α) (w : FileWrite α) : Prop :=
  q.merge = w.merge ∧
    match w.merge with
    | .replace => True
    | .deep => w.keys.filter (fun k => (look disk (.key w.path k)).isSome) = q.keys
    | .composite => compositeID w.keys = compositeID q.keys

def Stable (q : FileEntry α) (w : FileWrite α) : Prop :=
  ∀ fresh, freshHash w = some fresh → w.sourceHash.getD fresh = q.sourceHash → fresh = q.hash

def Known (disk : Disk α) (q : FileEntry α) (w : FileWrite α) : Prop :=
  Current disk w ∨ scopedHash disk w.merge w.path w.keys = some (some q.hash) ∧ Stable q w

structure SafePublish (word : Char → Bool) (disk : Disk α) (p : Pass α) (b : Bucket)
    (w : FileWrite α) : Prop extends WriteOk word disk (walkEntries p.next) w where
  places : Places disk w
  prior : ∀ q, p.prior b w = some q → Current disk w ∨ SameScope disk q w ∧ Stable q w

structure SafeFinish (p : Pass α) (flag : Bool) : Prop where
  compatible : ∀ e ∈ p.syncPrev flag, ∀ r ∈ walkEntries p.next, Compatible e r
  skills : flag = false → ∀ e ∈ p.syncPrev flag, ∀ r ∈ p.next.skills, RowsApart e r

def SafeAct (word : Char → Bool) (s : World α) : Act α → Prop
  | .edit disk => ∀ e ∈ walkEntries s.saved,
      (∀ i ∈ e.items, look disk i = look s.disk i) ∧
        (e.merge = .composite → ∀ body, textOf (disk e.target) = some body → Tended body)
  | .begin => True
  | .publish b _ w => ∀ p, s.pass = some p → SafePublish word s.disk p b w
  | .finish flag => ∀ p, s.pass = some p → SafeFinish p flag

structure Standing (disk : Disk α) (rows : List (FileEntry α)) : Prop where
  apart : rows.Pairwise RowsApart
  upheld : ∀ e ∈ rows, Upheld disk e

/-- During a hydrate its rows stand, and so do the previous rows it has not come near. -/
structure PassInv (disk : Disk α) (p : Pass α) : Prop where
  apart : (walkEntries p.prev).Pairwise RowsApart
  sound : ∀ e ∈ walkEntries p.prev, Sound e.keys e.merge
  kept : ∀ e ∈ walkEntries p.prev, (∀ r ∈ walkEntries p.next, RowsApart e r) → Upheld disk e
  next : Standing disk (walkEntries p.next)

def Inv (s : World α) : Prop :=
  match s.pass with
  | none => Standing s.disk (walkEntries s.saved)
  | some p => PassInv s.disk p

variable {word : Char → Bool} {disk disk' : Disk α} {p : Pass α} {b : Bucket} {w : FileWrite α}
  {q r : FileEntry α}

theorem mem_of_prior (h : p.prior b w = some q) : q ∈ walkEntries p.prev ∧ q.target = w.path :=
  ⟨bucket_subset (List.mem_of_find?_eq_some h), by simpa using List.find?_some h⟩

theorem SameScope.items_subset (h : SameScope disk q w) (ht : q.target = w.path) :
    ∀ i ∈ q.items, i ∈ w.items := by
  intro i hi
  obtain ⟨hm, hscope⟩ := h
  rw [FileEntry.items, hm, ht] at hi
  cases hw : w.merge with
  | replace =>
    rw [hw] at hi
    rwa [FileWrite.items, hw]
  | deep =>
    rw [hw] at hi hscope
    obtain ⟨k, hk, rfl⟩ := List.mem_map.mp hi
    rw [← hscope] at hk
    exact key_mem_items.mpr ⟨hw, rfl, List.mem_of_mem_filter hk⟩
  | composite =>
    rw [hw] at hi hscope
    rw [FileWrite.items, hw]
    simpa only [items, hscope] using hi

theorem SameScope.scopedHash_eq (h : SameScope disk q w) (ht : q.target = w.path)
    (hr : Readable (disk w.path) w.merge) :
    scopedHash disk w.merge w.path w.keys = scopedHash disk q.merge q.target q.keys := by
  obtain ⟨hm, hscope⟩ := h
  rw [hm, ht]
  cases hw : w.merge with
  | replace => rw [scopedHash_replace, scopedHash_replace]
  | deep =>
    rw [hw] at hr hscope
    obtain ⟨d, hd⟩ := Option.isSome_iff_exists.mp hr
    have hkeys : w.keys.filter (fun k => (getDottedKey d.tree k).isSome) = q.keys := by
      rw [← hscope]
      refine List.filter_congr (fun k _ => ?_)
      rw [look_key hd, Option.isSome_map]
    rw [scopedHash_deep hd, scopedHash_deep hd, extractByKeys_filter, hkeys]
  | composite =>
    rw [hw] at hr hscope
    obtain ⟨body, hb⟩ := Option.isSome_iff_exists.mp hr
    rw [scopedHash_composite hb, scopedHash_composite hb, hscope]

theorem SafePublish.known (hi : PassInv disk p) (hw : SafePublish word disk p b w)
    (hq : p.prior b w = some q) : Known disk q w := by
  refine (hw.prior q hq).imp_right (fun h => ⟨?_, h.2⟩)
  obtain ⟨hmem, ht⟩ := mem_of_prior hq
  have hup := hi.kept q hmem (fun r hr i hi j hj => hw.apart r hr i (h.1.items_subset ht i hi) j hj)
  exact (h.1.scopedHash_eq ht hw.fits.readable).trans hup.intact

theorem PassInv.publish (hi : PassInv disk p) (hap : ∀ r' ∈ walkEntries p.next, RowsApart r' r)
    (hl : Lands disk disk' r) (hu : Upheld disk' r) :
    PassInv disk' { p with next := p.next.record r b } := by
  refine ⟨hi.apart, hi.sound, fun e he hap' => ?_, ?_, fun r' hr' => ?_⟩
  · exact hl.upheld_of_apart (hi.kept e he (fun r' hr' => hap' r' (mem_record.mpr (.inl hr'))))
      (hap' r (mem_record.mpr (.inr rfl)))
  · rw [record_perm.pairwise_iff RowsApart.symm, List.pairwise_cons]
    exact ⟨fun r' hr' => (hap r' hr').symm, hi.next.apart⟩
  · obtain hr' | rfl := mem_record.mp hr'
    · exact hl.upheld_of_apart (hi.next.upheld r' hr') (hap r' hr')
    · exact hu

theorem standing_empty (disk : Disk α) : Standing disk (walkEntries State.empty) :=
  ⟨by simp [walkEntries, State.empty], by simp [walkEntries, State.empty]⟩

theorem Standing.begin {saved : State α} (h : Standing disk (walkEntries saved)) :
    PassInv disk ⟨reconcileVsDisk disk saved, .empty⟩ := by
  have hsub := (reconcile_sublist disk saved).subset
  exact ⟨h.apart.sublist (reconcile_sublist disk saved), fun e he => (h.upheld e (hsub he)).sound,
    fun e he _ => h.upheld e (hsub he), standing_empty disk⟩

theorem Standing.edit {rows : List (FileEntry α)} (h : Standing disk rows)
    (hl : ∀ e ∈ rows, (∀ i ∈ e.items, look disk' i = look disk i) ∧
      (e.merge = .composite → ∀ body, textOf (disk' e.target) = some body → Tended body)) :
    Standing disk' rows := by
  refine ⟨h.apart, fun e he => ?_⟩
  have hintact := (h.upheld e he).intact.congr (hl e he).1
  exact ⟨⟨(h.upheld e he).sound, readable_of_scopedHash hintact, (hl e he).2⟩, hintact⟩

theorem stable_of_hash {q : FileEntry α} {w : FileWrite α} (hq : q.sourceHash = q.hash)
    (hw : w.sourceHash = none) : Stable q w := by
  intro fresh _ h
  rw [hw, hq] at h
  exact h

variable [DecidableEq α]

theorem publish_lands {prior : Option (FileEntry α)} (source : String)
    (hw : WriteOk word disk (walkEntries p.next) w) (hpl : Places disk w)
    (hknown : ∀ q, prior = some q → Known disk q w) :
    ∃ disk' r, publishFile word disk prior w source = .done disk' r ∧
      r.items = w.items ∧ Lands disk disk' r ∧ Upheld disk' r := by
  obtain ⟨fresh, onDisk, hfresh, hdisk, hpub⟩ := publishFile_spec prior source hw.sound hw.fits
  have hprior : ∀ q, prior = some q →
      onDisk = some fresh ∨ onDisk = some q.hash ∧ Stable q w := by
    intro q hq
    refine (hknown q hq).imp ?_ (fun h => ⟨Option.some.inj (hdisk.symm.trans h.1), h.2⟩)
    intro ⟨fresh', hfresh', hdisk'⟩
    cases hfresh.symm.trans hfresh'
    exact Option.some.inj (hdisk.symm.trans hdisk')
  generalize hres : publishFile word disk prior w source = res at hpub
  cases hpub with
  | refused q hq hne hnf => exact ((hprior q hq).elim hnf (fun h => hne h.1)).elim
  | skipped q hq hskip =>
    have hintact : onDisk = some fresh := by
      obtain hd | ⟨hd, hstable⟩ := hprior q hq
      · exact hd
      · refine hskip.elim id (fun h => ?_)
        rw [hd, hstable fresh hfresh h.2]
    refine ⟨disk, _, rfl, rfl, ⟨hw.fits.orderly hw.sound, fun _ _ => rfl, fun _ _ => rfl⟩,
      hw.fits.orderly hw.sound, ?_⟩
    exact hdisk.trans (congrArg some hintact)
  | written disk' _ hwrite =>
    have hl : Lands disk disk' (freshEntry w source fresh) :=
      writeFile_lands hw.sound hw.fits hwrite
    refine ⟨disk', _, rfl, rfl, hl, hl.orderly, ?_⟩
    obtain ⟨fresh', hfresh', hintact⟩ := scopedHash_writeFile hw.sound hw.fits hpl hwrite
    cases hfresh.symm.trans hfresh'
    exact hintact

theorem PassInv.finish (word : Char → Bool) (hi : PassInv disk p) {flag : Bool}
    (hf : SafeFinish p flag) :
    ∃ disk', sync word (p.syncPrev flag) (p.syncNext flag) disk = some disk' ∧
      Synced (p.syncPrev flag) (p.syncNext flag) disk disk' ∧
      Standing disk' (walkEntries p.next) := by
  have hprev := (syncPrev_sublist p flag).subset
  have hnext := (syncNext_sublist p flag).subset
  obtain ⟨disk', hd, hs⟩ := sync_synced word (hi.apart.sublist (syncPrev_sublist p flag))
    (fun e he => orderly_of_compatible (hi.sound e (hprev he)) (hf.compatible e he)
      (fun r hr => (hi.next.upheld r hr).toOrderly)
      (fun hap => (hi.kept e (hprev he) hap).toOrderly))
    (fun r hr => (hi.next.upheld r (hnext hr)).sound)
    (fun e he r hr => hf.compatible e he r (hnext hr))
  refine ⟨disk', hd, hs, hi.next.apart, fun r hr => ?_⟩
  have hup := hi.next.upheld r hr
  refine ⟨hs.orderly r hup.toOrderly, hup.intact.congr (fun i hir => hs.frame i ?_)⟩
  intro e he j hj hun
  refine ((hf.compatible e he r hr j hj i hir).elim (fun heq => ?_) id).symm
  obtain hr' | ⟨hflag, hr'⟩ := mem_syncNext_or_skills hr flag
  · exact absurd (heq ▸ hir) (hun r hr')
  · exact hf.skills hflag e he r hr' j hj i hir

theorem SafePublish.lands (source : String) (hi : PassInv disk p)
    (hw : SafePublish word disk p b w) :
    ∃ disk' r, publishFile word disk (p.prior b w) w source = .done disk' r ∧
      r.items = w.items ∧ Lands disk disk' r ∧ Upheld disk' r :=
  publish_lands source hw.toWriteOk hw.places (fun _ hq => hw.known hi hq)

variable {s s' : World α} {a : Act α}

theorem inv_step (hi : Inv s) (ha : SafeAct word s a) (hs : step word s a = some s') : Inv s' := by
  cases hp : s.pass with
  | none =>
    simp only [Inv, hp] at hi
    cases a with
    | edit disk =>
      simp only [step, hp, Option.some.injEq] at hs
      subst hs
      simpa only [Inv, hp] using hi.edit ha
    | begin =>
      simp only [step, hp, Option.some.injEq] at hs
      subst hs
      exact hi.begin
    | publish b source w => simp [step, hp] at hs
    | finish flag => simp [step, hp] at hs
  | some p =>
    simp only [Inv, hp] at hi
    cases a with
    | edit disk => simp [step, hp] at hs
    | begin => simp [step, hp] at hs
    | publish b source w =>
      simp only [step, hp, Option.map_some, Option.some.injEq] at hs
      subst hs
      obtain ⟨disk', r, hpub, hitems, hl, hu⟩ := (ha p hp).lands source hi
      simp only [publishStep, hpub]
      exact hi.publish ((ha p hp).rowsApart hitems) hl hu
    | finish flag =>
      obtain ⟨disk', hd, -, hst⟩ := hi.finish word (ha p hp)
      simp only [step, hp, hd, Option.map_some, Option.some.injEq] at hs
      subst hs
      exact hst

theorem not_refuses (hi : Inv s) (ha : SafeAct word s a) : ¬ Refuses word s a := by
  cases a with
  | edit | begin | finish => exact id
  | publish b source w =>
    rintro ⟨p, hp, href⟩
    simp only [Inv, hp] at hi
    obtain ⟨disk', r, hpub, -⟩ := (ha p hp).lands source hi
    cases hpub.symm.trans href

theorem safe_run_never_refuses {acts : List (Act α)} (hs : s.saved = .empty) (hp : s.pass = none)
    (ha : Along (step word) (SafeAct word) s acts) :
    Along (step word) (fun s a => ¬ Refuses word s a) s acts := by
  have hi : Inv s := by
    simp only [Inv, hp, hs]
    exact standing_empty s.disk
  exact along_of_preserves (fun _ _ _ => inv_step) (fun _ _ => not_refuses) hi ha

def blank : World ℕ := ⟨fun _ => none, .empty, none⟩

def oneServer (v : ℕ) : Doc ℕ where
  tree := .node "mcpServers" (.leaf "b" v .nil) .nil
  ordered := by simp [KeyTree.Ordered, KeyTree.keys]

def serverWrite (v : ℕ) : FileWrite ℕ :=
  ⟨".mcp.json", .deep, .doc (oneServer v), ["mcpServers.b"], none⟩

theorem splitPath_serverB : splitPath "mcpServers.b" = ["mcpServers", "b"] := by decide

theorem contributes_oneServer (v : ℕ) : Contributes (oneServer v).tree ["mcpServers.b"] := by
  constructor
  · intro k hk
    cases List.mem_singleton.mp hk
    rw [getDottedKey, splitPath_serverB]
    simp [oneServer, KeyTree.get, KeyTree.child, KeyTree.find]
  · intro q hq
    have h := hq "mcpServers.b" (by simp)
    rw [splitPath_serverB] at h
    rcases q with _ | ⟨c, _ | ⟨c', q⟩⟩
    · simp at h
    · by_cases hc : c = "mcpServers" <;> simp_all [oneServer, KeyTree.Misses, KeyTree.find, eq_comm]
    · by_cases hc : c = "mcpServers" <;> by_cases hc' : c' = "b" <;>
        simp_all [oneServer, KeyTree.Misses, KeyTree.find, eq_comm]

theorem places_serverWrite (disk : Disk ℕ) (v : ℕ) : Places disk (serverWrite v) := by
  intro new old hnew _ k hk x hx
  cases hnew
  cases List.mem_singleton.mp hk
  rw [getDottedKey, splitPath_serverB] at hx
  cases hx
  exact KeyTree.mergeValue_leaf _ v

theorem server_value_changes :
    Along (step Char.isAlphanum) (fun s a => ¬ Refuses Char.isAlphanum s a) blank
      [.begin, .publish .adapter "" (serverWrite 2), .finish true,
        .begin, .publish .adapter "" (serverWrite 3), .finish true] := by
  refine safe_run_never_refuses rfl rfl ?_
  refine along_cons rfl trivial (along_cons rfl ?_ (along_cons rfl ?_ (along_cons rfl trivial
    (along_cons rfl ?_ (along_cons rfl ?_ trivial)))))
  · intro p hp
    cases hp
    exact ⟨⟨by decide, .keys (oneServer 2) emptyDoc rfl rfl rfl (contributes_oneServer 2),
      by simp [walkEntries, State.empty]⟩, places_serverWrite _ 2, by rintro _ ⟨⟩⟩
  · intro p hp
    cases hp
    exact ⟨by decide, by rintro ⟨⟩⟩
  · intro p hp
    cases hp
    refine ⟨⟨by decide, .keys (oneServer 3) (oneServer 2) rfl rfl rfl (contributes_oneServer 3),
      by simp [walkEntries, State.empty]⟩, places_serverWrite _ 3, fun q hq => .inr ?_⟩
    cases hq
    exact ⟨⟨rfl, rfl⟩, stable_of_hash rfl rfl⟩
  · intro p hp
    cases hp
    exact ⟨by decide, by rintro ⟨⟩⟩

def otherServer : FileWrite ℕ :=
  ⟨".mcp.json", .deep, .doc ⟨.node "mcpServers" (.leaf "a" 1 .nil) .nil, by decide⟩,
    ["mcpServers.a"], none⟩

theorem replaced_server_is_refused :
    ¬ Along (step Char.isAlphanum) (fun s a => ¬ Refuses Char.isAlphanum s a) blank
      ([.begin, .publish .adapter "" otherServer, .finish true, .begin] ++
        [.publish .adapter "" (serverWrite 2)]) :=
  fun h => (along_append h rfl).1 ⟨_, rfl, rfl⟩

end AchProofs.Hydrate
