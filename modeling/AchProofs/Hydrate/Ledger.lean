import AchProofs.Hydrate.Drift

namespace AchProofs.Hydrate

open Foundation.Run Cli.DottedKey

variable {α : Type}

def buildScopedEmpty (prev : State α) (includeRuntime onlyRuntime : Bool) : State α where
  plugins := if onlyRuntime then prev.plugins else []
  skills := if onlyRuntime then prev.skills else []
  adapter := if onlyRuntime || includeRuntime then [] else prev.adapter

/-- The previous rows a hydrate without the flag keeps from the sync: those of skills, and those of
plugins that no longer project. -/
def Pass.leftOut (p : Pass α) : List (FileEntry α) :=
  p.prev.skills ++
    p.prev.plugins.filter (fun e => ¬ p.next.plugins.any (fun r => r.source = e.source))

theorem mem_syncPrev_or_leftOut {p : Pass α} {e : FileEntry α} (h : e ∈ walkEntries p.prev)
    (flag : Bool) : e ∈ p.syncPrev flag ∨ flag = false ∧ e ∈ p.leftOut := by
  cases flag with
  | true => exact .inl h
  | false =>
    simp only [walkEntries, List.mem_append] at h
    simp only [Pass.syncPrev, Pass.leftOut, keptPluginRows, walkEntries, Bool.false_eq_true,
      if_false, List.append_nil, List.mem_append, List.mem_filter, true_and, decide_eq_true_eq]
    tauto

/-- All that is recorded: in the state file, or in the two states of the hydrate under way. -/
def World.rows (s : World α) : List (FileEntry α) :=
  match s.pass with
  | none => walkEntries s.saved
  | some p => walkEntries p.prev ++ walkEntries p.next

section Step

variable [DecidableEq α]

def publishes (word : Char → Bool) (s : World α) : Act α → List Item
  | .publish b source w =>
    match s.pass with
    | none => []
    | some p =>
      match publishFile word s.disk (p.prior b w) w source with
      | .done _ r => r.items
      | _ => []
  | _ => []

/-- A step of the world together with the record of all that was ever published. -/
def ledgerStep (word : Char → Bool) (l : World α × List Item) (a : Act α) :
    Option (World α × List Item) :=
  (step word l.1 a).map (fun s => (s, l.2 ++ publishes word l.1 a))

end Step

/-- A write whose row stands once it goes through, and that keeps to the keys published before. -/
structure LedgerPublish (word : Char → Bool) (disk : Disk α) (p : Pass α) (b : Bucket)
    (w : FileWrite α) (pub : List Item) :
    Prop extends WriteOk word disk (walkEntries p.next) w where
  places : Places disk w
  stable : ∀ q, p.prior b w = some q → Stable q w
  compatible : ∀ i ∈ pub, ∀ j ∈ w.items, i = j ∨ i.Apart j

structure LedgerFinish (disk : Disk α) (p : Pass α) (flag : Bool) : Prop where
  shrunk : ∀ e ∈ p.syncPrev flag, e.merge = .deep →
    (∃ i ∈ e.items, Unclaimed (walkEntries p.next) i) → Intact disk e
  leftOut : flag = false → ∀ e ∈ p.leftOut, ∀ i ∈ e.items, ¬ Unclaimed (walkEntries p.next) i

def LedgerAct [DecidableEq α] (word : Char → Bool) (l : World α × List Item) : Act α → Prop
  | .edit _ => False
  | .begin => True
  | .publish b source w => ¬ Refuses word l.1 (.publish b source w) ∧
      ∀ p, l.1.pass = some p → LedgerPublish word l.1.disk p b w l.2
  | .finish flag => ∀ p, l.1.pass = some p → SafeFinish p flag ∧ LedgerFinish l.1.disk p flag

/-- Whatever was published and is still there is in a recorded row. -/
structure Ledger (s : World α) (pub : List Item) : Prop where
  inv : Inv s
  compatible : ∀ i ∈ pub, ∀ j ∈ pub, i = j ∨ i.Apart j
  rows : ∀ e ∈ s.rows, ∀ i ∈ e.items, i ∈ pub
  covered : ∀ i ∈ pub, look s.disk i ≠ none → ∃ e ∈ s.rows, i ∈ e.items

variable {word : Char → Bool} {s s' : World α} {pub : List Item} {p : Pass α}

theorem exists_file_of_look {disk : Disk α} {i : Item} (h : look disk i ≠ none) :
    (disk i.target).isSome := by
  cases hd : disk i.target with
  | some f => rfl
  | none => cases i <;> simp_all [look, Item.target]

theorem Ledger.begin (h : Ledger s pub) (hp : s.pass = none) :
    Ledger { s with pass := some ⟨reconcileVsDisk s.disk s.saved, .empty⟩ } pub := by
  have hrows : s.rows = walkEntries s.saved := by simp only [World.rows, hp]
  have hi := h.inv
  simp only [Inv, hp] at hi
  refine ⟨hi.begin, h.compatible, ?_, fun i hpub hl => ?_⟩
  · intro e he
    refine h.rows e (hrows ▸ (reconcile_sublist s.disk s.saved).subset ?_)
    simpa [World.rows, walkEntries, State.empty] using he
  · obtain ⟨e, he, hie⟩ := h.covered i hpub hl
    refine ⟨e, ?_, hie⟩
    have hf := exists_file_of_look hl
    rw [target_of_mem_items hie] at hf
    rw [hrows] at he
    simp only [walkEntries, List.mem_append] at he
    simp only [World.rows, walkEntries, State.empty, reconcileVsDisk, pruneMissing, List.append_nil,
      List.mem_append, List.mem_filter, hf, and_true]
    exact he

theorem items_compatible {m : MergeKind} {keys : List String} (t : String) (hs : Sound keys m) :
    ∀ i ∈ items m t keys, ∀ j ∈ items m t keys, i = j ∨ i.Apart j := by
  cases m with
  | replace => simp [items]
  | composite => simp [items]
  | deep =>
    intro i hi j hj
    obtain ⟨k, hk, rfl⟩ := List.mem_map.mp hi
    obtain ⟨k', hk', rfl⟩ := List.mem_map.mp hj
    by_cases heq : k = k'
    · exact .inl (by rw [heq])
    have hsymm : Std.Symm (fun k k' => Foundation.Apart (splitPath k) (splitPath k')) :=
      ⟨fun _ _ h => h.symm⟩
    exact .inr (.inr (hs.2.forall hk hk' heq))

theorem Ledger.publish {b : Bucket} {w : FileWrite α} {disk' : Disk α} {r : FileEntry α}
    (h : Ledger s pub) (hp : s.pass = some p) (hs : Sound w.keys w.merge)
    (hc : ∀ i ∈ pub, ∀ j ∈ w.items, i = j ∨ i.Apart j) (hitems : r.items = w.items)
    (hl : Lands s.disk disk' r)
    (hi : PassInv disk' { p with next := p.next.record r b }) :
    Ledger { s with disk := disk', pass := some { p with next := p.next.record r b } }
      (pub ++ r.items) := by
  have hrows : s.rows = walkEntries p.prev ++ walkEntries p.next := by simp only [World.rows, hp]
  rw [← hitems] at hc
  have hown : ∀ i ∈ r.items, ∀ j ∈ r.items, i = j ∨ i.Apart j := by
    rw [hitems]
    exact items_compatible w.path hs
  refine ⟨hi, fun i hi j hj => ?_, fun e he i hie => ?_, fun i hpub hlook => ?_⟩
  · obtain hi | hi := List.mem_append.mp hi <;> obtain hj | hj := List.mem_append.mp hj
    · exact h.compatible i hi j hj
    · exact hc i hi j hj
    · exact (hc j hj i hi).imp Eq.symm Item.Apart.symm
    · exact hown i hi j hj
  · obtain he | he := List.mem_append.mp he
    · exact List.mem_append_left _ (h.rows e (by rw [hrows]; exact List.mem_append_left _ he) i hie)
    obtain he | rfl := mem_record.mp he
    · exact List.mem_append_left _
        (h.rows e (by rw [hrows]; exact List.mem_append_right _ he) i hie)
    · exact List.mem_append_right _ hie
  · by_cases hir : i ∈ r.items
    · exact ⟨r, List.mem_append_right _ (mem_record.mpr (.inr rfl)), hir⟩
    have hpub' := (List.mem_append.mp hpub).resolve_right hir
    have hsame := hl.frame i (fun j hj =>
      (hc i hpub' j hj).resolve_left (fun heq => hir (heq ▸ hj)))
    obtain ⟨e, he, hie⟩ := h.covered i hpub' (hsame ▸ hlook)
    refine ⟨e, ?_, hie⟩
    rw [hrows] at he
    exact (List.mem_append.mp he).elim (List.mem_append_left _)
      (fun he => List.mem_append_right _ (mem_record.mpr (.inl he)))

theorem unedited_of_finish {flag : Bool} {disk : Disk α} (hi : PassInv disk p)
    (hf : SafeFinish p flag) (hl : LedgerFinish disk p flag) {e : FileEntry α}
    (he : e ∈ p.syncPrev flag) {i : Item} (hie : i ∈ e.items)
    (hun : Unclaimed (walkEntries p.next) i) : Unedited disk e := by
  by_cases hm : e.merge = .deep
  · exact (hl.shrunk e he hm ⟨i, hie, hun⟩).unedited
  · refine (hi.kept e ((syncPrev_sublist p flag).subset he) (fun r hr j hj k hk =>
      ?_)).intact.unedited
    obtain rfl := eq_of_mem_items hm hj hie
    exact (hf.compatible e he r hr j hj k hk).resolve_left (fun heq => hun r hr (heq ▸ hk))

theorem Ledger.finish {flag : Bool} {disk' : Disk α} (h : Ledger s pub) (hp : s.pass = some p)
    (hf : SafeFinish p flag) (hl : LedgerFinish s.disk p flag)
    (hs : Synced (p.syncPrev flag) (p.syncNext flag) s.disk disk')
    (hst : Standing disk' (walkEntries p.next)) : Ledger ⟨disk', p.next, none⟩ pub := by
  have hrows : s.rows = walkEntries p.prev ++ walkEntries p.next := by simp only [World.rows, hp]
  have hi := h.inv
  simp only [Inv, hp] at hi
  refine ⟨hst, h.compatible, fun e he => ?_, fun i hpub hlook => ?_⟩
  · exact h.rows e (by rw [hrows]; exact List.mem_append_right _ he)
  by_contra hno
  have hun : Unclaimed (walkEntries p.next) i := fun r hr hir => hno ⟨r, hr, hir⟩
  have hun' : Unclaimed (p.syncNext flag) i :=
    fun r hr => hun r ((syncNext_sublist p flag).subset hr)
  by_cases hmem : ∃ e ∈ p.syncPrev flag, i ∈ e.items
  · obtain ⟨e, he, hie⟩ := hmem
    exact hlook (hs.gone e he (unedited_of_finish hi hf hl he hie hun) i hie hun')
  · have hsame := hs.frame i (fun e he j hj _ => by
      have hje := h.rows e (by
        rw [hrows]
        exact List.mem_append_left _ ((syncPrev_sublist p flag).subset he)) j hj
      exact (h.compatible i hpub j hje).resolve_left (fun heq => hmem ⟨e, he, heq ▸ hj⟩))
    obtain ⟨e, he, hie⟩ := h.covered i hpub (hsame ▸ hlook)
    rw [hrows] at he
    obtain he | he := List.mem_append.mp he
    · obtain he | ⟨hflag, he⟩ := mem_syncPrev_or_leftOut he flag
      · exact hmem ⟨e, he, hie⟩
      · exact hl.leftOut hflag e he i hie hun
    · exact hun e he hie

theorem ledger_empty (hs : s.saved = .empty) (hp : s.pass = none) : Ledger s [] := by
  have hrows : s.rows = [] := by simp [World.rows, hp, hs, walkEntries, State.empty]
  refine ⟨?_, by simp, by simp [hrows], by simp⟩
  simp only [Inv, hp, hs]
  exact standing_empty s.disk

variable [DecidableEq α]

theorem LedgerPublish.known {b : Bucket} {w : FileWrite α} {disk : Disk α} {source : String}
    (h : LedgerPublish word disk p b w pub)
    (hno : publishFile word disk (p.prior b w) w source ≠ .refused) {q : FileEntry α}
    (hq : p.prior b w = some q) : Known disk q w := by
  obtain ⟨fresh, onDisk, hfresh, hdisk, hpub⟩ :=
    publishFile_spec (p.prior b w) source h.sound h.fits
  generalize publishFile word disk (p.prior b w) w source = res at hpub hno
  cases hpub with
  | refused => exact absurd rfl hno
  | skipped q' hq' hskip =>
    cases hq.symm.trans hq'
    refine hskip.imp (fun hf => ⟨fresh, hfresh, ?_⟩) (fun hr => ⟨?_, h.stable q hq⟩)
    · rw [hdisk, hf]
    · rw [hdisk, hr.1]
  | written _ hrec =>
    refine .inr ⟨?_, h.stable q hq⟩
    rw [hdisk, hrec q hq]

theorem ledger_step {l l' : World α × List Item} {a : Act α} (h : Ledger l.1 l.2)
    (ha : LedgerAct word l a) (hs : ledgerStep word l a = some l') : Ledger l'.1 l'.2 := by
  obtain ⟨s', hstep, rfl⟩ := Option.map_eq_some_iff.mp hs
  cases a with
  | edit disk => exact ha.elim
  | begin =>
    cases hp : l.1.pass with
    | none =>
      simp only [step, hp, Option.some.injEq] at hstep
      subst hstep
      simpa only [publishes, List.append_nil] using h.begin hp
    | some p => simp [step, hp] at hstep
  | publish b source w =>
    obtain ⟨p, hp, rfl⟩ := Option.map_eq_some_iff.mp hstep
    have hw := ha.2 p hp
    have hi := h.inv
    simp only [Inv, hp] at hi
    obtain ⟨disk', r, hpub, hitems, hl, hu⟩ := publish_lands source hw.toWriteOk hw.places
      (fun q hq => hw.known (fun href => ha.1 ⟨p, hp, href⟩) hq)
    simp only [publishStep, publishes, hp, hpub]
    exact h.publish hp hw.sound hw.compatible hitems hl (hi.publish (hw.rowsApart hitems) hl hu)
  | finish flag =>
    cases hp : l.1.pass with
    | none => simp [step, hp] at hstep
    | some p =>
      obtain ⟨hf, hl⟩ := ha p hp
      have hi := h.inv
      simp only [Inv, hp] at hi
      obtain ⟨disk', hd, hsync, hst⟩ := hi.finish word hf
      simp only [step, hp, hd, Option.map_some, Option.some.injEq] at hstep
      subst hstep
      simpa only [publishes, List.append_nil] using h.finish hp hf hl hsync hst

theorem Ledger.uninstall (word : Char → Bool) (h : Ledger s pub) (hp : s.pass = none) :
    ∃ disk', sync word (walkEntries s.saved) (walkEntries (buildScopedEmpty s.saved true false))
        s.disk = some disk' ∧ ∀ i ∈ pub, look disk' i = none := by
  have hrows : s.rows = walkEntries s.saved := by simp only [World.rows, hp]
  have hi := h.inv
  simp only [Inv, hp] at hi
  obtain ⟨disk', hd, hs⟩ :
      ∃ disk', sync word (walkEntries s.saved) [] s.disk = some disk' ∧
        Synced (walkEntries s.saved) [] s.disk disk' :=
    sync_synced word hi.apart (fun e he => (hi.upheld e he).toOrderly) (by simp) (by simp)
  refine ⟨disk', hd, fun i hpub => ?_⟩
  by_cases hmem : ∃ e ∈ walkEntries s.saved, i ∈ e.items
  · obtain ⟨e, he, hie⟩ := hmem
    exact hs.gone e he (hi.upheld e he).intact.unedited i hie (by simp [Unclaimed])
  · rw [hs.frame i (fun e he j hj _ =>
      (h.compatible i hpub j (h.rows e (hrows ▸ he) j hj)).resolve_left
        (fun heq => hmem ⟨e, he, heq ▸ hj⟩))]
    by_contra hlook
    obtain ⟨e, he, hie⟩ := h.covered i hpub hlook
    exact hmem ⟨e, hrows ▸ he, hie⟩

theorem ledger_is_complete {acts : List (Act α)} (hs : s.saved = .empty) (hp : s.pass = none)
    (ha : Along (ledgerStep word) (LedgerAct word) (s, []) acts)
    (hrun : run (ledgerStep word) (s, []) acts = some (s', pub)) (hp' : s'.pass = none) :
    (∀ i ∈ pub, look s'.disk i ≠ none → ∃ e ∈ walkEntries s'.saved, i ∈ e.items) ∧
      ∃ disk', sync word (walkEntries s'.saved)
          (walkEntries (buildScopedEmpty s'.saved true false)) s'.disk = some disk' ∧
        ∀ i ∈ pub, look disk' i = none := by
  let Kept (l : World α × List Item) : Prop := Ledger l.1 l.2
  have h : Kept (s', pub) := run_preserves (fun _ _ _ => ledger_step) (ledger_empty hs hp) ha hrun
  refine ⟨?_, h.uninstall word hp'⟩
  have hrows : s'.rows = walkEntries s'.saved := by simp only [World.rows, hp']
  exact hrows ▸ h.covered

def detachServer : List (Act ℕ) :=
  [.begin, .publish .adapter "" (serverWrite 2), .finish false, .begin, .finish false]

theorem detached_server_leaves_nothing :
    ∃ s pub, run (ledgerStep Char.isAlphanum) (blank, []) detachServer = some (s, pub) ∧ pub ≠ [] ∧
      (∀ i ∈ pub, look s.disk i ≠ none → ∃ e ∈ walkEntries s.saved, i ∈ e.items) ∧
      ∃ disk', sync Char.isAlphanum (walkEntries s.saved)
          (walkEntries (buildScopedEmpty s.saved true false)) s.disk = some disk' ∧
        ∀ i ∈ pub, look disk' i = none := by
  refine ⟨_, _, rfl, by decide, ledger_is_complete (s := blank) rfl rfl
    (show Along _ _ _ detachServer from ?_) rfl rfl⟩
  refine along_cons rfl trivial (along_cons rfl ?_ (along_cons rfl ?_ (along_cons rfl trivial
    (along_cons rfl ?_ trivial))))
  · constructor
    · intro ⟨p, hp, href⟩
      cases hp
      cases href
    · intro p hp
      cases hp
      exact ⟨⟨by decide, .keys (oneServer 2) emptyDoc rfl rfl rfl (contributes_oneServer 2),
        by simp [walkEntries, State.empty]⟩, places_serverWrite _ 2, nofun, nofun⟩
  · intro p hp
    cases hp
    exact ⟨⟨by decide, by decide⟩, ⟨by decide, by decide⟩⟩
  · intro p hp
    cases hp
    exact ⟨⟨by decide, by decide⟩, ⟨by decide, by decide⟩⟩

def skillFile : FileWrite ℕ := ⟨".claude/skills/x/SKILL.md", .replace, .text ['x'], [], none⟩

theorem detached_skill_lingers :
    ∃ s pub disk', run (ledgerStep Char.isAlphanum) (blank, [])
        [.begin, .publish .skills "x" skillFile, .finish false, .begin, .finish false] =
          some (s, pub) ∧ s.pass = none ∧
      sync Char.isAlphanum (walkEntries s.saved)
        (walkEntries (buildScopedEmpty s.saved true false)) s.disk = some disk' ∧
      ∃ i ∈ pub, look s.disk i ≠ none ∧ (∀ e ∈ walkEntries s.saved, i ∉ e.items) ∧
        look disk' i ≠ none :=
  ⟨_, _, _, rfl, rfl, rfl, .file ".claude/skills/x/SKILL.md", by decide, by decide, by decide,
    by decide⟩

end AchProofs.Hydrate
