import AchProofs.Hydrate.Upheld
import AchProofs.Localpkg.Install

namespace AchProofs.Localpkg.Install

open Foundation Foundation.Search Cli.Merge Cli.Composite
  Cli.CompositeLayout Hydrate

variable {α : Type} {word : Char → Bool} {disk disk' disk'' : Disk α}

def FileRec.row (root : String) (f : FileRec α) : FileEntry α :=
  ⟨resolveDest root f.relPath, .file f.hash, .file f.hash, f.merge, f.keys, ""⟩

def rowOf (w : FileWrite α) : FileEntry α := freshEntry w "" (.file w.content)

/-- The content suits the kind of the write. -/
inductive Suits (word : Char → Bool) (w : FileWrite α) : Prop where
  | file : w.merge = .replace → Suits word w
  | keys (new : Doc α) : w.merge = .deep → w.content = .doc new → Contributes new.tree w.keys →
      Suits word w
  | block (t : Text) : w.merge = .composite → w.content = .text t → compositeID w.keys ≠ "" →
      ContentSafe ValidId (compositeID w.keys) t →
        Literal word (compositeBlock (compositeID w.keys) t) →
      Suits word w

/-- The write suits its kind, and the file it goes to can be worked on. -/
structure Ready (word : Char → Bool) (disk : Disk α) (w : FileWrite α) : Prop where
  suits : Suits word w
  orderly : Orderly disk (rowOf w)

theorem Ready.fits {w : FileWrite α} (h : Ready word disk w) : Fits word disk w := by
  have hread := h.orderly.readable
  cases h.suits with
  | file hm => exact .file hm
  | keys new hm hc hcon =>
    simp only [rowOf, freshEntry, hm, Readable] at hread
    obtain ⟨old, ho⟩ := Option.isSome_iff_exists.mp hread
    exact .keys new old hm hc ho hcon
  | block t hm hc _ hsafe hlit =>
    simp only [rowOf, freshEntry, hm, Readable] at hread
    obtain ⟨body, hb⟩ := Option.isSome_iff_exists.mp hread
    obtain ⟨cs, hl, rfl⟩ := h.orderly.tended hm body hb
    exact .block t cs hm hc hb hl hsafe (fun _ => hlit)

def Friendly (i j : Item) : Prop := i = j ∨ i.Apart j

/-- How far a change of the disk reaches: items apart from these stay as they are, and files that
could be worked on still can. -/
structure Moved (disk disk' : Disk α) (m : Set Item) : Prop where
  frame : ∀ i : Item, (∀ j ∈ m, i.Apart j) → look disk' i = look disk i
  orderly : ∀ r, Orderly disk r → (∀ i ∈ r.items, ∀ j ∈ m, Friendly i j) → Orderly disk' r

theorem Moved.refl (disk : Disk α) (m : Set Item) : Moved disk disk m :=
  ⟨fun _ _ => rfl, fun _ h _ => h⟩

theorem Moved.trans {m : Set Item} (h : Moved disk disk' m) (h' : Moved disk' disk'' m) :
    Moved disk disk'' m :=
  ⟨fun i hi => (h'.frame i hi).trans (h.frame i hi),
    fun r hr hf => h'.orderly r (h.orderly r hr hf) hf⟩

theorem Moved.mono {m m' : Set Item} (h : Moved disk disk' m) (hm : m ⊆ m') : Moved disk disk' m' :=
  ⟨fun i hi => h.frame i (fun j hj => hi j (hm hj)),
    fun r hr hf => h.orderly r hr (fun i hi j hj => hf i hi j (hm hj))⟩

theorem Ready.moved {w : FileWrite α} {m : Set Item} (h : Ready word disk w)
    (hm : Moved disk disk' m) (hf : ∀ i ∈ w.items, ∀ j ∈ m, Friendly i j) : Ready word disk' w :=
  ⟨h.suits, hm.orderly _ h.orderly hf⟩

theorem moved_of_lands {r : FileEntry α} (h : Lands disk disk' r) :
    Moved disk disk' {i | i ∈ r.items} := by
  refine ⟨h.frame, fun e he hf => ?_⟩
  have hc : ∀ r' ∈ [r], Compatible e r' := by
    intro r' hr'
    cases List.mem_singleton.mp hr'
    exact hf
  have ho : ∀ r' ∈ [r], Orderly disk' r' := by
    intro r' hr'
    cases List.mem_singleton.mp hr'
    exact h.orderly
  exact orderly_of_compatible he.sound hc ho
    (fun hap => h.orderly_of_apart he (hap r (List.mem_singleton_self r)))

def Current (disk : Disk α) (r : FileEntry α) : Prop :=
  r.merge = .replace → (disk r.target).map .file = some r.hash

theorem Current.of_look {r : FileEntry α} {i : Item} (h : Current disk r) (hi : i ∈ r.items)
    (hl : look disk' i = look disk i) : Current disk' r := by
  intro hm
  simp only [FileEntry.items, items, hm, List.mem_singleton] at hi
  subst hi
  have heq : disk' r.target = disk r.target :=
    Option.map_injective (fun a b hab => by cases hab; rfl) hl
  rw [heq]
  exact h hm

theorem Ready.lands {root name : String} {w : FileWrite α}
    (h : Ready word disk (landing root name w)) :
    ∃ disk', writeFile word disk (landing root name w) = some disk' ∧
      Moved disk disk' {i | i ∈ (landing root name w).items} ∧
        Orderly disk' ((recOf disk' root name w).row root) ∧
          Current disk' ((recOf disk' root name w).row root) := by
  obtain ⟨disk', hw, -⟩ := writeFile_frame h.orderly.sound h.fits
  have hlands : Lands disk disk' ((recOf disk' root name w).row root) :=
    writeFile_lands h.orderly.sound h.fits hw
  refine ⟨disk', hw, moved_of_lands hlands, hlands.orderly, fun hm => ?_⟩
  have hm' : (landing root name w).merge = .replace := hm
  rw [writeFile_replace hm'] at hw
  cases hw
  simp [FileRec.row, recOf, landing]

section Removal

variable {f : FileRec α} {root : String}

theorem region_of_blank {t : Text} (h : t.all Gitfetch.isSpace) (id : String) :
    region id t = none := by
  have hno : ¬ beginMarker id <:+: t := by
    intro hi
    have hmem : '<' ∈ t := hi.subset (List.mem_cons_self ..)
    have := List.all_eq_true.mp h '<' hmem
    revert this
    decide
  rw [region, pluginMarkerRE_none hno]
  rfl

theorem look_removed {t : String} {i : Item} (ht : i.target = t) :
    look (Function.update disk t none) i = none := by
  subst ht
  cases i <;> simp [look, Item.target]

theorem orderly_removed {r : FileEntry α} (h : Orderly disk r) (t : String) :
    Orderly (Function.update disk t none) r := by
  by_cases ht : r.target = t
  · subst ht
    refine ⟨h.sound, ?_, fun _ body hb => ?_⟩
    · rw [Function.update_self]
      cases r.merge <;> trivial
    · rw [Function.update_self] at hb
      cases hb
      exact tended_nil
  · refine ⟨h.sound, ?_, ?_⟩ <;> rw [Function.update_of_ne ht]
    · exact h.readable
    · exact h.tended

theorem look_removed_blank {t : String} {body : Text} (hd : disk t = some (.text body))
    (hblank : body.all Gitfetch.isSpace) {i : Item} (hi : i.Apart (.file t) ∨ ∀ c, i ≠ .file c) :
    look (Function.update disk t none) i = look disk i := by
  by_cases ht : i.target = t
  · rw [look_removed ht]
    cases i with
    | file c => exact absurd ht (hi.resolve_right (fun h => h c rfl))
    | key c k =>
      obtain rfl : c = t := ht
      simp [look, hd]
    | block c id =>
      obtain rfl : c = t := ht
      simp [look, hd, region_of_blank hblank]
  · exact look_update_of_ne disk none ht

/-- A row whose block has a name; without one an uninstall treats it as a whole file. -/
def Named (r : FileEntry α) : Prop := r.merge = .composite → compositeID r.keys ≠ ""

variable [DecidableEq α] {stuck : String → Bool} (hstuck : ∀ p, stuck p = false)
include hstuck

theorem uninstallOne_replace {body : File α} (hm : f.merge = .replace)
    (hd : disk (resolveDest root f.relPath) = some body) :
    uninstallOne word stuck root disk f =
      if body = f.hash then Function.update disk (resolveDest root f.relPath) none else disk := by
  simp only [uninstallOne, hd, classifyUninstall, hm, classifyReplace, hstuck, Bool.false_eq_true,
    if_false]
  split_ifs <;> rfl

theorem uninstallOne_deep {d : Doc α} (hm : f.merge = .deep)
    (hd : disk (resolveDest root f.relPath) = some (.doc d)) :
    uninstallOne word stuck root disk f =
      Function.update disk (resolveDest root f.relPath) ((pruneDoc d f.keys).map .doc) := by
  simp only [uninstallOne, hd, classifyUninstall, hm, hstuck, Bool.false_eq_true, if_false]
  cases pruneDoc d f.keys <;> rfl

theorem uninstallOne_composite {t : Text} (hm : f.merge = .composite) (hn : compositeID f.keys ≠ "")
    (hd : disk (resolveDest root f.relPath) = some (.text t)) :
    uninstallOne word stuck root disk f =
      Function.update disk (resolveDest root f.relPath)
        (if (removeComposite word (compositeID f.keys) t).all Gitfetch.isSpace then none
          else some (.text (removeComposite word (compositeID f.keys) t))) := by
  have hkeys : f.keys.headD "" ≠ "" := hn
  simp only [uninstallOne, hd, classifyUninstall, hm, if_neg hkeys, hstuck,
    Bool.false_eq_true, if_false]
  rw [show compositeID f.keys = f.keys.headD "" from rfl]
  split_ifs <;> rfl

/-- An uninstall does to a file what a removal of its row does, whatever the hash of keys and
blocks, except that it deletes a text that came out blank. -/
theorem uninstallOne_step (word : Char → Bool) (ho : Orderly disk (f.row root))
    (hn : Named (f.row root)) :
    ∃ h disk'', (Current disk (f.row root) → Unedited disk { f.row root with hash := h }) ∧
      SyncStep word disk ({ f.row root with hash := h }, f.keys) disk'' ∧
        (uninstallOne word stuck root disk f = disk'' ∨
          ∃ t, t.all Gitfetch.isSpace ∧ disk'' (resolveDest root f.relPath) = some (.text t) ∧
            uninstallOne word stuck root disk f =
              Function.update disk'' (resolveDest root f.relPath) none) := by
  obtain ⟨x, hx⟩ := exists_scopedHash ho.readable f.keys
  -- with the hash that its region has on disk, nothing keeps the row
  let seen : Digest α := x.getD (.file f.hash)
  have hseen : Unedited disk { f.row root with hash := seen } := by
    intro y hy
    cases hx.symm.trans hy
    rfl
  have hread := ho.readable
  cases hd : disk (resolveDest root f.relPath) with
  | none =>
    exact ⟨seen, disk, fun _ => hseen, .gone hd, .inl (by simp only [uninstallOne, hd])⟩
  | some body =>
    rw [show (f.row root).target = resolveDest root f.relPath from rfl, hd] at hread
    cases hm : f.merge with
    | replace =>
      rw [uninstallOne_replace hstuck hm hd]
      have hscoped : scopedHash disk (f.row root).merge (f.row root).target (f.row root).keys =
          some (some (.file body)) := by
        rw [show (f.row root).merge = .replace from hm, scopedHash_replace]
        simp [FileRec.row, hd]
      by_cases hb : body = f.hash
      · have hu : Unedited disk (f.row root) := by
          intro y hy
          cases hscoped.symm.trans hy
          exact congrArg Digest.file hb
        exact ⟨.file f.hash, _, fun _ => hu, .file hu hm, .inl (if_pos hb)⟩
      · have hu : ¬ Unedited disk (f.row root) := by
          intro hu
          cases hu _ hscoped
          exact hb rfl
        refine ⟨.file f.hash, disk, fun hc => ?_, .kept hu, .inl (if_neg hb)⟩
        have := hc hm
        simp only [FileRec.row, hd, Option.map_some, Option.some.injEq, Digest.file.injEq] at this
        exact absurd this hb
    | deep =>
      cases body with
      | text t => simp [Readable, FileRec.row, hm, docOf] at hread
      | doc d =>
        exact ⟨seen, _, fun _ => hseen, .keys d hseen hm hd, .inl (uninstallOne_deep hstuck hm hd)⟩
    | composite =>
      cases body with
      | doc d => simp [Readable, FileRec.row, hm, textOf] at hread
      | text t =>
        refine ⟨seen, _, fun _ => hseen, .block t hseen hm hd, ?_⟩
        rw [uninstallOne_composite hstuck hm (hn hm) hd]
        split_ifs with hblank
        · exact .inr ⟨_, hblank, Function.update_self .., (Function.update_idem ..).symm⟩
        · exact .inl rfl

theorem uninstallOne_of_edited (h : ¬ Current disk (f.row root)) :
    uninstallOne word stuck root disk f = disk := by
  obtain ⟨hm, hne⟩ : f.merge = .replace ∧
      (disk (resolveDest root f.relPath)).map Digest.file ≠ some (.file f.hash) := by
    simpa [Current, FileRec.row] using h
  cases hd : disk (resolveDest root f.relPath) with
  | none => simp only [uninstallOne, hd]
  | some body =>
    rw [uninstallOne_replace hstuck hm hd, if_neg]
    rintro rfl
    exact hne (by rw [hd]; rfl)

theorem uninstallOne_spec (word : Char → Bool) (ho : Orderly disk (f.row root))
    (hn : Named (f.row root)) :
    Moved disk (uninstallOne word stuck root disk f) {i | i ∈ (f.row root).items} ∧
      (Current disk (f.row root) →
        ∀ i ∈ (f.row root).items, look (uninstallOne word stuck root disk f) i = none) := by
  obtain ⟨h, disk'', hcur, hstep, hres⟩ := uninstallOne_step hstuck word ho hn
  have hr : Removable disk ({ f.row root with hash := h }, f.keys) :=
    Orderly.removable (e := { f.row root with hash := h }) ⟨ho.sound, ho.readable, ho.tended⟩
  have hcut : cutItems ({ f.row root with hash := h }, f.keys) = (f.row root).items :=
    cutItems_self { f.row root with hash := h }
  have hmoved : Moved disk disk'' {i | i ∈ (f.row root).items} :=
    ⟨fun i hi => hstep.frame hr (hcut ▸ hi),
      fun r hor _ => (hstep.removable hr hor.removable).toOrderly⟩
  have hgone : Current disk (f.row root) → ∀ i ∈ (f.row root).items, look disk'' i = none :=
    fun hc => hcut ▸ hstep.cuts hr (hcur hc)
  obtain heq | ⟨t, hblank, hd, heq⟩ := hres
  · rw [heq]
    exact ⟨hmoved, hgone⟩
  · rw [heq]
    refine ⟨⟨fun i hi => ?_, fun r hor hf => orderly_removed (hmoved.orderly r hor hf) _⟩,
      fun _ i hi => look_removed (target_of_mem_items hi)⟩
    rw [← hmoved.frame i hi]
    refine look_removed_blank hd hblank ?_
    obtain ⟨j, hj⟩ := exists_mem_items (resolveDest root f.relPath) ho.sound
    cases i with
    | file c =>
      -- a whole file is apart from the row's items only if it is another file
      left
      have hap := (hi j hj).symm
      rw [← target_of_mem_items hj]
      cases j <;> exact Ne.symm hap
    | key c k => exact .inr nofun
    | block c id => exact .inr nofun

end Removal

/-- The rows answer for everything that the commands wrote and nobody has touched since. -/
structure Covers (disk : Disk α) (h : History) (rows : Set (FileEntry α)) : Prop where
  orderly : ∀ r ∈ rows, Orderly disk r
  named : ∀ r ∈ rows, Named r
  wrote : ∀ r ∈ rows, ∀ i ∈ r.items, i ∈ h.wrote
  covered : ∀ i ∈ h.kept, look disk i ≠ none → ∃ r ∈ rows, i ∈ r.items ∧ Current disk r
  kept : ∀ i ∈ h.kept, i ∈ h.wrote
  friendly : ∀ i ∈ h.wrote, ∀ j ∈ h.wrote, Friendly i j

variable {h : History} {rows rows' : Set (FileEntry α)} {m : Set Item} {root name : String}

theorem Covers.mono (hc : Covers disk h rows) (hsub : rows ⊆ rows')
    (ho : ∀ r ∈ rows', Orderly disk r) (hn : ∀ r ∈ rows', Named r)
    (hw : ∀ r ∈ rows', ∀ i ∈ r.items, i ∈ h.wrote) : Covers disk h rows' := by
  refine ⟨ho, hn, hw, fun i hi hl => ?_, hc.kept, hc.friendly⟩
  obtain ⟨r, hr, hir, hcur⟩ := hc.covered i hi hl
  exact ⟨r, hsub hr, hir, hcur⟩

theorem Covers.uninstall [DecidableEq α] {stuck : String → Bool} {f : FileRec α}
    (hc : Covers disk h (insert (f.row root) rows)) (hstuck : ∀ p, stuck p = false) :
    Covers (uninstallOne word stuck root disk f) h rows := by
  have hmem : f.row root ∈ insert (f.row root) rows := Set.mem_insert ..
  obtain ⟨hmoved, hgone⟩ :=
    uninstallOne_spec hstuck word (hc.orderly _ hmem) (hc.named _ hmem)
  have hfriendly : ∀ r ∈ rows, ∀ i ∈ r.items, ∀ j ∈ (f.row root).items, Friendly i j :=
    fun r hr i hi j hj => hc.friendly i (hc.wrote r (.inr hr) i hi) j (hc.wrote _ hmem j hj)
  refine ⟨fun r hr => hmoved.orderly r (hc.orderly r (.inr hr)) (hfriendly r hr),
    fun r hr => hc.named r (.inr hr), fun r hr => hc.wrote r (.inr hr), fun i hi hl => ?_, hc.kept,
    hc.friendly⟩
  by_cases hcur : Current disk (f.row root)
  · -- the row's own items are gone, the others are where they were
    have hnot : i ∉ (f.row root).items := fun him => hl (hgone hcur i him)
    have hlook : look (uninstallOne word stuck root disk f) i = look disk i := by
      refine hmoved.frame i (fun j hj => ?_)
      refine (hc.friendly i (hc.kept i hi) j (hc.wrote _ hmem j hj)).resolve_left ?_
      rintro rfl
      exact hnot hj
    obtain ⟨r, hr, hir, hr'⟩ := hc.covered i hi (hlook ▸ hl)
    rcases hr with rfl | hr
    · exact absurd hir hnot
    · exact ⟨r, hr, hir, hr'.of_look hir hlook⟩
  · -- another row answers for a file that was overwritten since
    rw [uninstallOne_of_edited hstuck hcur] at hl ⊢
    obtain ⟨r, hr, hir, hr'⟩ := hc.covered i hi hl
    rcases hr with rfl | hr
    · exact absurd hr' hcur
    · exact ⟨r, hr, hir, hr'⟩

theorem Covers.land {w : FileWrite α} (hc : Covers disk h rows)
    (hmoved : Moved disk disk' {i | i ∈ (landing root name w).items})
    (ho : Orderly disk' ((recOf disk' root name w).row root))
    (hcur : Current disk' ((recOf disk' root name w).row root))
    (hs : Suits word (landing root name w))
    (hf : ∀ i ∈ h.wrote ++ (landing root name w).items, ∀ j ∈ (landing root name w).items,
      Friendly i j) :
    Covers disk' (h.note [landing root name w])
      (insert ((recOf disk' root name w).row root) rows) := by
  have hitems : ((recOf disk' root name w).row root).items = (landing root name w).items := rfl
  have hwrote : (h.note [landing root name w]).wrote = h.wrote ++ (landing root name w).items := by
    simp [History.note]
  have hkept : (h.note [landing root name w]).kept = h.kept ++ (landing root name w).items := by
    simp [History.note]
  refine ⟨?_, ?_, ?_, ?_, ?_, ?_⟩
  · rintro r (rfl | hr)
    · exact ho
    · exact hmoved.orderly r (hc.orderly r hr)
        (fun i hi j hj => hf i (List.mem_append_left _ (hc.wrote r hr i hi)) j hj)
  · rintro r (rfl | hr)
    · intro hm
      cases hs with
      | file hm' => cases hm'.symm.trans hm
      | keys new hm' => cases hm'.symm.trans hm
      | block t _ _ hid => exact hid
    · exact hc.named r hr
  · rw [hwrote]
    rintro r (rfl | hr) i hi
    · exact List.mem_append_right _ hi
    · exact List.mem_append_left _ (hc.wrote r hr i hi)
  · rw [hkept]
    intro i hi hl
    by_cases hnew : i ∈ (landing root name w).items
    · exact ⟨_, Set.mem_insert .., hnew, hcur⟩
    · have hi' : i ∈ h.kept := (List.mem_append.mp hi).resolve_right hnew
      have hlook : look disk' i = look disk i := by
        refine hmoved.frame i (fun j hj => ?_)
        refine (hf i (List.mem_append_left _ (hc.kept i hi')) j hj).resolve_left ?_
        rintro rfl
        exact hnew hj
      obtain ⟨r, hr, hir, hr'⟩ := hc.covered i hi' (hlook ▸ hl)
      exact ⟨r, .inr hr, hir, hr'.of_look hir hlook⟩
  · rw [hkept, hwrote]
    intro i hi
    exact List.mem_append.mpr ((List.mem_append.mp hi).imp_left (hc.kept i))
  · rw [hwrote]
    intro i hi j hj
    rcases List.mem_append.mp hj with hj' | hj'
    · rcases List.mem_append.mp hi with hi' | hi'
      · exact hc.friendly i hi' j hj'
      · exact (hf j hj i hi').imp Eq.symm Item.Apart.symm
    · exact hf i hi j hj'

end AchProofs.Localpkg.Install
