import AchProofs.Foundation.Sweep
import AchProofs.Hydrate.Item

namespace AchProofs.Hydrate

open Foundation Cli.Merge Cli.Composite Cli.CompositeLayout
  Cli.DottedKey

variable {α : Type}

def Tended (body : Text) : Prop := ∃ cs, Laid ValidId cs ∧ render cs = body

/-- The row's region is gone or still has the recorded hash: the drift gate lets it go. -/
def Unedited (disk : Disk α) (e : FileEntry α) : Prop :=
  ∀ h, scopedHash disk e.merge e.target e.keys = some (some h) → h = e.hash

/-- The row's file can be worked on as the row's kind asks. -/
structure Orderly (disk : Disk α) (e : FileEntry α) : Prop where
  sound : Sound e.keys e.merge
  readable : Readable (disk e.target) e.merge
  tended : e.merge = .composite → ∀ body, textOf (disk e.target) = some body → Tended body

structure Removable (disk : Disk α) (del : FileEntry α × List String) : Prop
    extends Orderly disk del.1 where
  sub : del.2 ⊆ del.1.keys
  ne : del.1.merge = .deep → del.2 ≠ []

/-- What a removal takes away: the keys it lists, or all the row answers for. -/
def cutItems (del : FileEntry α × List String) : List Item :=
  match del.1.merge with
  | .deep => del.2.map (.key del.1.target)
  | _ => del.1.items

theorem cutItems_self (e : FileEntry α) : cutItems (e, e.keys) = e.items := by
  cases hm : e.merge <;> simp [cutItems, FileEntry.items, items, hm]

theorem cutItems_subset {disk : Disk α} {del : FileEntry α × List String}
    (h : Removable disk del) : ∀ i ∈ cutItems del, i ∈ del.1.items := by
  intro i hi
  unfold cutItems at hi
  split at hi
  case h_1 hm =>
    obtain ⟨k, hk, rfl⟩ := List.mem_map.mp hi
    rw [FileEntry.items, hm]
    exact List.mem_map_of_mem (h.sub hk)
  case h_2 => exact hi

theorem Unedited.congr {disk disk' : Disk α} {del : FileEntry α × List String}
    (h : Removable disk del) (h' : Removable disk' del)
    (hl : ∀ i ∈ del.1.items, look disk' i = look disk i) :
    Unedited disk' del.1 ↔ Unedited disk del.1 := by
  unfold Unedited
  rw [scopedHash_congr h.readable h'.readable hl]

theorem Intact.unedited {disk : Disk α} {e : FileEntry α} (h : Intact disk e) :
    Unedited disk e := by
  intro x hx
  rw [Intact, hx] at h
  cases h
  rfl

/-- The ways a removal can go. -/
inductive SyncStep (word : Char → Bool) (disk : Disk α) (del : FileEntry α × List String) :
    Disk α → Prop where
  | gone : disk del.1.target = none → SyncStep word disk del disk
  | kept : ¬ Unedited disk del.1 → SyncStep word disk del disk
  | file : Unedited disk del.1 → del.1.merge = .replace →
      SyncStep word disk del (Function.update disk del.1.target none)
  | keys (d : Doc α) : Unedited disk del.1 → del.1.merge = .deep →
      disk del.1.target = some (.doc d) →
      SyncStep word disk del (Function.update disk del.1.target ((pruneDoc d del.2).map .doc))
  | block (body : Text) : Unedited disk del.1 → del.1.merge = .composite →
      disk del.1.target = some (.text body) →
      SyncStep word disk del (Function.update disk del.1.target
        (some (.text (removeComposite word (compositeID del.1.keys) body))))

theorem removeEntry_spec (word : Char → Bool) {disk : Disk α} {del : FileEntry α × List String}
    (h : Removable disk del) (hu : Unedited disk del.1) {f : File α}
    (hf : disk del.1.target = some f) :
    SyncStep word disk del (removeEntry word disk del.1 del.2 f) := by
  have hr := h.readable
  rw [hf] at hr
  cases hm : del.1.merge with
  | replace =>
    have heq : removeEntry word disk del.1 del.2 f = Function.update disk del.1.target none := by
      simp only [removeEntry, hm]
    exact heq ▸ .file hu hm
  | deep =>
    cases f with
    | text body => simp [Readable, hm, docOf] at hr
    | doc d =>
      have heq : removeEntry word disk del.1 del.2 (.doc d) =
          Function.update disk del.1.target ((pruneDoc d del.2).map .doc) := by
        simp only [removeEntry, hm]
      exact heq ▸ .keys d hu hm hf
  | composite =>
    have hkeys : del.1.keys ≠ [] := by
      have := h.sound
      rw [hm] at this
      exact this.1
    cases f with
    | doc d => simp [Readable, hm, textOf] at hr
    | text body =>
      have heq : removeEntry word disk del.1 del.2 (.text body) =
          Function.update disk del.1.target
            (some (.text (removeComposite word (compositeID del.1.keys) body))) := by
        simp only [removeEntry, hm, hkeys, if_false]
      exact heq ▸ .block body hu hm hf

variable {word : Char → Bool} {disk disk' : Disk α} {del : FileEntry α × List String}

theorem docOf_pruneDoc (d : Doc α) (keys : List String) :
    ∃ d', docOf ((pruneDoc d keys).map .doc) = some d' ∧
      d'.tree = keys.foldl pruneDottedKey d.tree := by
  unfold pruneDoc
  split
  · next h => exact ⟨emptyDoc, rfl, h.symm⟩
  · exact ⟨_, rfl, rfl⟩

section Block

variable {cs : List Chunk} {id : String}

theorem textOf_removed (hl : Laid ValidId cs) (hid : ValidId id) (disk : Disk α) (t : String) :
    textOf (Function.update disk t (some (.text (removeComposite word id (render cs)))) t) =
      some (render (dropBlock id cs)) := by
  simp [textOf, removeComposite_render (fun _ h => h) word hl hid]

theorem region_removed (hl : Laid ValidId cs) (hid : ValidId id) :
    region id (render (dropBlock id cs)) = none :=
  region_of_not_mem (fun _ h => h) (hl.dropBlock id) hid
    (fun _ hc => ((mem_dropBlock cs).mp hc).2 rfl)

theorem region_removed_of_ne (hl : Laid ValidId cs) {id' : String} (hid' : ValidId id')
    (hne : id' ≠ id) : region id' (render (dropBlock id cs)) = region id' (render cs) :=
  region_congr (fun _ h => h) hl (hl.dropBlock id) hid'
    (fun _ => (mem_dropBlock cs).trans (and_iff_left hne))

end Block

theorem Removable.laid (hr : Removable disk del) (hm : del.1.merge = .composite) {body : Text}
    (hb : disk del.1.target = some (.text body)) :
    ValidId (compositeID del.1.keys) ∧ ∃ cs, Laid ValidId cs ∧ render cs = body := by
  have hs := hr.sound
  rw [hm] at hs
  exact ⟨hs.2, hr.tended hm body (by rw [hb]; rfl)⟩

theorem SyncStep.frame (hr : Removable disk del) (h : SyncStep word disk del disk') {i : Item}
    (hi : ∀ j ∈ cutItems del, i.Apart j) : look disk' i = look disk i := by
  by_cases ht : i.target = del.1.target
  case neg => cases h <;> first | rfl | exact look_update_of_ne disk _ ht
  cases h with
  | gone => rfl
  | kept => rfl
  | file hu hm =>
    have := hi (.file del.1.target) (by simp [cutItems, FileEntry.items, items, hm])
    cases i <;> exact absurd ht this
  | keys d hu hm hd =>
    simp only [cutItems, hm, List.forall_mem_map] at hi
    obtain ⟨k, hk⟩ := List.exists_mem_of_ne_nil _ (hr.ne hm)
    cases i with
    | file t => exact absurd ht (hi k hk)
    | block t id => exact absurd ht (hi k hk)
    | key t c =>
      obtain rfl : t = del.1.target := ht
      obtain ⟨d', hd', htree⟩ := docOf_pruneDoc d del.2
      have hc : ∀ k ∈ del.2, Foundation.Apart (splitPath k) (splitPath c) :=
        fun k hk => ((hi k hk).resolve_left (absurd rfl)).symm
      rw [look_key (d := d') (by simpa using hd'), look_key (d := d) (by rw [hd]; rfl), htree,
        getDottedKey, get_pruneAll_of_apart d.tree hc, getDottedKey]
  | block body hu hm hb =>
    obtain ⟨hid, cs, hl, rfl⟩ := hr.laid hm hb
    have hap := hi (.block del.1.target (compositeID del.1.keys))
      (by simp [cutItems, FileEntry.items, items, hm])
    cases i with
    | file t => exact absurd ht hap
    | key t c => exact absurd ht hap
    | block t id =>
      obtain rfl : t = del.1.target := ht
      obtain ⟨hne, hid', -⟩ := hap.resolve_left (absurd rfl)
      have hb' : textOf (disk del.1.target) = some (render cs) := by rw [hb]; rfl
      rw [look_block (textOf_removed hl hid disk del.1.target), look_block hb',
        region_removed_of_ne hl hid' hne]

theorem SyncStep.cuts (hr : Removable disk del) (hu : Unedited disk del.1)
    (h : SyncStep word disk del disk') : ∀ i ∈ cutItems del, look disk' i = none := by
  intro i hi
  cases h with
  | gone hf =>
    have ht := target_of_mem_items (cutItems_subset hr i hi)
    cases i <;> cases ht <;> simp [look, hf]
  | kept hno => exact absurd hu hno
  | file _ hm =>
    simp only [cutItems, hm, FileEntry.items, items, List.mem_singleton] at hi
    subst hi
    simp [look]
  | keys d _ hm hd =>
    simp only [cutItems, hm, List.mem_map] at hi
    obtain ⟨k, hk, rfl⟩ := hi
    obtain ⟨d', hd', htree⟩ := docOf_pruneDoc d del.2
    rw [look_key (d := d') (by simpa using hd'), htree, get_pruneAll_mem d.tree hk]
    rfl
  | block body _ hm hb =>
    obtain ⟨hid, cs, hl, rfl⟩ := hr.laid hm hb
    simp only [cutItems, hm, FileEntry.items, items, List.mem_singleton] at hi
    subst hi
    rw [look_block (textOf_removed hl hid disk del.1.target), region_removed hl hid]
    rfl

theorem SyncStep.file_kind (hr : Removable disk del) (h : SyncStep word disk del disk')
    (t : String) : disk' t = disk t ∨ disk' t = none ∨
      (∃ d d', disk t = some (.doc d) ∧ disk' t = some (.doc d')) ∨
      (∃ body body', disk t = some (.text body) ∧ disk' t = some (.text body') ∧ Tended body') := by
  by_cases ht : t = del.1.target
  case neg => cases h <;> first | exact .inl rfl | exact .inl (Function.update_of_ne ht _ _)
  subst ht
  cases h with
  | gone => exact .inl rfl
  | kept => exact .inl rfl
  | file => exact .inr (.inl (Function.update_self _ _ _))
  | keys d _ _ hd =>
    rw [Function.update_self]
    cases pruneDoc d del.2 with
    | none => exact .inr (.inl rfl)
    | some d' => exact .inr (.inr (.inl ⟨d, d', hd, rfl⟩))
  | block body _ hm hb =>
    obtain ⟨hid, cs, hl, rfl⟩ := hr.laid hm hb
    rw [Function.update_self]
    refine .inr (.inr (.inr ⟨_, _, hb, rfl, _, hl.dropBlock (compositeID del.1.keys), ?_⟩))
    exact (removeComposite_render (fun _ h => h) word hl hid).symm

theorem tended_nil : Tended [] := ⟨[], ⟨by simp, by simp, by simp [userText, beginMarker]⟩, rfl⟩

theorem SyncStep.removable {del' : FileEntry α × List String} (hr : Removable disk del)
    (hr' : Removable disk del') (h : SyncStep word disk del disk') : Removable disk' del' := by
  refine ⟨⟨hr'.sound, ?_, ?_⟩, hr'.sub, hr'.ne⟩
  · have hread := hr'.readable
    obtain heq | heq | ⟨d, d', hd, heq⟩ | ⟨body, body', hb, heq, -⟩ := h.file_kind hr del'.1.target
    · rwa [heq]
    · rw [heq]
      cases del'.1.merge <;> trivial
    · rw [hd] at hread
      rw [heq]
      cases hm : del'.1.merge <;> simp_all [Readable, docOf, textOf]
    · rw [hb] at hread
      rw [heq]
      cases hm : del'.1.merge <;> simp_all [Readable, docOf, textOf]
  · intro hm body hb
    obtain heq | heq | ⟨d, d', -, heq⟩ | ⟨-, body', -, heq, hbody⟩ := h.file_kind hr del'.1.target
    all_goals rw [heq] at hb
    · exact hr'.tended hm body hb
    · cases hb
      exact tended_nil
    · cases hb
    · cases hb
      exact hbody

variable [DecidableEq α] {word : Char → Bool}

theorem syncOne_spec (word : Char → Bool) {disk : Disk α} {del : FileEntry α × List String}
    (h : Removable disk del) :
    ∃ disk', syncOne word disk del = some disk' ∧ SyncStep word disk del disk' := by
  obtain ⟨x, hx⟩ := exists_scopedHash h.readable del.1.keys
  cases hf : disk del.1.target with
  | none => exact ⟨disk, by simp only [syncOne, hf], .gone hf⟩
  | some f =>
    cases x with
    | none =>
      have hu : Unedited disk del.1 := fun y hy => by cases hx.symm.trans hy
      exact ⟨_, by simp only [syncOne, hf, hx], removeEntry_spec word h hu hf⟩
    | some y =>
      by_cases hy : y = del.1.hash
      · have hu : Unedited disk del.1 := fun z hz => by cases hx.symm.trans hz; exact hy
        exact ⟨_, by simp only [syncOne, hf, hx, hy, if_true], removeEntry_spec word h hu hf⟩
      · exact ⟨disk, by simp only [syncOne, hf, hx, hy, if_false], .kept (fun hu => hy (hu y hx))⟩

theorem syncStep_of_syncOne (hr : Removable disk del) (h : syncOne word disk del = some disk') :
    SyncStep word disk del disk' := by
  obtain ⟨d, hd, hs⟩ := syncOne_spec word hr
  cases hd.symm.trans h
  exact hs

def sweeper (α : Type) [DecidableEq α] (word : Char → Bool) :
    Sweep (Disk α) Item (Piece α) (FileEntry α × List String) where
  look := look
  Apart := Item.Apart
  own del := del.1.items
  cut := cutItems
  Good := Removable
  Open disk del := Unedited disk del.1
  step := syncOne word
  total _ _ hr := (syncOne_spec word hr).imp (fun _ h => h.1)
  good _ _ _ _ hr hr' h := (syncStep_of_syncOne hr h).removable hr hr'
  gate _ _ _ hr hr' hl := Unedited.congr hr hr' hl
  cuts _ _ _ hr hu h := (syncStep_of_syncOne hr h).cuts hr hu
  frame _ _ _ hr h _ hi := (syncStep_of_syncOne hr h).frame hr hi
  closed _ _ _ hr hno h := by
    cases syncStep_of_syncOne hr h <;> first | rfl | contradiction
  cut_subset _ _ hr := cutItems_subset hr

end AchProofs.Hydrate
