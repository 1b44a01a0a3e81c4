import AchProofs.Hydrate.PublishEffect
import AchProofs.Hydrate.Synced

namespace AchProofs.Hydrate

open Foundation Cli.Composite Cli.CompositeLayout

variable {α : Type} {word : Char → Bool} {disk disk' : Disk α} {w : FileWrite α} {source : String}
  {fresh : Digest α} {e : FileEntry α}

structure Upheld (disk : Disk α) (e : FileEntry α) : Prop extends Orderly disk e where
  intact : Intact disk e

theorem Fits.orderly (hs : Sound w.keys w.merge) (hf : Fits word disk w) :
    Orderly disk (freshEntry w source fresh) := by
  refine ⟨hs, hf.readable, fun hm body hb => ?_⟩
  cases hf with
  | file hm' => cases hm'.symm.trans hm
  | keys new old hm' => cases hm'.symm.trans hm
  | block t cs _ _ hb' hl => exact ⟨cs, hl, Option.some.inj (hb'.symm.trans hb)⟩

theorem writeFile_orderly (hs : Sound w.keys w.merge) (hf : Fits word disk w)
    (hw : writeFile word disk w = some disk') : Orderly disk' (freshEntry w source fresh) := by
  cases hf with
  | file hm => exact ⟨hs, by simp [freshEntry, hm, Readable], fun hm' => by cases hm.symm.trans hm'⟩
  | keys new old hm hc ho =>
    rw [writeFile_keys hm hc ho] at hw
    cases hw
    exact ⟨hs, by simp [freshEntry, hm, Readable, docOf], fun hm' => by cases hm.symm.trans hm'⟩
  | block t cs hm hc hb hl hsafe hlit =>
    rw [writeFile_block hm hc hb] at hw
    cases hw
    rw [hm] at hs
    have ht := textOf_written hl hs.2 hlit disk w.path
    refine ⟨by rwa [freshEntry, hm], by simp only [freshEntry, hm, Readable, ht]; rfl, ?_⟩
    intro _ body hbody
    exact ⟨_, hl.setBlock hs.2 hsafe, Option.some.inj (ht.symm.trans hbody)⟩

theorem merge_eq_of_apart {m m' : MergeKind} {t t' : String} {keys keys' : List String} {i j : Item}
    (hi : i ∈ items m t keys) (hj : j ∈ items m' t' keys') (h : i.Apart j) (ht : t = t') :
    m = m' := by
  have htarget : i.target = j.target :=
    (target_of_mem_items hi).trans (ht.trans (target_of_mem_items hj).symm)
  cases i <;> cases j
  case key.key => exact (key_mem_items.mp hi).1.trans (key_mem_items.mp hj).1.symm
  case block.block => exact (block_mem_items.mp hi).1.trans (block_mem_items.mp hj).1.symm
  all_goals exact absurd htarget h

theorem merge_eq_of_mem {m m' : MergeKind} {t t' : String} {keys keys' : List String} {i : Item}
    (hi : i ∈ items m t keys) (hj : i ∈ items m' t' keys') : m = m' := by
  cases i
  case file => exact (file_mem_items.mp hi).1.trans (file_mem_items.mp hj).1.symm
  case key => exact (key_mem_items.mp hi).1.trans (key_mem_items.mp hj).1.symm
  case block => exact (block_mem_items.mp hi).1.trans (block_mem_items.mp hj).1.symm

theorem Orderly.of_same_kind {r : FileEntry α} (hr : Orderly disk r) (hs : Sound e.keys e.merge)
    (ht : e.target = r.target) (hm : e.merge = r.merge) : Orderly disk e :=
  ⟨hs, by rw [ht, hm]; exact hr.readable, by rw [ht, hm]; exact hr.tended⟩

theorem orderly_of_compatible {rows : List (FileEntry α)} (hs : Sound e.keys e.merge)
    (hc : ∀ r ∈ rows, Compatible e r) (hrows : ∀ r ∈ rows, Orderly disk r)
    (hkept : (∀ r ∈ rows, RowsApart e r) → Orderly disk e) : Orderly disk e := by
  by_cases hap : ∀ r ∈ rows, RowsApart e r
  · exact hkept hap
  · simp only [RowsApart, not_forall] at hap
    obtain ⟨r, hr, i, hi, j, hj, hno⟩ := hap
    obtain rfl := (hc r hr i hi j hj).resolve_right hno
    have ht := (target_of_mem_items hi).symm.trans (target_of_mem_items hj)
    exact (hrows r hr).of_same_kind hs ht (merge_eq_of_mem hi hj)

/-- What a publish that goes through does, to its own row and beside it. -/
structure Lands (disk disk' : Disk α) (r : FileEntry α) : Prop where
  orderly : Orderly disk' r
  frame : ∀ i : Item, (∀ j ∈ r.items, i.Apart j) → look disk' i = look disk i
  other : ∀ t, t ≠ r.target → disk' t = disk t

theorem Lands.orderly_of_apart {r : FileEntry α} (h : Lands disk disk' r) (he : Orderly disk e)
    (hap : RowsApart e r) : Orderly disk' e := by
  by_cases ht : e.target = r.target
  · obtain ⟨i, hi⟩ := exists_mem_items e.target he.sound
    obtain ⟨j, hj⟩ := exists_mem_items r.target h.orderly.sound
    exact h.orderly.of_same_kind he.sound ht (merge_eq_of_apart hi hj (hap i hi j hj) ht)
  · exact ⟨he.sound, by rw [h.other _ ht]; exact he.readable, by rw [h.other _ ht]; exact he.tended⟩

theorem Lands.upheld_of_apart {r : FileEntry α} (h : Lands disk disk' r) (he : Upheld disk e)
    (hap : RowsApart e r) : Upheld disk' e :=
  ⟨h.orderly_of_apart he.toOrderly hap,
    he.intact.congr (fun i hi => h.frame i (fun j hj => hap i hi j hj))⟩

theorem writeFile_lands (hs : Sound w.keys w.merge) (hf : Fits word disk w)
    (hw : writeFile word disk w = some disk') : Lands disk disk' (freshEntry w source fresh) := by
  obtain ⟨d, hd, hframe⟩ := writeFile_frame hs hf
  cases hd.symm.trans hw
  exact ⟨writeFile_orderly hs hf hw, hframe, fun t ht => writeFile_other hw ht⟩

variable [DecidableEq α] {prior : Option (FileEntry α)} {r : FileEntry α}

end AchProofs.Hydrate
