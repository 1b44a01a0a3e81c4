import AchProofs.Hydrate.SyncEffect

namespace AchProofs.Hydrate

open Foundation Cli.Merge Cli.Composite Cli.CompositeLayout
  Cli.DottedKey

variable {α : Type}

/-- A document to merge that has something under each of its keys and nothing beside them. -/
structure Contributes (t : KeyTree String α) (keys : List String) : Prop where
  present : ∀ k ∈ keys, getDottedKey t k ≠ none
  only : ∀ q, (∀ k ∈ keys, Foundation.Apart (splitPath k) q) → t.Misses q

/-- The content of a write suits its kind, and so does the file it goes to. -/
inductive Fits (word : Char → Bool) (disk : Disk α) (w : FileWrite α) : Prop where
  | file : w.merge = .replace → Fits word disk w
  | keys (new old : Doc α) : w.merge = .deep → w.content = .doc new →
      docOf (disk w.path) = some old → Contributes new.tree w.keys → Fits word disk w
  | block (t : Text) (cs : List Chunk) : w.merge = .composite → w.content = .text t →
      textOf (disk w.path) = some (render cs) → Laid ValidId cs →
      ContentSafe ValidId (compositeID w.keys) t →
      ((region (compositeID w.keys) (render cs)).isSome →
        Literal word (compositeBlock (compositeID w.keys) t)) → Fits word disk w

/-- Nothing of what a key held before survives a merge of the new value into it. -/
def Places (disk : Disk α) (w : FileWrite α) : Prop :=
  ∀ new old, w.content = .doc new → docOf (disk w.path) = some old → ∀ k ∈ w.keys, ∀ v,
    getDottedKey new.tree k = some v → KeyTree.mergeValue (getDottedKey old.tree k) v = v

variable {word : Char → Bool} {disk disk' : Disk α} {w : FileWrite α}

theorem Fits.readable (h : Fits word disk w) : Readable (disk w.path) w.merge := by
  cases h with
  | file hm => simp [hm, Readable]
  | keys new old hm _ ho => simp [hm, Readable, ho]
  | block t cs hm _ hb => simp [hm, Readable, hb]

theorem writeFile_keys {new old : Doc α} (hm : w.merge = .deep) (hc : w.content = .doc new)
    (ho : docOf (disk w.path) = some old) :
    writeFile word disk w =
      some (Function.update disk w.path (some (.doc (mergeDocs old new)))) := by
  unfold docOf at ho
  split at ho <;> cases ho
  all_goals
    next hf => simp only [writeFile, hm, hc, hf]

theorem writeFile_block {t body : Text} (hm : w.merge = .composite) (hc : w.content = .text t)
    (hb : textOf (disk w.path) = some body) :
    writeFile word disk w = some (Function.update disk w.path (some (.text
      (writeComposite word (compositeID w.keys) (compositeBlock (compositeID w.keys) t)
        body)))) := by
  unfold textOf at hb
  split at hb <;> cases hb
  all_goals
    next hf => simp only [writeFile, hm, hc, hf]

theorem writeFile_replace (hm : w.merge = .replace) :
    writeFile word disk w = some (Function.update disk w.path (some w.content)) := by
  simp only [writeFile, hm]

section Block

variable {cs : List Chunk} {id : String} {t : Text}

theorem textOf_written (hl : Laid ValidId cs) (hid : ValidId id)
    (hlit : (region id (render cs)).isSome → Literal word (compositeBlock id t)) (disk : Disk α)
    (target : String) :
    textOf (Function.update disk target
        (some (.text (writeComposite word id (compositeBlock id t) (render cs)))) target) =
      some (render (setBlock id t cs)) := by
  simp [textOf, writeComposite_render (fun _ h => h) word hl hid hlit]

theorem region_written (hl : Laid ValidId cs) (hid : ValidId id) (hs : ContentSafe ValidId id t) :
    region id (render (setBlock id t cs)) = some (compositeBlock id t) :=
  region_of_mem (fun _ h => h) (hl.setBlock hid hs) ((mem_setBlock cs).mpr rfl)

theorem region_written_of_ne (hl : Laid ValidId cs) (hid : ValidId id)
    (hs : ContentSafe ValidId id t) {id' : String} (hid' : ValidId id') (hne : id' ≠ id) :
    region id' (render (setBlock id t cs)) = region id' (render cs) :=
  region_congr (fun _ h => h) hl (hl.setBlock hid hs) hid' (fun _ => mem_setBlock_of_ne hne cs)

end Block

theorem look_written_key {old new : Doc α} {t k : String} (disk : Disk α) :
    look (Function.update disk t (some (.doc (mergeDocs old new)))) (.key t k) =
      (getDottedKey (old.tree.merge new.tree) k).map .value := by
  rw [look_key (d := mergeDocs old new) (by simp [docOf])]
  rfl

theorem writeFile_frame (hs : Sound w.keys w.merge) (hf : Fits word disk w) :
    ∃ disk', writeFile word disk w = some disk' ∧
      ∀ i : Item, (∀ j ∈ w.items, i.Apart j) → look disk' i = look disk i := by
  cases hf with
  | file hm =>
    refine ⟨_, writeFile_replace hm, fun i hi => look_update_of_ne disk _ (fun ht => ?_)⟩
    exact Item.not_apart_file ht (hi _ (file_mem_items.mpr ⟨hm, rfl⟩))
  | keys new old hm hc ho hcon =>
    rw [hm] at hs
    refine ⟨_, writeFile_keys hm hc ho, fun i hi => ?_⟩
    by_cases ht : i.target = w.path
    case neg => exact look_update_of_ne disk _ ht
    simp only [FileWrite.items, items, hm, List.forall_mem_map] at hi
    obtain ⟨k, hk⟩ := List.exists_mem_of_ne_nil _ hs.1
    cases i with
    | file t => exact absurd ht (hi k hk)
    | block t id => exact absurd ht (hi k hk)
    | key t c =>
      obtain rfl : t = w.path := ht
      have hmiss : new.tree.Misses (splitPath c) :=
        hcon.only _ (fun k hk => ((hi k hk).resolve_left (absurd rfl)).symm)
      rw [look_written_key, look_key ho, getDottedKey, KeyTree.get_merge_of_misses _ hmiss]
      rfl
  | block t cs hm hc hb hl hsafe hlit =>
    rw [hm] at hs
    refine ⟨_, writeFile_block hm hc hb, fun i hi => ?_⟩
    by_cases ht : i.target = w.path
    case neg => exact look_update_of_ne disk _ ht
    have hap := hi (.block w.path (compositeID w.keys)) (block_mem_items.mpr ⟨hm, rfl, rfl⟩)
    cases i with
    | file t => exact absurd ht hap
    | key t c => exact absurd ht hap
    | block t' id =>
      obtain rfl : t' = w.path := ht
      obtain ⟨hne, hid', -⟩ := hap.resolve_left (absurd rfl)
      rw [look_block (textOf_written hl hs.2 hlit disk w.path), look_block hb,
        region_written_of_ne hl hs.2 hsafe hid' hne]

theorem scopedHash_writeFile (hs : Sound w.keys w.merge) (hf : Fits word disk w)
    (hp : Places disk w) (hw : writeFile word disk w = some disk') :
    ∃ fresh, freshHash w = some fresh ∧
      scopedHash disk' w.merge w.path w.keys = some (some fresh) := by
  cases hf with
  | file hm =>
    rw [writeFile_replace hm] at hw
    cases hw
    refine ⟨.file w.content, by simp only [freshHash, hm], ?_⟩
    rw [hm, scopedHash_replace]
    simp
  | keys new old hm hc ho hcon =>
    rw [writeFile_keys hm hc ho] at hw
    cases hw
    rw [hm] at hs
    have hget : ∀ k ∈ w.keys,
        getDottedKey (old.tree.merge new.tree) k = getDottedKey new.tree k := by
      intro k hk
      obtain ⟨v, hv⟩ := Option.ne_none_iff_exists'.mp (hcon.present k hk)
      rw [getDottedKey, KeyTree.get_merge_of_get _ hv, hv]
      exact congrArg some (hp new old hc ho k hk v hv)
    refine ⟨.subtree (extractByKeys new.tree w.keys).1, by simp only [freshHash, hm, hc, hs.1,
      if_false], ?_⟩
    obtain ⟨k, hk⟩ := List.exists_mem_of_ne_nil _ hs.1
    have hfound := (extractByKeys_found new.tree w.keys).mpr ⟨k, hk, hcon.present k hk⟩
    rw [hm, scopedHash_deep (d := mergeDocs old new) (by simp [docOf])]
    simp only [mergeDocs, Doc.merge, deepMergeInto, extractByKeys_congr hget, hfound, if_true]
  | block t cs hm hc hb hl hsafe hlit =>
    rw [writeFile_block hm hc hb] at hw
    cases hw
    rw [hm] at hs
    refine ⟨.text (compositeBlock (compositeID w.keys) t), by simp only [freshHash, hm, hc], ?_⟩
    rw [hm, scopedHash_composite (textOf_written hl hs.2 hlit disk w.path),
      region_written hl hs.2 hsafe]
    rfl

theorem Fits.exists_freshHash (h : Fits word disk w) : ∃ fresh, freshHash w = some fresh := by
  cases h with
  | file hm => exact ⟨_, by simp only [freshHash, hm]; rfl⟩
  | keys new old hm hc => exact ⟨_, by simp only [freshHash, hm, hc]; rfl⟩
  | block t cs hm hc => exact ⟨_, by simp only [freshHash, hm, hc]; rfl⟩

def freshEntry (w : FileWrite α) (source : String) (fresh : Digest α) : FileEntry α :=
  ⟨w.path, fresh, w.sourceHash.getD fresh, w.merge, w.keys, source⟩

/-- The ways a publish can go, with the hash of what it contributes and that of its region on
disk. -/
inductive Publication (word : Char → Bool) (disk : Disk α) (prior : Option (FileEntry α))
    (w : FileWrite α) (source : String) (fresh : Digest α) (onDisk : Option (Digest α)) :
    Published α → Prop where
  | refused (p : FileEntry α) : prior = some p → onDisk ≠ some p.hash → onDisk ≠ some fresh →
      Publication word disk prior w source fresh onDisk .refused
  | skipped (p : FileEntry α) : prior = some p →
      (onDisk = some fresh ∨ onDisk = some p.hash ∧ w.sourceHash.getD fresh = p.sourceHash) →
      Publication word disk prior w source fresh onDisk (.done disk (freshEntry w source fresh))
  | written (disk' : Disk α) : (∀ p, prior = some p → onDisk = some p.hash) →
      writeFile word disk w = some disk' →
      Publication word disk prior w source fresh onDisk (.done disk' (freshEntry w source fresh))

variable [DecidableEq α]

section Drift

variable {p : FileEntry α} {onDisk : Option (Digest α)} {fresh source : Digest α}

theorem driftOutcome_of_recorded (h : onDisk = some p.hash) :
    driftOutcome (some p) onDisk fresh source =
      if source = p.sourceHash then .noOp else .upstreamOnlyOverwrite := by
  unfold driftOutcome compareDrift
  by_cases hs : source = p.sourceHash <;> simp [h, hs, shouldExit2]

theorem driftOutcome_of_fresh (h : onDisk ≠ some p.hash) (hf : onDisk = some fresh) :
    driftOutcome (some p) onDisk fresh source = .noOp := by
  subst hf
  unfold driftOutcome compareDrift
  by_cases hs : source = p.sourceHash <;> simp only [h, hs, if_true, if_false] <;> rfl

theorem shouldExit2_driftOutcome (h : onDisk ≠ some p.hash) (hf : onDisk ≠ some fresh) :
    shouldExit2 (driftOutcome (some p) onDisk fresh source) = true := by
  unfold driftOutcome compareDrift
  by_cases hs : source = p.sourceHash <;> simp [h, hf, hs, shouldExit2]

end Drift

theorem publishFile_spec (prior : Option (FileEntry α)) (source : String)
    (hs : Sound w.keys w.merge) (hf : Fits word disk w) :
    ∃ fresh onDisk, freshHash w = some fresh ∧
      scopedHash disk w.merge w.path w.keys = some onDisk ∧
      Publication word disk prior w source fresh onDisk
        (publishFile word disk prior w source) := by
  obtain ⟨fresh, hfresh⟩ := hf.exists_freshHash
  obtain ⟨onDisk, hdisk⟩ := exists_scopedHash hf.readable w.keys
  obtain ⟨disk', hw, -⟩ := writeFile_frame hs hf
  refine ⟨fresh, onDisk, hfresh, hdisk, ?_⟩
  cases prior with
  | none =>
    have hres : publishFile word disk none w source = .done disk' (freshEntry w source fresh) := by
      simp [publishFile, hfresh, hdisk, hw, freshEntry]
    exact hres ▸ .written disk' (by simp) hw
  | some p =>
    have hres : publishFile word disk (some p) w source =
        if shouldExit2 (driftOutcome (some p) onDisk fresh (w.sourceHash.getD fresh)) then .refused
        else if driftOutcome (some p) onDisk fresh (w.sourceHash.getD fresh) = .noOp then
          .done disk (freshEntry w source fresh)
        else .done disk' (freshEntry w source fresh) := by
      simp [publishFile, hfresh, hdisk, hw, freshEntry]
    rw [hres]
    by_cases hp : onDisk = some p.hash
    · rw [driftOutcome_of_recorded hp]
      split
      · next hsrc => exact .skipped p rfl (.inr ⟨hp, hsrc⟩)
      · exact .written disk' (fun q hq => by cases hq; exact hp) hw
    · by_cases hfr : onDisk = some fresh
      · rw [driftOutcome_of_fresh hp hfr]
        exact .skipped p rfl (.inl hfr)
      · rw [if_pos (shouldExit2_driftOutcome hp hfr)]
        exact .refused p rfl hp hfr

end AchProofs.Hydrate
