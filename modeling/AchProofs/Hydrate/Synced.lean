import AchProofs.Hydrate.SyncEffect

namespace AchProofs.Hydrate

open Foundation

variable {α : Type} {prev next : List (FileEntry α)} {e : FileEntry α} {keys : List String}

/-- Why a row of the previous state has something to remove. -/
inductive Uncovered (next : List (FileEntry α)) (e : FileEntry α) : List String → Prop where
  | file : (∀ r ∈ next, r.target ≠ e.target) → Uncovered next e e.keys
  | block : e.merge = .composite →
      (∀ r ∈ next, r.target = e.target → r.merge = .composite →
        compositeID r.keys ≠ compositeID e.keys) → Uncovered next e []
  | keys {keys : List String} : e.merge = .deep → keys ≠ [] →
      (∀ k ∈ keys, k ∈ e.keys ∧ ∀ r ∈ next, r.target = e.target → r.merge = .deep → k ∉ r.keys) →
      (∀ r ∈ next, r.target = e.target → r.merge ≠ .replace) → Uncovered next e keys

theorem Uncovered.of_uncovered (h : uncovered next e = some keys) : Uncovered next e keys := by
  dsimp only [uncovered] at h
  by_cases hc : next.filter (fun r => r.target = e.target) = []
  · rw [if_pos hc] at h
    cases h
    exact .file (fun r hr ht => by simpa [ht] using List.filter_eq_nil_iff.mp hc r hr)
  rw [if_neg hc] at h
  split at h
  · cases h
  next hrep =>
  split at h
  · next hm =>
    split at h <;> cases h
    next hid =>
    exact .block hm (fun r hr ht hk heq => hid (by simpa using ⟨r, hr, ht, hk, heq⟩))
  · next hm =>
    split at h <;> cases h
    next hne =>
    refine .keys hm hne (fun k hk => ?_)
      (fun r hr ht hk => hrep (by simpa using ⟨r, hr, ht, hk⟩))
    obtain ⟨hk, hno⟩ := List.mem_filter.mp hk
    refine ⟨hk, fun r hr ht hd hkr => ?_⟩
    simp only [decide_not, Bool.not_eq_true', decide_eq_false_iff_not, List.any_eq_true,
      decide_eq_true_eq] at hno
    exact hno ⟨r, by simpa using ⟨hr, ht⟩, hd, hkr⟩
  · cases h

theorem Uncovered.unclaimed (h : Uncovered next e keys) :
    ∀ i ∈ cutItems (e, keys), Unclaimed next i := by
  intro i hi r hr hir
  cases h with
  | file hno =>
    rw [cutItems_self] at hi
    exact hno r hr ((target_of_mem_items hir).symm.trans (target_of_mem_items hi))
  | block hm hno =>
    simp only [cutItems, hm, FileEntry.items, items, List.mem_singleton] at hi
    subst hi
    obtain ⟨hk, ht, hid⟩ := block_mem_items.mp hir
    exact hno r hr ht hk hid
  | keys hm _ hno _ =>
    simp only [cutItems, hm, List.mem_map] at hi
    obtain ⟨k, hk, rfl⟩ := hi
    obtain ⟨hd, ht, hkr⟩ := key_mem_items.mp hir
    exact (hno k hk).2 r hr ht hd hkr

theorem Orderly.removable {disk : Disk α} (ho : Orderly disk e) : Removable disk (e, e.keys) := by
  refine ⟨ho, List.Subset.refl _, fun hm => ?_⟩
  have hs := ho.sound
  rw [hm] at hs
  exact hs.1

theorem Uncovered.removable {disk : Disk α} (ho : Orderly disk e) (h : Uncovered next e keys) :
    Removable disk (e, keys) := by
  cases h with
  | file => exact ho.removable
  | block hm => exact ⟨ho, List.nil_subset _, fun hd => by rw [hm] at hd; cases hd⟩
  | keys _ hk hsub => exact ⟨ho, fun k hk => (hsub k hk).1, fun _ => hk⟩

theorem exists_uncovered (hs : ∀ r ∈ next, Sound r.keys r.merge)
    (hc : ∀ r ∈ next, Compatible e r) {i : Item} (hi : i ∈ e.items) (hu : Unclaimed next i) :
    ∃ keys, uncovered next e = some keys ∧ i ∈ cutItems (e, keys) := by
  have hclash : ∀ r ∈ next, ∀ j ∈ r.items, i.Apart j := fun r hr j hj =>
    (hc r hr i hi j hj).resolve_left (fun heq => hu r hr (heq ▸ hj))
  have hit := target_of_mem_items hi
  by_cases hcl : next.filter (fun r => r.target = e.target) = []
  · exact ⟨e.keys, by simp only [uncovered, hcl, if_true], by rwa [cutItems_self]⟩
  have hrep : ¬ ((next.filter (fun r => r.target = e.target)).any
      (fun r => r.merge = .replace)) = true := by
    intro h
    obtain ⟨r, hr, ht, hk⟩ : ∃ r ∈ next, r.target = e.target ∧ r.merge = .replace := by
      simpa using h
    exact Item.not_apart_file (hit.trans ht.symm) (hclash r hr _ (file_mem_items.mpr ⟨hk, rfl⟩))
  cases hm : e.merge with
  | replace =>
    obtain ⟨r, hr⟩ := List.exists_mem_of_ne_nil _ hcl
    obtain ⟨hr, ht⟩ : r ∈ next ∧ r.target = e.target := by simpa using hr
    obtain ⟨j, hj⟩ := exists_mem_items r.target (hs r hr)
    simp only [FileEntry.items, items, hm, List.mem_singleton] at hi
    subst hi
    have hjt := (target_of_mem_items hj).trans ht
    exact absurd (hclash r hr j hj).symm (Item.not_apart_file hjt)
  | composite =>
    simp only [FileEntry.items, items, hm, List.mem_singleton] at hi
    refine ⟨[], ?_, by simp [cutItems, FileEntry.items, items, hm, hi]⟩
    dsimp only [uncovered]
    rw [if_neg hcl, if_neg hrep, hm]
    refine if_neg (fun h => ?_)
    obtain ⟨r, hr, ht, hk, hid⟩ : ∃ r ∈ next, r.target = e.target ∧ r.merge = .composite ∧
        compositeID r.keys = compositeID e.keys := by simpa using h
    exact hu r hr (hi ▸ block_mem_items.mpr ⟨hk, ht, hid⟩)
  | deep =>
    simp only [FileEntry.items, items, hm, List.mem_map] at hi
    obtain ⟨k, hk, rfl⟩ := hi
    obtain ⟨lost, hlost⟩ : ∃ lost, lost = e.keys.filter (fun k =>
        ¬ (next.filter (fun r => r.target = e.target)).any (fun r => r.merge = .deep ∧
          k ∈ r.keys)) :=
      ⟨_, rfl⟩
    have hmem : k ∈ lost := by
      rw [hlost]
      refine List.mem_filter.mpr ⟨hk, decide_eq_true (fun h => ?_)⟩
      obtain ⟨r, hr, ht, hd, hkr⟩ : ∃ r ∈ next, r.target = e.target ∧ r.merge = .deep ∧
          k ∈ r.keys := by simpa using h
      exact hu r hr (key_mem_items.mpr ⟨hd, ht, hkr⟩)
    refine ⟨lost, ?_, by simpa only [cutItems, hm] using List.mem_map_of_mem hmem⟩
    dsimp only [uncovered]
    rw [if_neg hcl, if_neg hrep, hm, ← hlost]
    exact if_neg (List.ne_nil_of_mem hmem)

theorem mem_deletions {del : FileEntry α × List String} :
    del ∈ deletions prev next ↔ del.1 ∈ prev ∧ uncovered next del.1 = some del.2 := by
  rw [deletions, List.mem_insertionSort, List.mem_filterMap]
  constructor
  · rintro ⟨e, he, h⟩
    obtain ⟨keys, hk, rfl⟩ := Option.map_eq_some_iff.mp h
    exact ⟨he, hk⟩
  · rintro ⟨he, hk⟩
    exact ⟨del.1, he, by rw [hk]; rfl⟩

variable [DecidableEq α] {word : Char → Bool} {disk : Disk α}

theorem separate_deletions (hap : prev.Pairwise RowsApart) :
    (deletions prev next).Pairwise (sweeper α word).Separate := by
  rw [deletions, (List.perm_insertionSort _ _).pairwise_iff Sweep.Separate.symm,
    List.pairwise_filterMap]
  refine hap.imp (fun {e e'} h del hdel del' hdel' i hi j hj => ?_)
  obtain ⟨keys, -, rfl⟩ := Option.map_eq_some_iff.mp hdel
  obtain ⟨keys', -, rfl⟩ := Option.map_eq_some_iff.mp hdel'
  exact ⟨h i hi j hj, (h i hi j hj).symm⟩

/-- What a sync does to the items of the previous rows and to all that lies apart from them. -/
structure Synced (prev next : List (FileEntry α)) (disk disk' : Disk α) : Prop where
  orderly : ∀ e, Orderly disk e → Orderly disk' e
  frame : ∀ i, (∀ e ∈ prev, ∀ j ∈ e.items, Unclaimed next j → i.Apart j) →
    look disk' i = look disk i
  gone : ∀ e ∈ prev, Unedited disk e → ∀ i ∈ e.items, Unclaimed next i → look disk' i = none
  kept : ∀ e ∈ prev, ¬ Unedited disk e → ∀ i ∈ e.items, Unclaimed next i →
    look disk' i = look disk i

theorem sync_synced (word : Char → Bool) (hap : prev.Pairwise RowsApart)
    (ho : ∀ e ∈ prev, Orderly disk e) (hs : ∀ r ∈ next, Sound r.keys r.merge)
    (hc : ∀ e ∈ prev, ∀ r ∈ next, Compatible e r) :
    ∃ disk', sync word prev next disk = some disk' ∧ Synced prev next disk disk' := by
  have hgood : ∀ del ∈ deletions prev next, Removable disk del := fun del hdel =>
    (Uncovered.of_uncovered (mem_deletions.mp hdel).2).removable (ho _ (mem_deletions.mp hdel).1)
  obtain ⟨disk', hd, hw⟩ := Sweep.exists_swept (w := sweeper α word) (separate_deletions hap) hgood
  refine ⟨disk', hd, fun e he => (hw.good (e, e.keys) he.removable).toOrderly, fun i hi => ?_,
    fun e he hu i hi hun => ?_, fun e he hu i hi hun => ?_⟩
  · refine hw.frame i (fun del hdel j hj => ?_)
    have hdel' := mem_deletions.mp hdel
    exact hi del.1 hdel'.1 j (cutItems_subset (hgood del hdel) j hj)
      ((Uncovered.of_uncovered hdel'.2).unclaimed j hj)
  · obtain ⟨keys, hk, hcut⟩ := exists_uncovered hs (hc e he) hi hun
    exact hw.cuts (e, keys) (mem_deletions.mpr ⟨he, hk⟩) hu i hcut
  · obtain ⟨keys, hk, -⟩ := exists_uncovered hs (hc e he) hi hun
    exact hw.closed (e, keys) (mem_deletions.mpr ⟨he, hk⟩) hu i hi

end AchProofs.Hydrate
