import AchProofs.Hydrate.Sync

namespace AchProofs.Hydrate

open Foundation Cli.Merge Cli.Composite Cli.DottedKey

variable {α : Type}

/-- What a row answers for: a file, a dotted key of a document, or a marked block of a text. -/
inductive Item where
  | file (target : String)
  | key (target key : String)
  | block (target id : String)
deriving DecidableEq

def Item.target : Item → String
  | .file t => t
  | .key t _ => t
  | .block t _ => t

/-- A write to one of the items cannot reach the other. -/
def Item.Apart : Item → Item → Prop
  | .key t k, .key t' k' => t ≠ t' ∨ Foundation.Apart (splitPath k) (splitPath k')
  | .block t id, .block t' id' => t ≠ t' ∨ (id ≠ id' ∧ ValidId id ∧ ValidId id')
  | i, j => i.target ≠ j.target

instance : (i j : Item) → Decidable (i.Apart j)
  | .file _, .file _ => inferInstanceAs (Decidable (¬ _))
  | .file _, .key _ _ => inferInstanceAs (Decidable (¬ _))
  | .file _, .block _ _ => inferInstanceAs (Decidable (¬ _))
  | .key _ _, .file _ => inferInstanceAs (Decidable (¬ _))
  | .key _ _, .key _ _ => inferInstanceAs (Decidable (_ ∨ _))
  | .key _ _, .block _ _ => inferInstanceAs (Decidable (¬ _))
  | .block _ _, .file _ => inferInstanceAs (Decidable (¬ _))
  | .block _ _, .key _ _ => inferInstanceAs (Decidable (¬ _))
  | .block _ _, .block _ _ => inferInstanceAs (Decidable (_ ∨ _))

variable {i : Item} {t t' : String} {disk disk' : Disk α} {keys : List String} {merge : MergeKind}
  {e : FileEntry α}

theorem Item.Apart.symm {j : Item} (h : i.Apart j) : j.Apart i := by
  cases i <;> cases j
  case key.key => exact h.imp Ne.symm Foundation.Apart.symm
  case block.block => exact h.imp Ne.symm (fun h => ⟨h.1.symm, h.2.2, h.2.1⟩)
  all_goals exact Ne.symm h

theorem Item.not_apart_file (h : i.target = t) : ¬ i.Apart (.file t) := by
  cases i <;> exact absurd h

inductive Piece (α : Type) where
  | file (f : File α)
  | value (v : Value String α)
  | text (t : Text)
deriving DecidableEq

def look (disk : Disk α) : Item → Option (Piece α)
  | .file t => (disk t).map .file
  | .key t k =>
    match disk t with
    | some (.doc d) => (getDottedKey d.tree k).map .value
    | _ => none
  | .block t id =>
    match disk t with
    | some (.text body) => (region id body).map .text
    | _ => none

theorem look_congr (h : disk' i.target = disk i.target) : look disk' i = look disk i := by
  cases i <;> simp only [Item.target] at h <;> simp only [look, h]

theorem look_update_of_ne (disk : Disk α) {target : String} (f : Option (File α))
    (h : i.target ≠ target) : look (Function.update disk target f) i = look disk i :=
  look_congr (Function.update_of_ne h _ _)

def items (merge : MergeKind) (target : String) (keys : List String) : List Item :=
  match merge with
  | .replace => [.file target]
  | .deep => keys.map (.key target)
  | .composite => [.block target (compositeID keys)]

def FileEntry.items (e : FileEntry α) : List Item := Hydrate.items e.merge e.target e.keys

def FileWrite.items (w : FileWrite α) : List Item := Hydrate.items w.merge w.path w.keys

theorem target_of_mem_items {target : String} (h : i ∈ items merge target keys) :
    i.target = target := by
  cases merge <;> simp only [items, List.mem_singleton, List.mem_map] at h
  case deep =>
    obtain ⟨k, -, rfl⟩ := h
    rfl
  all_goals
    subst h
    rfl

@[simp] theorem file_mem_items : .file t ∈ items merge t' keys ↔ merge = .replace ∧ t' = t := by
  cases merge <;> simp [items, eq_comm]

@[simp] theorem key_mem_items {k : String} :
    .key t k ∈ items merge t' keys ↔ merge = .deep ∧ t' = t ∧ k ∈ keys := by
  cases merge <;> simp [items, and_comm]

@[simp] theorem block_mem_items {id : String} :
    .block t id ∈ items merge t' keys ↔ merge = .composite ∧ t' = t ∧ compositeID keys = id := by
  cases merge <;> simp [items, eq_comm]

theorem eq_of_mem_items {j : Item} (hm : merge ≠ .deep) (hi : i ∈ items merge t keys)
    (hj : j ∈ items merge t keys) : i = j := by
  cases merge with
  | deep => exact absurd rfl hm
  | replace => exact (List.mem_singleton.mp hi).trans (List.mem_singleton.mp hj).symm
  | composite => exact (List.mem_singleton.mp hi).trans (List.mem_singleton.mp hj).symm

/-- A file read as a document; a missing file is an empty one. -/
def docOf : Option (File α) → Option (Doc α)
  | none => some emptyDoc
  | some (.doc d) => some d
  | some (.text _) => none

def textOf : Option (File α) → Option Text
  | none => some []
  | some (.text body) => some body
  | some (.doc _) => none

def Readable (f : Option (File α)) : MergeKind → Prop
  | .replace => True
  | .deep => (docOf f).isSome
  | .composite => (textOf f).isSome

theorem getDottedKey_nil (k : String) : getDottedKey (.nil : KeyTree String α) k = none := by
  obtain ⟨a, p, hp⟩ := List.exists_cons_of_ne_nil (splitPath_ne_nil k)
  rw [getDottedKey, hp, KeyTree.get_nil]

theorem region_nil (id : String) : region id [] = none := rfl

theorem look_key {d : Doc α} (h : docOf (disk t) = some d) (k : String) :
    look disk (.key t k) = (getDottedKey d.tree k).map .value := by
  unfold docOf at h
  split at h <;> cases h
  case h_1 hf => simp [look, hf, emptyDoc, getDottedKey_nil]
  case h_2 hf => simp [look, hf]

theorem look_block {body : Text} (h : textOf (disk t) = some body) (id : String) :
    look disk (.block t id) = (region id body).map .text := by
  unfold textOf at h
  split at h <;> cases h
  case h_1 hf => simp [look, hf, region_nil]
  case h_2 hf => simp [look, hf]

theorem scopedHash_replace (disk : Disk α) (t : String) (keys : List String) :
    scopedHash disk .replace t keys = some ((disk t).map .file) := by
  unfold scopedHash
  cases disk t <;> rfl

theorem scopedHash_deep {d : Doc α} (h : docOf (disk t) = some d) (keys : List String) :
    scopedHash disk .deep t keys =
      some (if (extractByKeys d.tree keys).2 then some (.subtree (extractByKeys d.tree keys).1)
        else none) := by
  unfold docOf at h
  split at h <;> cases h
  case h_1 hf =>
    have hno : ¬ (extractByKeys (.nil : KeyTree String α) keys).2 = true := by
      rw [extractByKeys_found]
      simp [getDottedKey_nil]
    rw [Bool.not_eq_true] at hno
    simp [scopedHash, hf, emptyDoc, hno]
  case h_2 hf => simp only [scopedHash, hf]

theorem scopedHash_composite {body : Text} (h : textOf (disk t) = some body) (keys : List String) :
    scopedHash disk .composite t keys = some ((region (compositeID keys) body).map .text) := by
  unfold textOf at h
  split at h <;> cases h
  case h_1 hf => simp [scopedHash, hf, region_nil]
  case h_2 hf => simp [scopedHash, hf]

theorem readable_of_look (hi : i ∈ items merge t keys) (h : look disk i ≠ none) :
    Readable (disk t) merge := by
  cases merge with
  | replace => trivial
  | deep =>
    obtain ⟨k, -, rfl⟩ := List.mem_map.mp hi
    cases hf : disk t with
    | none => rfl
    | some f => cases f <;> simp_all [Readable, docOf, look]
  | composite =>
    cases List.mem_singleton.mp hi
    cases hf : disk t with
    | none => rfl
    | some f => cases f <;> simp_all [Readable, textOf, look]

theorem scopedHash_congr (hr : Readable (disk t) merge) (hr' : Readable (disk' t) merge)
    (h : ∀ i ∈ items merge t keys, look disk' i = look disk i) :
    scopedHash disk' merge t keys = scopedHash disk merge t keys := by
  cases merge with
  | replace =>
    have hf := h (.file t) (by simp [items])
    simp only [look] at hf
    have heq : disk' t = disk t := Option.map_injective (fun a b hab => by cases hab; rfl) hf
    rw [scopedHash_replace, scopedHash_replace, heq]
  | deep =>
    obtain ⟨d, hd⟩ := Option.isSome_iff_exists.mp hr
    obtain ⟨d', hd'⟩ := Option.isSome_iff_exists.mp hr'
    have hkeys : ∀ k ∈ keys, getDottedKey d'.tree k = getDottedKey d.tree k := by
      intro k hk
      have hl := h (.key t k) (List.mem_map_of_mem hk)
      rw [look_key hd, look_key hd'] at hl
      exact Option.map_injective (fun a b hab => by cases hab; rfl) hl
    rw [scopedHash_deep hd, scopedHash_deep hd', extractByKeys_congr hkeys]
  | composite =>
    obtain ⟨body, hb⟩ := Option.isSome_iff_exists.mp hr
    obtain ⟨body', hb'⟩ := Option.isSome_iff_exists.mp hr'
    have hl := h (.block t (compositeID keys)) (by simp [items])
    rw [look_block hb, look_block hb'] at hl
    have heq : region (compositeID keys) body' = region (compositeID keys) body :=
      Option.map_injective (fun a b hab => by cases hab; rfl) hl
    rw [scopedHash_composite hb, scopedHash_composite hb', heq]

theorem readable_of_scopedHash {x : Option (Digest α)} (h : scopedHash disk merge t keys = some x) :
    Readable (disk t) merge := by
  cases merge with
  | replace => trivial
  | deep =>
    cases hf : disk t with
    | none => rfl
    | some f => cases f <;> simp_all [Readable, docOf, scopedHash]
  | composite =>
    cases hf : disk t with
    | none => rfl
    | some f => cases f <;> simp_all [Readable, textOf, scopedHash]

theorem exists_scopedHash (h : Readable (disk t) merge) (keys : List String) :
    ∃ x, scopedHash disk merge t keys = some x := by
  cases merge with
  | replace => exact ⟨_, scopedHash_replace disk t keys⟩
  | deep =>
    obtain ⟨d, hd⟩ := Option.isSome_iff_exists.mp h
    exact ⟨_, scopedHash_deep hd keys⟩
  | composite =>
    obtain ⟨body, hb⟩ := Option.isSome_iff_exists.mp h
    exact ⟨_, scopedHash_composite hb keys⟩

theorem scopedHash_none_iff (hr : Readable (disk t) merge) :
    scopedHash disk merge t keys = some none ↔ ∀ i ∈ items merge t keys, look disk i = none := by
  cases merge with
  | replace => simp [scopedHash_replace, items, look]
  | deep =>
    obtain ⟨d, hd⟩ := Option.isSome_iff_exists.mp hr
    have hfound := extractByKeys_found d.tree keys
    simp only [items, List.forall_mem_map, look_key hd, scopedHash_deep hd]
    cases hx : (extractByKeys d.tree keys).2 <;> simp_all
  | composite =>
    obtain ⟨body, hb⟩ := Option.isSome_iff_exists.mp hr
    simp [items, look_block hb, scopedHash_composite hb]

/-- The keys of a row name separate parts of its file. -/
def Sound (keys : List String) : MergeKind → Prop
  | .replace => True
  | .deep => keys ≠ [] ∧ keys.Pairwise (fun k k' => Foundation.Apart (splitPath k) (splitPath k'))
  | .composite => keys ≠ [] ∧ ValidId (compositeID keys)

instance (keys : List String) : (merge : MergeKind) → Decidable (Sound keys merge)
  | .replace => isTrue trivial
  | .deep => inferInstanceAs (Decidable (_ ∧ _))
  | .composite => inferInstanceAs (Decidable (_ ∧ _))

theorem exists_mem_items (t : String) (h : Sound keys merge) : ∃ i, i ∈ items merge t keys := by
  cases merge with
  | replace => exact ⟨_, List.mem_singleton_self _⟩
  | deep =>
    obtain ⟨k, hk⟩ := List.exists_mem_of_ne_nil _ h.1
    exact ⟨_, List.mem_map_of_mem hk⟩
  | composite => exact ⟨_, List.mem_singleton_self _⟩

def Intact (disk : Disk α) (e : FileEntry α) : Prop :=
  scopedHash disk e.merge e.target e.keys = some (some e.hash)

instance [DecidableEq α] (disk : Disk α) (e : FileEntry α) : Decidable (Intact disk e) :=
  inferInstanceAs (Decidable (_ = _))

theorem Intact.exists_look (h : Intact disk e) : ∃ i ∈ e.items, look disk i ≠ none := by
  by_contra hno
  push Not at hno
  have := (scopedHash_none_iff (readable_of_scopedHash h)).mpr hno
  cases this.symm.trans h

theorem Intact.congr (h : Intact disk e) (hl : ∀ i ∈ e.items, look disk' i = look disk i) :
    Intact disk' e := by
  obtain ⟨i, hi, hne⟩ := h.exists_look
  have hr' := readable_of_look hi (by rwa [hl i hi])
  exact (scopedHash_congr (readable_of_scopedHash h) hr' hl).trans h

def RowsApart (e e' : FileEntry α) : Prop := ∀ i ∈ e.items, ∀ j ∈ e'.items, i.Apart j

instance (e e' : FileEntry α) : Decidable (RowsApart e e') :=
  inferInstanceAs (Decidable (∀ i ∈ e.items, ∀ j ∈ e'.items, i.Apart j))

theorem RowsApart.symm {e' : FileEntry α} (h : RowsApart e e') : RowsApart e' e :=
  fun i hi j hj => (h j hj i hi).symm

def Unclaimed (next : List (FileEntry α)) (i : Item) : Prop := ∀ r ∈ next, i ∉ r.items

instance (next : List (FileEntry α)) (i : Item) : Decidable (Unclaimed next i) :=
  inferInstanceAs (Decidable (∀ r ∈ next, i ∉ r.items))

def Compatible (e r : FileEntry α) : Prop := ∀ i ∈ e.items, ∀ j ∈ r.items, i = j ∨ i.Apart j

instance (e r : FileEntry α) : Decidable (Compatible e r) :=
  inferInstanceAs (Decidable (∀ i ∈ e.items, ∀ j ∈ r.items, i = j ∨ i.Apart j))

end AchProofs.Hydrate
