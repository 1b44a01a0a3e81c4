import AchProofs.Cli.ExtractInside

namespace AchProofs.Cli.Extract

open Foundation Foundation.Links

/-- The place of the file that a path below a directory leads to, as `os.Stat` finds it. -/
def statFile (tree : Tree Name) (dir path : List Name) : Option (List Name) :=
  match walk tree openEnter kernelHops dir (names path) with
  | .error _ => none
  | .ok loc => if tree loc = some .file then some loc else none

/-- Only directories are added, each where there was nothing. -/
structure AddsDirs (d d' : Disk) : Prop where
  tree : ∀ q, d'.tree q = d.tree q ∨ d.tree q = none ∧ d'.tree q = some .dir ∧ q ∈ d'.made
  made : d.made ⊆ d'.made

def Entry.rel (e : Entry) : List Name := (normal (parse e.name).parts).2

/-- What one turn of the loop can do. -/
inductive Turn (cfg : Config) (s : State) (e : Entry) : State × Option ExtractError → Prop
  | fail (d : Disk) (err : ExtractError) (hd : AddsDirs s.disk d) :
    Turn cfg s e (⟨d, s.entriesSeen + 1, s.bytesWritten⟩, some err)
  | undo (d : Disk) (place : List Name) (err : ExtractError) (hd : AddsDirs s.disk d)
    (hfree : d.tree place = none) :
    Turn cfg s e (⟨(d.put place .file).remove place, s.entriesSeen + 1, s.bytesWritten⟩, some err)
  | pass (d : Disk) (hd : AddsDirs s.disk d) (hcount : s.entriesSeen + 1 ≤ cfg.maxEntries)
    (hreg : ∀ size broken, e.kind ≠ .reg size broken)
    (hlink : ∀ linkname, e.kind ≠ .symlink linkname) :
    Turn cfg s e (⟨d, s.entriesSeen + 1, s.bytesWritten⟩, none)
  | file (d : Disk) (place : List Name) (size : ℕ) (hkind : e.kind = .reg size false)
    (hd : AddsDirs s.disk d) (hfree : freePlace cfg.dst d.tree e.rel = some place)
    (hcount : s.entriesSeen + 1 ≤ cfg.maxEntries)
    (hcap : ¬ (0 < cfg.maxBytes ∧ cfg.maxBytes - s.bytesWritten < size)) :
    Turn cfg s e (⟨d.put place .file, s.entriesSeen + 1, s.bytesWritten + size⟩, none)
  | link (d : Disk) (place : List Name) (linkname : List Char) (hkind : e.kind = .symlink linkname)
    (hd : AddsDirs s.disk d) (hfree : freePlace cfg.dst d.tree e.rel = some place)
    (hcount : s.entriesSeen + 1 ≤ cfg.maxEntries) (hallow : cfg.allowSymlinks = true) :
    Turn cfg s e (⟨d.put place (.link (parse linkname)), s.entriesSeen + 1, s.bytesWritten⟩, none)

variable {dst : List Name} {d d' : Disk} {rel place : List Name}

theorem Disk.put_self (d : Disk) (place : List Name) (node : Node Name) :
    (d.put place node).tree place = some node := Function.update_self ..

theorem Disk.put_of_ne (d : Disk) (node : Node Name) {q : List Name} (hq : q ≠ place) :
    (d.put place node).tree q = d.tree q := Function.update_of_ne hq ..

theorem AddsDirs.refl (d : Disk) : AddsDirs d d := ⟨fun _ => .inl rfl, fun _ h => h⟩

theorem AddsDirs.put_dir (h : AddsDirs d d') (hfree : d'.tree place = none) :
    AddsDirs d (d'.put place .dir) := by
  refine ⟨fun q => ?_, fun q hq => List.mem_cons_of_mem _ (h.made hq)⟩
  by_cases hq : q = place
  · subst hq
    right
    refine ⟨?_, d'.put_self q .dir, List.mem_cons_self ..⟩
    rcases h.tree q with hsame | ⟨hnone, -⟩
    · exact hsame.symm.trans hfree
    · exact hnone
  · rw [d'.put_of_ne .dir hq]
    rcases h.tree q with hsame | ⟨hnone, hdir, hmade⟩
    · exact .inl hsame
    · exact .inr ⟨hnone, hdir, List.mem_cons_of_mem _ hmade⟩

theorem mkdirAll_addsDirs (dst : List Name) (d : Disk) (path : List Name) :
    AddsDirs d (mkdirAll dst d path).1 := by
  induction path with
  | nil => exact AddsDirs.refl d
  | cons n up ih =>
    rw [mkdirAll]
    split
    · exact AddsDirs.refl d
    · split
      · rename_i d' hd'
        rwa [hd'] at ih
      · rename_i d' hd'
        rw [hd'] at ih
        split
        · exact ih
        · rename_i place hplace
          obtain ⟨_, _, _, hfree, _⟩ := freePlace_eq_some hplace
          exact ih.put_dir hfree

section Turn

variable {cfg : Config} {s : State} {e : Entry}

theorem writeRegular_turn {size : ℕ} {broken : Bool} (hkind : e.kind = .reg size broken)
    (hcount : s.entriesSeen + 1 ≤ cfg.maxEntries) :
    Turn cfg s e (writeRegular cfg { s with entriesSeen := s.entriesSeen + 1 }
      e.rel size broken) := by
  have hadds := mkdirAll_addsDirs cfg.dst s.disk e.rel.dropLast.reverse
  unfold writeRegular
  split
  · rename_i d hmk
    rw [hmk] at hadds
    exact .fail d _ hadds
  · rename_i d hmk
    rw [hmk] at hadds
    split
    · exact .fail d _ hadds
    · rename_i place hplace
      obtain ⟨_, _, _, hfree, _⟩ := freePlace_eq_some hplace
      split_ifs with hbroken hcap
      · exact .undo d place _ hadds hfree
      · exact .undo d place _ hadds hfree
      · rw [Bool.not_eq_true] at hbroken
        subst hbroken
        exact .file d place size hkind hadds hplace hcount hcap

theorem writeSymlink_turn {linkname : List Char} (hkind : e.kind = .symlink linkname)
    (hcount : s.entriesSeen + 1 ≤ cfg.maxEntries) (hallow : cfg.allowSymlinks = true) :
    Turn cfg s e (writeSymlink cfg { s with entriesSeen := s.entriesSeen + 1 }
      e.rel linkname) := by
  have hadds := mkdirAll_addsDirs cfg.dst s.disk e.rel.dropLast.reverse
  unfold writeSymlink
  split_ifs
  · exact .fail _ _ (AddsDirs.refl _)
  · exact .fail _ _ (AddsDirs.refl _)
  · exact .fail _ _ (AddsDirs.refl _)
  · split
    · rename_i d hmk
      rw [hmk] at hadds
      exact .fail d _ hadds
    · rename_i d hmk
      rw [hmk] at hadds
      split
      · exact .fail d _ hadds
      · rename_i place hplace
        exact .link d place linkname hkind hadds hplace hcount hallow

theorem extractEntry_turn (cfg : Config) (s : State) (e : Entry) :
    Turn cfg s e (extractEntry cfg s e) := by
  unfold extractEntry
  dsimp only
  split_ifs with hcount
  · exact .fail _ _ (AddsDirs.refl _)
  · rw [not_lt] at hcount
    split
    · exact .fail _ _ (AddsDirs.refl _)
    · split
      · exact .fail _ _ (AddsDirs.refl _)
      · cases hkind : e.kind with
        | reg size broken => exact writeRegular_turn hkind hcount
        | symlink linkname =>
          rw [writeEntry]
          split_ifs with hallow
          · exact .fail _ _ (AddsDirs.refl _)
          · exact writeSymlink_turn hkind hcount (by simpa using hallow)
        | dir =>
          have hadds := mkdirAll_addsDirs cfg.dst s.disk (normal (parse e.name).parts).2.reverse
          rw [writeEntry]
          split
          all_goals
            rename_i d hmk
            rw [hmk] at hadds
          · exact .fail d _ hadds
          · exact .pass d hadds hcount (by simp [hkind]) (by simp [hkind])
        | paxHeader => exact .pass _ (AddsDirs.refl _) hcount (by simp [hkind]) (by simp [hkind])
        | hardlink => exact .fail _ _ (AddsDirs.refl _)
        | device => exact .fail _ _ (AddsDirs.refl _)
        | fifo => exact .fail _ _ (AddsDirs.refl _)
        | unsupported => exact .fail _ _ (AddsDirs.refl _)

end Turn

/-- What a turn without an error has left besides directories: the last thing that was made, if the
entry is a file or a link. -/
def Disk.newest (d : Disk) : Kind → List (List Name)
  | .reg _ _ => d.made.take 1
  | .symlink _ => d.made.take 1
  | _ => []

/-- The files and links left by an extraction, each with its place and what it was made from. -/
def leftovers {α : Type} (cfg : Config) (f : α → Entry) : State → List α → List (List Name × α)
  | _, [] => []
  | s, x :: xs =>
    match extractEntry cfg s (f x) with
    | (_, some _) => []
    | (s', none) => (s'.disk.newest (f x).kind).map (fun place => (place, x)) ++
        leftovers cfg f s' xs

def Leaf (tree : Tree Name) (q : List Name) : Prop := tree q ≠ none ∧ tree q ≠ some .dir

/-- From one disk to the other nothing is lost, and besides directories just the places are new. -/
structure Leaves (d d' : Disk) (places : List (List Name)) : Prop where
  kept : ∀ q, d.tree q ≠ none → d'.tree q = d.tree q
  recorded : ∀ q, d'.tree q ≠ d.tree q → q ∈ d'.made
  made : d.made ⊆ d'.made
  leaf_iff : ∀ q, Leaf d'.tree q ↔ Leaf d.tree q ∨ q ∈ places
  fresh : ∀ q ∈ places, d.tree q = none
  nodup : places.Nodup

theorem leaf_of_eq {tree : Tree Name} {q : List Name} {node : Node Name} (h : tree q = some node)
    (hnode : node ≠ .dir) : Leaf tree q := by
  simp [Leaf, h, hnode]

theorem AddsDirs.leaves (h : AddsDirs d d') : Leaves d d' [] := by
  refine ⟨fun q hq => ?_, fun q hq => ?_, h.made, fun q => ?_, by simp, List.nodup_nil⟩
  · rcases h.tree q with hsame | ⟨hnone, -⟩
    · exact hsame
    · exact absurd hnone hq
  · rcases h.tree q with hsame | ⟨-, -, hmade⟩
    · exact absurd hsame hq
    · exact hmade
  · rcases h.tree q with hsame | ⟨hnone, hdir, -⟩
    · simp [Leaf, hsame]
    · simp [Leaf, hnone, hdir]

theorem leaves_put (d : Disk) {node : Node Name} (hnode : node ≠ .dir)
    (hfree : d.tree place = none) :
    Leaves d (d.put place node) [place] := by
  have hother : ∀ q, q ≠ place → (d.put place node).tree q = d.tree q := fun q => d.put_of_ne node
  refine ⟨fun q hq => ?_, fun q hq => ?_, fun q hq => List.mem_cons_of_mem _ hq, fun q => ?_, ?_,
    List.pairwise_singleton _ _⟩
  · refine hother q ?_
    rintro rfl
    exact hq hfree
  · by_cases hqp : q = place
    · rw [hqp]
      exact List.mem_cons_self ..
    · exact absurd (hother q hqp) hq
  · by_cases hqp : q = place
    · rw [hqp]
      simp [Leaf, d.put_self, hnode]
    · simp [Leaf, hother q hqp, hqp]
  · intro q hq
    rw [List.mem_singleton.mp hq, hfree]

theorem leaves_undo (d : Disk) (hfree : d.tree place = none) :
    Leaves d ((d.put place .file).remove place) [] := by
  have hsame : ((d.put place .file).remove place).tree = d.tree := by
    show Function.update (Function.update d.tree place _) place none = _
    rw [Function.update_idem, ← hfree, Function.update_eq_self]
  refine ⟨fun q _ => by rw [hsame], fun q hq => ?_, fun q hq => List.mem_cons_of_mem _ hq,
    fun q => by simp [hsame], by simp, List.nodup_nil⟩
  rw [hsame] at hq
  exact absurd rfl hq

theorem Leaves.trans {d₁ d₂ d₃ : Disk} {ps qs : List (List Name)} (h₁ : Leaves d₁ d₂ ps)
    (h₂ : Leaves d₂ d₃ qs) : Leaves d₁ d₃ (ps ++ qs) := by
  -- what the second part finds free is not among the places of the first
  have hapart : ∀ q, d₂.tree q = none → d₁.tree q = none ∧ q ∉ ps := by
    intro q hq
    constructor
    · by_contra hne
      exact hne ((h₁.kept q hne).symm.trans hq)
    · exact fun hmem => ((h₁.leaf_iff q).mpr (.inr hmem)).1 hq
  refine ⟨fun q hq => ?_, fun q hq => ?_, fun q hq => h₂.made (h₁.made hq), fun q => ?_,
    fun q hq => ?_, ?_⟩
  · have hkept := h₁.kept q hq
    rw [← hkept] at hq
    rw [h₂.kept q hq, hkept]
  · by_cases hq₂ : d₃.tree q = d₂.tree q
    · rw [hq₂] at hq
      exact h₂.made (h₁.recorded q hq)
    · exact h₂.recorded q hq₂
  · rw [h₂.leaf_iff, h₁.leaf_iff, or_assoc, List.mem_append]
  · rcases List.mem_append.mp hq with hq | hq
    · exact h₁.fresh q hq
    · exact (hapart q (h₂.fresh q hq)).1
  · refine List.nodup_append.mpr ⟨h₁.nodup, h₂.nodup, fun a ha b hb hab => ?_⟩
    rw [hab] at ha
    exact (hapart b (h₂.fresh b hb)).2 ha

section Left

variable {α : Type} {cfg : Config} {s : State} {f : α → Entry} {e : Entry}

theorem newest_of_turn {s' : State} (h : Turn cfg s e (s', none)) :
    Leaves s.disk s'.disk (s'.disk.newest e.kind) ∧
      (∀ place ∈ s'.disk.newest e.kind, ∀ size broken, e.kind = .reg size broken →
        broken = false ∧ s'.disk.tree place = some .file) ∧
      ∀ place ∈ s'.disk.newest e.kind, ∀ linkname, e.kind = .symlink linkname →
        s'.disk.tree place = some (.link (parse linkname)) := by
  cases h with
  | pass d hd _ hreg hlink =>
    have hnone : d.newest e.kind = [] := by
      cases hkind : e.kind with
      | reg size broken => exact absurd hkind (hreg size broken)
      | symlink linkname => exact absurd hkind (hlink linkname)
      | _ => rfl
    rw [hnone]
    exact ⟨hd.leaves, by simp, by simp⟩
  | file d place size hkind hd hplace =>
    obtain ⟨_, _, _, hfree, _⟩ := freePlace_eq_some hplace
    rw [hkind]
    refine ⟨hd.leaves.trans (leaves_put d (by simp) hfree), fun q hq _ _ h => ?_, by simp⟩
    cases h
    rw [List.mem_singleton.mp hq]
    exact ⟨rfl, d.put_self ..⟩
  | link d place linkname hkind hd hplace =>
    obtain ⟨_, _, _, hfree, _⟩ := freePlace_eq_some hplace
    rw [hkind]
    refine ⟨hd.leaves.trans (leaves_put d (by simp) hfree), by simp, fun q hq name hname => ?_⟩
    cases hname
    rw [List.mem_singleton.mp hq]
    exact d.put_self ..

theorem leaves_of_fail {s' : State} {err : ExtractError} (h : Turn cfg s e (s', some err)) :
    Leaves s.disk s'.disk [] := by
  cases h with
  | fail d _ hd => exact hd.leaves
  | undo d place _ hd hfree => exact hd.leaves.trans (leaves_undo d hfree)

theorem extract_leaves (cfg : Config) (f : α → Entry) (s : State) (xs : List α) :
    Leaves s.disk (extract cfg s (xs.map f)).1.disk ((leftovers cfg f s xs).map Prod.fst) := by
  induction xs generalizing s with
  | nil => exact (AddsDirs.refl _).leaves
  | cons x xs ih =>
    have hturn := extractEntry_turn cfg s (f x)
    rw [List.map_cons, extract, leftovers]
    generalize extractEntry cfg s (f x) = r at hturn
    obtain ⟨s', err⟩ := r
    cases err with
    | some err => exact leaves_of_fail hturn
    | none =>
      dsimp only
      rw [List.map_append, List.map_map, Function.comp_def, List.map_id']
      exact (newest_of_turn hturn).1.trans (ih s')

theorem tree_of_mem_leftovers {place : List Name} {x : α} (xs : List α)
    (h : (place, x) ∈ leftovers cfg f s xs) :
    x ∈ xs ∧
      ((∃ size, (f x).kind = .reg size false) ∧
          (extract cfg s (xs.map f)).1.disk.tree place = some .file ∨
        ∃ linkname, (f x).kind = .symlink linkname ∧
          (extract cfg s (xs.map f)).1.disk.tree place = some (.link (parse linkname))) := by
  induction xs generalizing s with
  | nil => simp [leftovers] at h
  | cons y xs ih =>
    have hturn := extractEntry_turn cfg s (f y)
    rw [leftovers] at h
    rw [List.map_cons, extract]
    generalize extractEntry cfg s (f y) = r at hturn h
    obtain ⟨s', err⟩ := r
    cases err with
    | some err => simp at h
    | none =>
      dsimp only at h ⊢
      have hrest := extract_leaves cfg f s' xs
      obtain ⟨-, hfile, hlink⟩ := newest_of_turn hturn
      rcases List.mem_append.mp h with h | h
      · obtain ⟨q, hq, hpair⟩ := List.mem_map.mp h
        cases hpair
        refine ⟨List.mem_cons_self .., ?_⟩
        cases hkind : (f x).kind with
        | reg size broken =>
          obtain ⟨rfl, hnode⟩ := hfile place hq size broken hkind
          exact .inl ⟨⟨size, rfl⟩, by rw [hrest.kept place (by simp [hnode]), hnode]⟩
        | symlink linkname =>
          have hnode := hlink place hq linkname hkind
          exact .inr ⟨linkname, rfl, by rw [hrest.kept place (by simp [hnode]), hnode]⟩
        | _ =>
          rw [hkind] at hq
          simp [Disk.newest] at hq
      · obtain ⟨hmem, hnode⟩ := ih h
        exact ⟨List.mem_cons_of_mem _ hmem, hnode⟩

theorem exists_of_leaf {q : List Name} (xs : List α)
    (h : Leaf (extract cfg s (xs.map f)).1.disk.tree q) (hnew : s.disk.tree q = none) :
    ∃ x, (q, x) ∈ leftovers cfg f s xs := by
  rcases ((extract_leaves cfg f s xs).leaf_iff q).mp h with hold | hmem
  · exact absurd hnew hold.1
  · obtain ⟨⟨p, x⟩, hx, rfl⟩ := List.mem_map.mp hmem
    exact ⟨x, hx⟩

end Left

end AchProofs.Cli.Extract
