import AchProofs.Hydrate.Publish

namespace AchProofs.Hydrate

open Foundation Cli.Merge Cli.Composite

variable {α : Type}

/-- What the next state still claims on the target of a row, and so what of the row must go:
nothing, or the row with the keys to prune. -/
def uncovered (next : List (FileEntry α)) (e : FileEntry α) : Option (List String) :=
  let claims := next.filter (fun r => r.target = e.target)
  if claims = [] then some e.keys
  else if claims.any (fun r => r.merge = .replace) then none
  else match e.merge with
    | .composite =>
      if claims.any (fun r => r.merge = .composite ∧ compositeID r.keys = compositeID e.keys) then
        none
      else some []
    | .deep =>
      let keys := e.keys.filter (fun k => ¬ claims.any (fun r => r.merge = .deep ∧ k ∈ r.keys))
      if keys = [] then none else some keys
    | .replace => none

/-- The pruned document, or nothing when it came out empty and the file is deleted. -/
def pruneDoc (d : Doc α) (keys : List String) : Option (Doc α) :=
  if keys.foldl pruneDottedKey d.tree = .nil then none
  else some ⟨keys.foldl pruneDottedKey d.tree, ordered_pruneAll d.ordered keys⟩

def depth (target : String) : ℕ := target.toList.count '/'

variable [DecidableEq α]

/-- The removal of each kind: the composite block, the keys, or the file. -/
def removeEntry (word : Char → Bool) (disk : Disk α) (e : FileEntry α) (keys : List String)
    (f : File α) : Disk α :=
  match e.merge, f with
  | .composite, .text body =>
    if e.keys = [] then disk
    else Function.update disk e.target
      (some (.text (removeComposite word (compositeID e.keys) body)))
  | .deep, .doc d =>
    Function.update disk e.target ((pruneDoc d keys).map .doc)
  | .replace, _ => Function.update disk e.target none
  | _, _ => disk

/-- One removal of a sync. A region that is there with another hash than the recorded one is left
alone; a file that cannot be read as the row asks is an error. -/
def syncOne (word : Char → Bool) (disk : Disk α) (del : FileEntry α × List String) :
    Option (Disk α) :=
  match disk del.1.target with
  | none => some disk
  | some f =>
    match scopedHash disk del.1.merge del.1.target del.1.keys with
    | none => none
    | some (some h) =>
      if h = del.1.hash then some (removeEntry word disk del.1 del.2 f) else some disk
    | some none => some (removeEntry word disk del.1 del.2 f)

def deletions (prev next : List (FileEntry α)) : List (FileEntry α × List String) :=
  (prev.filterMap (fun e => (uncovered next e).map (fun keys => (e, keys)))).insertionSort
    (fun a b => depth b.1.target ≤ depth a.1.target)

/-- The removals of `Sync`; what becomes of the directories is `pruneEmptyDirs`. -/
def sync (word : Char → Bool) (prev next : List (FileEntry α)) (disk : Disk α) : Option (Disk α) :=
  (deletions prev next).foldlM (syncOne word) disk

section Directories

/-- A directory below the tool root, by the names on the way to it. -/
abbrev Dir := List (List Char)

def parent (target : String) : Dir := (target.toList.splitOn '/').dropLast

/-- The directories on the way to a target. -/
def parents (target : String) : List Dir := (parent target).inits.filter (· ≠ [])

/-- The directories that are tried for a removed row: those on the way to its target that lie below
the environment's own directory, if the target does, and all of them otherwise. -/
def prunable (achDir : Dir) (target : String) : List Dir :=
  (parents target).filter fun d => achDir <+: parent target → achDir <+: d ∧ d ≠ achDir

/-- The directories that are links, and the end of `Sync`. The removal of a directory fails unless
it is empty, and then no file goes with it; but a link is removed whatever it leads to, and all that
was reached through it is gone. -/
def pruneEmptyDirs (achDir : Dir) (targets : List String) (tree : Disk α × (Dir → Bool)) :
    Disk α × (Dir → Bool) :=
  let unlinked (d : Dir) : Bool := tree.2 d && targets.any (fun t => d ∈ prunable achDir t)
  (fun t => if (parents t).any unlinked then none else tree.1 t,
    fun d => tree.2 d && !d.inits.any unlinked)

omit [DecidableEq α] in
theorem pruneEmptyDirs_of_unlinked {achDir : Dir} {targets : List String}
    {tree : Disk α × (Dir → Bool)}
    (h : ∀ t ∈ targets, ∀ d ∈ parents t, tree.2 d = false) :
    pruneEmptyDirs achDir targets tree = tree := by
  have hnone : ∀ d, (tree.2 d && targets.any (fun t => d ∈ prunable achDir t)) = false := by
    intro d
    rw [Bool.and_eq_false_iff, or_iff_not_imp_right]
    intro hany
    obtain ⟨t, ht, hd⟩ := List.any_eq_true.mp (Bool.eq_true_of_not_eq_false hany)
    exact h t ht d (List.mem_of_mem_filter (of_decide_eq_true hd))
  have hany : ∀ ds : List Dir, (ds.any fun _ => false) = false := fun ds => by simp
  simp only [pruneEmptyDirs, hnone, hany, Bool.not_false, Bool.and_true, Bool.false_eq_true,
    if_false]

end Directories

end AchProofs.Hydrate
