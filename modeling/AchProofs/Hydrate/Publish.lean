import AchProofs.Cli.Merge
import AchProofs.Cli.CompositeLayout

namespace AchProofs.Hydrate

open Foundation Cli.Merge Cli.Composite

variable {α : Type}

inductive MergeKind where
  | replace
  | deep
  | composite
deriving DecidableEq

/-- A file by what a faithful reader makes of it: a decoded document, or text. -/
inductive File (α : Type) where
  | doc (d : Doc α)
  | text (t : Text)
deriving DecidableEq

/-- The files by their paths. No directory is a link, so that one path is one file. -/
abbrev Disk (α : Type) := String → Option (File α)

/-- A hash without collisions: it stands for what was hashed. -/
inductive Digest (α : Type) where
  | file (f : File α)
  | subtree (t : KeyTree String α)
  | text (t : Text)
deriving DecidableEq

/-- A write an adapter asks for. The source hash is set for a converted file only. -/
structure FileWrite (α : Type) where
  path : String
  merge : MergeKind
  content : File α
  keys : List String
  sourceHash : Option (Digest α)

structure FileEntry (α : Type) where
  target : String
  hash : Digest α
  sourceHash : Digest α
  merge : MergeKind
  keys : List String
  source : String

def compositeID (keys : List String) : String := keys.headD ""

/-- The hash of the region a merge kind and its keys select in a file on disk: nothing outside when
the file cannot be read as the kind asks, nothing inside when the region is not there. -/
def scopedHash (disk : Disk α) (merge : MergeKind) (target : String) (keys : List String) :
    Option (Option (Digest α)) :=
  match disk target with
  | none => some none
  | some f =>
    match merge, f with
    | .deep, .doc d =>
      let sub := extractByKeys d.tree keys
      some (if sub.2 then some (.subtree sub.1) else none)
    | .composite, .text body => some ((region (compositeID keys) body).map .text)
    | .replace, f => some (some (.file f))
    | _, _ => none

/-- The hash of what a write contributes, if its content can be read as its kind asks. -/
def freshHash (w : FileWrite α) : Option (Digest α) :=
  match w.merge, w.content with
  | .deep, .doc d =>
    some (.subtree (if w.keys = [] then d.tree else (extractByKeys d.tree w.keys).1))
  | .composite, .text t => some (.text (compositeBlock (compositeID w.keys) t))
  | .replace, f => some (.file f)
  | _, _ => none

inductive Outcome where
  | noOp
  | upstreamOnlyOverwrite
  | localEditPreserve
  | conflictPreserve
deriving DecidableEq

def shouldExit2 : Outcome → Bool
  | .localEditPreserve => true
  | .conflictPreserve => true
  | _ => false

variable [DecidableEq α]

def compareDrift (prior : Option (FileEntry α)) (onDisk : Option (Digest α)) (source : Digest α) :
    Outcome :=
  match prior with
  | none => .noOp
  | some p =>
    if onDisk = some p.hash then
      if source = p.sourceHash then .noOp else .upstreamOnlyOverwrite
    else if source = p.sourceHash then .localEditPreserve
    else .conflictPreserve

def mergeDocs (old new : Doc α) : Doc α := old.merge new

def emptyDoc : Doc α := ⟨.nil, KeyTree.ordered_nil⟩

/-- The forward write of each kind, if the file on disk can be read as the kind asks. -/
def writeFile (word : Char → Bool) (disk : Disk α) (w : FileWrite α) : Option (Disk α) :=
  match w.merge, w.content, disk w.path with
  | .deep, .doc new,
      none => some (Function.update disk w.path (some (.doc (mergeDocs emptyDoc new))))
  | .deep, .doc new, some (.doc old) =>
    some (Function.update disk w.path (some (.doc (mergeDocs old new))))
  | .composite, .text t, none =>
    let id := compositeID w.keys
    some (Function.update disk w.path
      (some (.text (writeComposite word id (compositeBlock id t) []))))
  | .composite, .text t, some (.text body) =>
    let id := compositeID w.keys
    some (Function.update disk w.path
      (some (.text (writeComposite word id (compositeBlock id t) body))))
  | .replace, f, _ => some (Function.update disk w.path (some f))
  | _, _, _ => none

omit [DecidableEq α] in
theorem writeFile_other {word : Char → Bool} {disk disk' : Disk α} {w : FileWrite α} {t : String}
    (h : writeFile word disk w = some disk') (ht : t ≠ w.path) : disk' t = disk t := by
  unfold writeFile at h
  split at h <;> cases h
  all_goals exact Function.update_of_ne ht ..

/-- How a publish ends: refused for a drift, failed for an unreadable file, or done with the row
to record. -/
inductive Published (α : Type) where
  | refused
  | failed
  | done (disk : Disk α) (entry : FileEntry α)

/-- The outcome of the drift check, once the disk is known to hold nothing but what we write. -/
def driftOutcome (prior : Option (FileEntry α)) (onDisk : Option (Digest α))
    (fresh source : Digest α) : Outcome :=
  let outcome := compareDrift prior onDisk source
  if onDisk = some fresh ∧ shouldExit2 outcome then .noOp else outcome

def publishFile (word : Char → Bool) (disk : Disk α) (prior : Option (FileEntry α))
    (w : FileWrite α) (source : String) : Published α :=
  match freshHash w, scopedHash disk w.merge w.path w.keys with
  | some fresh, some onDisk =>
    let freshSource := w.sourceHash.getD fresh
    let outcome := driftOutcome prior onDisk fresh freshSource
    let entry : FileEntry α := ⟨w.path, fresh, freshSource, w.merge, w.keys, source⟩
    if prior.isSome ∧ shouldExit2 outcome then .refused
    else if prior.isSome ∧ outcome = .noOp then .done disk entry
    else match writeFile word disk w with
      | some disk' => .done disk' entry
      | none => .failed
  | _, _ => .failed

end AchProofs.Hydrate
