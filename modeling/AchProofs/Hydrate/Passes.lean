import AchProofs.Foundation.Run
import AchProofs.Hydrate.Sync

namespace AchProofs.Hydrate

variable {α : Type}

/-- The rows of a state file whose targets lie under the tool root. -/
structure State (α : Type) where
  plugins : List (FileEntry α)
  skills : List (FileEntry α)
  adapter : List (FileEntry α)

def State.empty : State α := ⟨[], [], []⟩

def walkEntries (s : State α) : List (FileEntry α) := s.plugins ++ s.skills ++ s.adapter

inductive Bucket where
  | plugins
  | skills
  | adapter

def State.bucket (s : State α) : Bucket → List (FileEntry α)
  | .plugins => s.plugins
  | .skills => s.skills
  | .adapter => s.adapter

def State.record (s : State α) (e : FileEntry α) : Bucket → State α
  | .plugins => { s with plugins := s.plugins ++ [e] }
  | .skills => { s with skills := s.skills ++ [e] }
  | .adapter => { s with adapter := s.adapter ++ [e] }

def findEntry (rows : List (FileEntry α)) (target : String) : Option (FileEntry α) :=
  rows.find? (fun e => e.target = target)

def pruneMissing (disk : Disk α) (rows : List (FileEntry α)) : List (FileEntry α) :=
  rows.filter (fun e => (disk e.target).isSome)

def reconcileVsDisk (disk : Disk α) (s : State α) : State α :=
  ⟨pruneMissing disk s.plugins, pruneMissing disk s.skills, pruneMissing disk s.adapter⟩

def keptPluginRows (prev next : List (FileEntry α)) : List (FileEntry α) :=
  prev.filter (fun e => next.any (fun r => r.source = e.source))

/-- A hydrate on its way: the state it started from and the rows it has recorded. -/
structure Pass (α : Type) where
  prev : State α
  next : State α

def Pass.prior (p : Pass α) (b : Bucket) (w : FileWrite α) : Option (FileEntry α) :=
  findEntry (p.prev.bucket b) w.path

/-- The rows a hydrate hands to the sync as the previous ones. Without the flag these are the
runtime rows and the rows of plugins that still project. -/
def Pass.syncPrev (p : Pass α) (flag : Bool) : List (FileEntry α) :=
  if flag then walkEntries p.prev
  else walkEntries ⟨keptPluginRows p.prev.plugins p.next.plugins, [], p.prev.adapter⟩

def Pass.syncNext (p : Pass α) (flag : Bool) : List (FileEntry α) :=
  if flag then walkEntries p.next else walkEntries ⟨p.next.plugins, [], p.next.adapter⟩

/-- One environment on one platform: the tree, the state file, and the hydrate under way. -/
structure World (α : Type) where
  disk : Disk α
  saved : State α
  pass : Option (Pass α)

inductive Act (α : Type) where
  | edit (disk : Disk α)
  | begin
  | publish (b : Bucket) (source : String) (w : FileWrite α)
  | finish (flag : Bool)

variable [DecidableEq α]

def publishStep (word : Char → Bool) (s : World α) (p : Pass α) (b : Bucket) (source : String)
    (w : FileWrite α) : World α :=
  match publishFile word s.disk (p.prior b w) w source with
  | .done disk e => { s with disk := disk, pass := some { p with next := p.next.record e b } }
  -- A refusal or an error ends the hydrate before the state file is written.
  | .refused => { s with pass := none }
  | .failed => { s with pass := none }

/-- The user edits the tree between hydrates. A hydrate reconciles the saved rows with the disk,
publishes its writes one by one, and ends with the sync and the new state file. -/
def step (word : Char → Bool) (s : World α) : Act α → Option (World α)
  | .edit disk =>
    match s.pass with
    | none => some { s with disk := disk }
    | some _ => none
  | .begin =>
    match s.pass with
    | none => some { s with pass := some ⟨reconcileVsDisk s.disk s.saved, .empty⟩ }
    | some _ => none
  | .publish b source w => s.pass.map (fun p => publishStep word s p b source w)
  | .finish flag =>
    match s.pass with
    | none => none
    | some p => (sync word (p.syncPrev flag) (p.syncNext flag) s.disk).map
        (fun disk => ⟨disk, p.next, none⟩)

def Refuses (word : Char → Bool) (s : World α) : Act α → Prop
  | .publish b source w =>
    ∃ p, s.pass = some p ∧ publishFile word s.disk (p.prior b w) w source = .refused
  | _ => False

section Rows

omit [DecidableEq α]

variable {s : State α} {e : FileEntry α} {b : Bucket}

theorem bucket_subset : s.bucket b ⊆ walkEntries s := by
  intro e he
  cases b <;> simp_all [State.bucket, walkEntries]

theorem mem_record {r : FileEntry α} :
    r ∈ walkEntries (s.record e b) ↔ r ∈ walkEntries s ∨ r = e := by
  cases b <;> simp [State.record, walkEntries] <;> tauto

theorem record_perm : (walkEntries (s.record e b)).Perm (e :: walkEntries s) := by
  cases b with
  | plugins =>
    simp only [State.record, walkEntries, List.append_assoc, List.singleton_append]
    exact List.perm_middle
  | skills =>
    simp only [State.record, walkEntries, List.append_assoc, List.singleton_append]
    exact (List.Perm.append_left _ List.perm_middle).trans List.perm_middle
  | adapter =>
    rw [← List.singleton_append]
    simp only [State.record, walkEntries, ← List.append_assoc]
    exact List.perm_append_comm.trans (by simp)

theorem reconcile_sublist (disk : Disk α) (s : State α) :
    (walkEntries (reconcileVsDisk disk s)).Sublist (walkEntries s) :=
  (List.filter_sublist.append List.filter_sublist).append List.filter_sublist

theorem syncPrev_sublist (p : Pass α) (flag : Bool) :
    (p.syncPrev flag).Sublist (walkEntries p.prev) := by
  cases flag with
  | true => exact List.Sublist.refl _
  | false =>
    exact (List.filter_sublist.append (List.nil_sublist _)).append (List.Sublist.refl _)

theorem syncNext_sublist (p : Pass α) (flag : Bool) :
    (p.syncNext flag).Sublist (walkEntries p.next) := by
  cases flag with
  | true => exact List.Sublist.refl _
  | false =>
    exact ((List.Sublist.refl _).append (List.nil_sublist _)).append (List.Sublist.refl _)

theorem mem_syncNext_or_skills {p : Pass α} {r : FileEntry α} (h : r ∈ walkEntries p.next)
    (flag : Bool) : r ∈ p.syncNext flag ∨ flag = false ∧ r ∈ p.next.skills := by
  cases flag with
  | true => exact .inl h
  | false =>
    simp only [walkEntries, List.mem_append] at h
    simp only [Pass.syncNext, walkEntries, Bool.false_eq_true, if_false, List.append_nil,
      List.mem_append, true_and]
    tauto

end Rows

end AchProofs.Hydrate
