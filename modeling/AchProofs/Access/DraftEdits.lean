import AchProofs.Access.EnvTable
import AchProofs.Foundation.Run
import AchProofs.Foundation.TreeMerge

namespace AchProofs.Access.DraftEdits

open Foundation Foundation.Run

variable {α : Type}

/-- A spec, or a patch of one, by its fields. A scalar or a list is one value. -/
abbrev Spec (α : Type) := KeyTree String α

/-- The row of the Environment, with what tells how its spec came about: the spec it was created
with and the patches that were answered 200, in the order of their writes. -/
structure Row (α : Type) where
  origin : Origin
  spec : Spec α
  created : Spec α
  patched : List (Spec α)

/-- The row, and the PATCH requests that have read it and not yet written, each with its patch and
the spec that it read. -/
structure State (α : Type) where
  row : Option (Row α)
  patching : List (Spec α × Spec α)

inductive Act (α : Type) where
  | create (spec : Spec α)
  | patchRead (patch : Option (Spec α))
  | patchWrite (i : ℕ)
  | delete
  | upsert (spec : Spec α)
  | operatorDelete

def Act.byUI : Act α → Bool
  | .upsert _ => false
  | .operatorDelete => false
  | _ => true

def insertUIEnvironment (spec : Spec α) : Option (Row α) → Option (Row α)
  | none => some ⟨.ui, spec, spec, []⟩
  | some r => some r

/-- The whole spec is replaced by the one that the patch was merged into. -/
def updateUIEnvironment (patch merged : Spec α) : Option (Row α) → Option (Row α)
  | some r =>
    some (if r.origin = .ui then { r with spec := merged, patched := r.patched ++ [patch] } else r)
  | none => none

def deleteUIEnvironment : Option (Row α) → Option (Row α)
  | some r => if r.origin = .ui then none else some r
  | none => none

/-- One transaction. A PATCH takes two, the second over what the first has read. -/
def step (s : State α) : Act α → Option (State α)
  | .create spec => some { s with row := insertUIEnvironment spec s.row }
  | .patchRead patch =>
    match s.row, patch with
    | some r, some patch => some { s with patching := s.patching ++ [(patch, r.spec)] }
    -- answered 404 or 400
    | _, _ => some s
  | .patchWrite i =>
    match s.patching[i]? with
    | some (patch, seen) =>
      some ⟨updateUIEnvironment patch (seen.merge patch) s.row, s.patching.eraseIdx i⟩
    | none => none
  | .delete => some { s with row := deleteUIEnvironment s.row }
  | .upsert spec => some { s with row := some ⟨.cr, spec, spec, []⟩ }
  | .operatorDelete => some { s with row := none }

def start : State α := ⟨none, []⟩

/-- The spec of a row that is the UI's comes from the created one by its patches in some order. -/
def Serial (s : State α) : Prop :=
  ∀ r, s.row = some r → r.origin = .ui →
    ∃ order : List (Spec α), order.Perm r.patched ∧ order.foldl KeyTree.merge r.created = r.spec

/-- A row of the operator stays as it is for the UI, and the operator's until the operator deletes
it. -/
def Guarded (s : State α) (act : Act α) (s' : State α) : Prop :=
  ∀ r, s.row = some r → r.origin = .cr → (act.byUI = true → s'.row = some r) ∧
    (act ≠ .operatorDelete → ∃ r', s'.row = some r' ∧ r'.origin = .cr)

/-- A PATCH that writes to a row of the UI finds in it the spec that it has read. -/
def Fresh (s : State α) (act : Act α) : Prop :=
  ∀ i patch seen r, act = .patchWrite i → s.patching[i]? = some (patch, seen) → s.row = some r →
    r.origin = .ui → seen = r.spec

def InOrder (s : State α) : Prop :=
  ∀ r, s.row = some r → r.origin = .ui → r.patched.foldl KeyTree.merge r.created = r.spec

variable {s s' : State α} {act : Act α}

theorem guarded_of_step (h : step s act = some s') : Guarded s act s' := by
  intro r hr hcr
  have hkeep : act.byUI = true → s'.row = some r := by
    intro hui
    cases act <;> simp only [Act.byUI, Bool.false_eq_true] at hui <;> simp only [step, hr] at h
    case patchRead patch => cases patch <;> cases h <;> first | exact hr | exact rfl
    case patchWrite i =>
      cases hi : s.patching[i]? <;> simp only [hi] at h <;> cases h
      simp [updateUIEnvironment, hcr]
    all_goals
      cases h
      simp [insertUIEnvironment, deleteUIEnvironment, hcr]
  refine ⟨hkeep, fun hne => ?_⟩
  cases act with
  | upsert spec =>
    cases h
    exact ⟨_, rfl, rfl⟩
  | operatorDelete => exact absurd rfl hne
  | _ => exact ⟨r, hkeep rfl, hcr⟩

theorem inOrder_of_step (hs : InOrder s) (hfresh : Fresh s act) (h : step s act = some s') :
    InOrder s' := by
  obtain ⟨row, patching⟩ := s
  cases act with
  | create spec =>
    cases h
    cases row with
    | none =>
      rintro r hr -
      cases hr
      rfl
    | some r => exact hs
  | patchRead patch =>
    cases row <;> cases patch <;> cases h <;> exact hs
  | patchWrite i =>
    simp only [step] at h
    split at h <;> cases h
    rename_i patch seen hi
    intro r' hr' hui
    cases row with
    | none => cases hr'
    | some r =>
      cases hr'
      by_cases ho : r.origin = .ui
      · rw [if_pos ho, List.foldl_append, hs r rfl ho, hfresh i patch seen r rfl hi rfl ho]
        rfl
      · rw [if_neg ho] at hui
        exact absurd hui ho
  | delete =>
    cases h
    intro r hr hui
    cases row with
    | none => cases hr
    | some r' =>
      by_cases ho : r'.origin = .ui
      · simp [deleteUIEnvironment, ho] at hr
      · obtain rfl : r' = r := by simpa [deleteUIEnvironment, ho] using hr
        exact absurd hui ho
  | upsert spec =>
    cases h
    intro r hr hui
    cases hr
    cases hui
  | operatorDelete =>
    cases h
    exact fun r hr => nomatch hr

/-- In every run rows of the operator are safe from the UI. If every PATCH finds the spec that it
has read, no patch that was answered 200 is lost either. -/
theorem draft_edits_kept {acts : List (Act α)} (hrun : run step start acts = some s) :
    (∀ act s', step s act = some s' → Guarded s act s') ∧
      (Along step Fresh start acts → Serial s) := by
  refine ⟨fun act s' h => guarded_of_step h, fun hfresh r hr hui => ?_⟩
  have hinit : InOrder (start : State α) := fun r hr => nomatch hr
  have hall : InOrder s :=
    run_preserves (fun s act s' hs hf h => inOrder_of_step hs hf h) hinit hfresh hrun
  exact ⟨r.patched, List.Perm.refl _, hall r hr hui⟩

theorem edits_in_turn_kept : Serial (α := String)
    ⟨some ⟨.ui, .leaf "description" "d" (.leaf "notice" "b" .nil), .leaf "notice" "a" .nil,
      [.leaf "description" "d" .nil, .leaf "notice" "b" .nil]⟩, []⟩ := by
  have hfresh : Along step Fresh (start : State String) [.create (.leaf "notice" "a" .nil),
      .patchRead (some (.leaf "description" "d" .nil)), .patchWrite 0,
      .patchRead (some (.leaf "notice" "b" .nil)), .patchWrite 0] := by
    refine along_cons rfl nofun (along_cons rfl nofun (along_cons rfl ?_
      (along_cons rfl nofun (along_cons rfl ?_ trivial))))
    all_goals
      intro i patch seen r hi hp hr _
      cases hi
      cases hp
      cases hr
      rfl
  exact (draft_edits_kept rfl).2 hfresh

/-- Both PATCH requests are answered 200 and the description is gone. -/
theorem concurrent_edit_lost :
    ¬ ∀ (acts : List (Act String)) (s : State String), run step start acts = some s → Serial s := by
  intro h
  have hrun : run step start [.create .nil, .patchRead (some (.leaf "description" "a" .nil)),
      .patchRead (some (.leaf "notice" "b" .nil)), .patchWrite 0, .patchWrite 0] =
        some ⟨some ⟨.ui, .leaf "notice" "b" .nil, .nil,
          [.leaf "description" "a" .nil, .leaf "notice" "b" .nil]⟩, []⟩ := rfl
  obtain ⟨order, hperm, hfold⟩ := h _ _ hrun _ rfl rfl
  have hlost :
      ∀ order ∈ [KeyTree.leaf "description" "a" .nil, .leaf "notice" "b" .nil].permutations',
      order.foldl KeyTree.merge .nil ≠ KeyTree.leaf "notice" "b" .nil := by decide
  exact hlost order (List.mem_permutations'.mpr hperm) hfold

end AchProofs.Access.DraftEdits
