import Mathlib

/-! The budget of a tag. LiteLLM keeps budgets and tags apart and has no upsert on either, so a
budget is written and bound by up to five calls, each of which may fail. -/

namespace AchProofs.Litellm.TagBudget

variable {γ : Type}

structure Budget (γ : Type) where
  maxBudget : γ
  budgetDuration : String
deriving DecidableEq

/-- The budgets by their identifiers, and the tags by their names, each with the budget it is bound
to. -/
structure Store (γ : Type) where
  budgets : String → Option (Budget γ)
  tags : String → Option (Option String)

/-- What the notes on LiteLLM leave open: whether an update that does not mention the duration keeps
the old one, and whether a tag may be bound to a budget that is not there. -/
structure LiteLLM where
  keepsOmitted : Bool
  refusesDangling : Bool

/-- How a call ends: it works, it fails with an answer that reads as "not found", it fails, or it is
carried out and reported as failed. -/
inductive Answer where
  | ok
  | notFound
  | fail
  | lost
deriving DecidableEq

/-- How the calls of one `UpsertTagBudget` end, each of which is made once at most. -/
structure Pattern where
  info : Answer
  new : Answer
  update : Answer
  delete : Answer
  bind : Answer

def allOk : Pattern := ⟨.ok, .ok, .ok, .ok, .ok⟩

def Answer.done : Answer → Bool
  | .ok | .lost => true
  | _ => false

section Calls

variable (lite : LiteLLM) (s : Store γ) (name : String) (b : Budget γ)

def Store.setBudget (budget : Budget γ) : Store γ :=
  { s with budgets := Function.update s.budgets name (some budget) }

def Store.setTag (tag : Option (Option String)) : Store γ :=
  { s with tags := Function.update s.tags name tag }

/-- `TagInfo`: nothing on an error, and otherwise the tag, if it is known, with its budget. -/
def tagInfo : Answer → Option (Option (Option (String × Budget γ)))
  | .ok => some ((s.tags name).map fun id => id.bind fun id => (s.budgets id).map fun old =>
      (id, old))
  | .notFound => some none
  | _ => none

/-- `/budget/new`, which is refused when the budget exists. -/
def budgetNew (answer : Answer) : Store γ × Bool :=
  match s.budgets name with
  | some _ => (s, false)
  | none => (if answer.done then s.setBudget name b else s, answer = .ok)

def updated (old : Budget γ) : Budget γ :=
  ⟨b.maxBudget, if b.budgetDuration = "" ∧ lite.keepsOmitted then old.budgetDuration
    else b.budgetDuration⟩

/-- `/budget/update`, which does nothing when the budget is missing. -/
def budgetUpdate (answer : Answer) : Store γ × Bool :=
  match s.budgets name with
  | some old => (if answer.done then s.setBudget name (updated lite b old) else s, answer = .ok)
  | none => (s, answer = .ok)

/-- `DeleteTagByName`: a tag that is absent is deleted. -/
def deleteTagByName (answer : Answer) : Store γ × Bool :=
  (if answer.done then s.setTag name none else s, answer = .ok ∨ answer = .notFound)

/-- `/tag/new`, which is refused when the tag exists. -/
def tagNew (answer : Answer) : Store γ × Bool :=
  if (s.tags name).isSome ∨ lite.refusesDangling ∧ (s.budgets name).isNone then (s, false)
  else (if answer.done then s.setTag name (some (some name)) else s, answer = .ok)

end Calls

section Upsert

variable (lite : LiteLLM) (name : String) (b : Budget γ) (p : Pattern)

/-- The budget that the tag is bound to, if it has the tag's name. -/
def bound (info : Option (Option (String × Budget γ))) : Option (Budget γ) :=
  match info with
  | some (some (id, old)) => if id = name then some old else none
  | _ => none

/-- New first: an update of a missing budget does nothing. -/
def writeBudget (s : Store γ) : Store γ × Bool :=
  let created := budgetNew s name b p.new
  if created.2 then created else budgetUpdate lite created.1 name b p.update

def rebindTag (tagged : Bool) (s : Store γ) : Store γ × Except String Unit :=
  let deleted := if tagged then deleteTagByName s name p.delete else (s, true)
  if !deleted.2 then (deleted.1, .error ("litellm: rebind tag " ++ name))
  else
    let added := tagNew lite deleted.1 name p.bind
    (added.1, if added.2 then .ok () else .error ("litellm: bind tag " ++ name))

variable [DecidableEq γ]

def upsertTagBudget (s : Store γ) : Store γ × Except String Unit :=
  match tagInfo s name p.info with
  | none => (s, .error ("litellm: read tag " ++ name))
  | some info =>
    match bound name info with
    | some old =>
      if old = b then (s, .ok ())
      else
        let written := budgetUpdate lite s name b p.update
        (written.1, if written.2 then .ok () else .error ("litellm: update budget " ++ name))
    | none =>
      let written := writeBudget lite name b p s
      if !written.2 then (written.1, .error ("litellm: upsert budget " ++ name))
      else rebindTag lite name p info.isSome written.1

end Upsert

end AchProofs.Litellm.TagBudget
