import Mathlib

namespace AchProofs.Foundation.Run

variable {S A : Type} (step : S → A → Option S)

/-- The state a list of actions leads to, if each of them is enabled in its turn. -/
def run : S → List A → Option S
  | s, [] => some s
  | s, a :: as => (step s a).bind (fun s' => run s' as)

/-- Every action of a run meets the condition in the state it is taken in. -/
def Along (ok : S → A → Prop) : S → List A → Prop
  | _, [] => True
  | s, a :: as => ok s a ∧ ∀ s', step s a = some s' → Along ok s' as

variable {step}

theorem run_cons {s s' : S} {a : A} (h : step s a = some s') (as : List A) :
    run step s (a :: as) = run step s' as := by
  rw [run, h, Option.bind_some]

theorem run_append {s s' : S} {as : List A} (h : run step s as = some s') (bs : List A) :
    run step s (as ++ bs) = run step s' bs := by
  induction as generalizing s with
  | nil =>
    cases h
    rfl
  | cons a as ih =>
    obtain ⟨s₁, h₁, h₂⟩ := Option.bind_eq_some_iff.mp h
    rw [List.cons_append, run_cons h₁, ih h₂]

theorem exists_of_run_append {s s' : S} {as bs : List A} (h : run step s (as ++ bs) = some s') :
    ∃ s₁, run step s as = some s₁ ∧ run step s₁ bs = some s' := by
  induction as generalizing s with
  | nil => exact ⟨s, rfl, h⟩
  | cons a as ih =>
    obtain ⟨s₁, h₁, h₂⟩ := Option.bind_eq_some_iff.mp h
    obtain ⟨s₂, hs₂, hrest⟩ := ih h₂
    exact ⟨s₂, (run_cons h₁ as).trans hs₂, hrest⟩

theorem along_cons {ok : S → A → Prop} {s s' : S} {a : A} {as : List A} (h : step s a = some s')
    (ha : ok s a) (has : Along step ok s' as) : Along step ok s (a :: as) := by
  refine ⟨ha, fun s₁ h₁ => ?_⟩
  cases h.symm.trans h₁
  exact has

theorem along_trivial (as : List A) (s : S) : Along step (fun _ _ => True) s as := by
  induction as generalizing s with
  | nil => trivial
  | cons a as ih => exact ⟨trivial, fun s' _ => ih s'⟩

theorem along_append {ok : S → A → Prop} {s s' : S} {as bs : List A}
    (h : Along step ok s (as ++ bs)) (hr : run step s as = some s') : Along step ok s' bs := by
  induction as generalizing s with
  | nil =>
    cases hr
    exact h
  | cons a as ih =>
    obtain ⟨s₁, h₁, h₂⟩ := Option.bind_eq_some_iff.mp hr
    exact ih (h.2 s₁ h₁) h₂

theorem along_left {ok : S → A → Prop} {s : S} {as bs : List A}
    (h : Along step ok s (as ++ bs)) : Along step ok s as := by
  induction as generalizing s with
  | nil => trivial
  | cons a as ih => exact ⟨h.1, fun s' hs' => ih (h.2 s' hs')⟩

theorem run_preserves {ok : S → A → Prop} {Inv : S → Prop}
    (hstep : ∀ s a s', Inv s → ok s a → step s a = some s' → Inv s')
    {s s' : S} {as : List A} (hi : Inv s) (ha : Along step ok s as)
    (hr : run step s as = some s') : Inv s' := by
  induction as generalizing s with
  | nil =>
    cases hr
    exact hi
  | cons a as ih =>
    obtain ⟨s₁, h₁, h₂⟩ := Option.bind_eq_some_iff.mp hr
    exact ih (hstep s a s₁ hi ha.1 h₁) (ha.2 s₁ h₁) h₂

theorem along_of_preserves {ok ok' : S → A → Prop} {Inv : S → Prop}
    (hstep : ∀ s a s', Inv s → ok s a → step s a = some s' → Inv s')
    (himp : ∀ s a, Inv s → ok s a → ok' s a) {s : S} {as : List A} (hi : Inv s)
    (ha : Along step ok s as) : Along step ok' s as := by
  induction as generalizing s with
  | nil => trivial
  | cons a as ih =>
    exact ⟨himp s a hi ha.1, fun s' hs' => ih (hstep s a s' hi ha.1 hs') (ha.2 s' hs')⟩

section Loop

variable {B : Type} (f : S → B → S × Bool)

/-- A loop over a list that returns at the first error. -/
def untilError : S → List B → S × Bool
  | s, [] => (s, true)
  | s, x :: xs => if (f s x).2 then untilError (f s x).1 xs else ((f s x).1, false)

variable {f}

/-- A round either fails with the result or keeps the invariant for the rounds to come. -/
theorem untilError_rule {P : S → List B → Prop} {Q : S × Bool → Prop}
    (hdone : ∀ s, P s [] → Q (s, true))
    (hround : ∀ s x xs, P s (x :: xs) →
      if (f s x).2 then P (f s x).1 xs
        else Q ((f s x).1, false)) {s : S} {xs : List B} (h : P s xs) :
    Q (untilError f s xs) := by
  induction xs generalizing s with
  | nil => exact hdone s h
  | cons x xs ih =>
    have hx := hround s x xs h
    rw [untilError]
    split_ifs at hx ⊢
    · exact ih hx
    · exact hx

end Loop

end AchProofs.Foundation.Run
