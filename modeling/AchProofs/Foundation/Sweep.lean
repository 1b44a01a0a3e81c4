import Mathlib

namespace AchProofs.Foundation

/-- A guarded removal in a store that is read item by item. A request owns some items and cuts
some of them. When its gate is open its cut items go, and no item apart from them changes; when
the gate is closed nothing happens. The gate reads the owned items alone. -/
structure Sweep (D I P R : Type) where
  look : D → I → Option P
  Apart : I → I → Prop
  own : R → List I
  cut : R → List I
  Good : D → R → Prop
  Open : D → R → Prop
  step : D → R → Option D
  total : ∀ d r, Good d r → ∃ d', step d r = some d'
  good : ∀ d d' r r', Good d r → Good d r' → step d r = some d' → Good d' r'
  gate : ∀ d d' r, Good d r → Good d' r → (∀ i ∈ own r, look d' i = look d i) →
    (Open d' r ↔ Open d r)
  cuts : ∀ d d' r, Good d r → Open d r → step d r = some d' → ∀ i ∈ cut r, look d' i = none
  frame : ∀ d d' r, Good d r → step d r = some d' →
    ∀ i, (∀ j ∈ cut r, Apart i j) → look d' i = look d i
  closed : ∀ d d' r, Good d r → ¬ Open d r → step d r = some d' → d' = d
  cut_subset : ∀ d r, Good d r → ∀ i ∈ cut r, i ∈ own r

namespace Sweep

variable {D I P R : Type} (w : Sweep D I P R)

def Separate (r r' : R) : Prop :=
  ∀ i ∈ w.own r, ∀ j ∈ w.own r', w.Apart i j ∧ w.Apart j i

variable {w}

variable {r : R} {d d' : D} {rs : List R}

theorem Separate.symm {r' : R} (h : w.Separate r r') : w.Separate r' r :=
  fun i hi j hj => (h j hj i hi).symm

theorem look_step {r' : R} (hg : w.Good d r) (hs : w.step d r = some d') (hsep : w.Separate r r')
    {i : I} (hi : i ∈ w.own r') : w.look d' i = w.look d i :=
  w.frame d d' r hg hs i (fun j hj => (hsep j (w.cut_subset d r hg j hj) i hi).2)

/-- A sweep of separate requests does to each of them what its gate says at the start. -/
structure Swept (d d' : D) (rs : List R) : Prop where
  good : ∀ r, w.Good d r → w.Good d' r
  frame : ∀ i, (∀ r ∈ rs, ∀ j ∈ w.cut r, w.Apart i j) → w.look d' i = w.look d i
  cuts : ∀ r ∈ rs, w.Open d r → ∀ i ∈ w.cut r, w.look d' i = none
  closed : ∀ r ∈ rs, ¬ w.Open d r → ∀ i ∈ w.own r, w.look d' i = w.look d i

theorem look_swept (h : w.Swept d d' rs) (hgood : ∀ r' ∈ rs, w.Good d r')
    (hsep : ∀ r' ∈ rs, w.Separate r r') {i : I} (hi : i ∈ w.own r) : w.look d' i = w.look d i :=
  h.frame i (fun r' hr' j hj => (hsep r' hr' i hi j (w.cut_subset d r' (hgood r' hr') j hj)).1)

theorem Swept.cons {d₁ : D} (hgood : ∀ r' ∈ r :: rs, w.Good d r') (hs : w.step d r = some d₁)
    (hsep : ∀ r' ∈ rs, w.Separate r r') (h : w.Swept d₁ d' rs) : w.Swept d d' (r :: rs) := by
  have hg := hgood r (by simp)
  have hgood₁ : ∀ r' ∈ rs, w.Good d₁ r' := fun r' hr' =>
    w.good d d₁ r r' hg (hgood r' (by simp [hr'])) hs
  have hgate : ∀ r' ∈ rs, (w.Open d₁ r' ↔ w.Open d r') := fun r' hr' =>
    w.gate d d₁ r' (hgood r' (by simp [hr'])) (hgood₁ r' hr')
      (fun i hi => look_step hg hs (hsep r' hr') hi)
  refine ⟨fun r' hr' => h.good r' (w.good d d₁ r r' hg hr' hs), fun i hi => ?_,
    fun r' hr' ho i hi => ?_, fun r' hr' ho i hi => ?_⟩
  · rw [h.frame i (fun r' hr' => hi r' (by simp [hr']))]
    exact w.frame d d₁ r hg hs i (hi r (by simp))
  · obtain rfl | hr' := List.mem_cons.mp hr'
    · rw [look_swept h hgood₁ hsep (w.cut_subset d r' hg i hi)]
      exact w.cuts d d₁ r' hg ho hs i hi
    · exact h.cuts r' hr' ((hgate r' hr').mpr ho) i hi
  · obtain rfl | hr' := List.mem_cons.mp hr'
    · rw [look_swept h hgood₁ hsep hi, w.closed d d₁ r' hg ho hs]
    · rw [h.closed r' hr' (fun ho' => ho ((hgate r' hr').mp ho')) i hi]
      exact look_step hg hs (hsep r' hr') hi

theorem exists_swept (hsep : rs.Pairwise w.Separate) (hgood : ∀ r ∈ rs, w.Good d r) :
    ∃ d', rs.foldlM w.step d = some d' ∧ w.Swept d d' rs := by
  induction rs generalizing d with
  | nil => exact ⟨d, rfl, fun _ h => h, fun _ _ => rfl, by simp, by simp⟩
  | cons r rs ih =>
    obtain ⟨hr, hrs⟩ := List.pairwise_cons.mp hsep
    have hg := hgood r (by simp)
    obtain ⟨d₁, hs⟩ := w.total d r hg
    obtain ⟨d', hd', h⟩ := ih hrs (fun r' hr' =>
      w.good d d₁ r r' hg (hgood r' (by simp [hr'])) hs)
    exact ⟨d', by rw [List.foldlM_cons, hs]; exact hd', h.cons hgood hs hr⟩

end Sweep

end AchProofs.Foundation
