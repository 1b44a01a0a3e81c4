import Mathlib

namespace AchProofs.Foundation.Paging

section Page

variable {α β : Type} [LinearOrder β] (key : α → β)

def Descending (l : List α) : Prop := l.Pairwise (fun x y => key y < key x)

def below (cursor : Option β) (x : α) : Bool :=
  match cursor with
  | none => true
  | some c => key x < c

def cut (limit : ℕ) (rows : List α) : List α × Option β :=
  if limit < rows.length then (rows.take limit, (rows[limit - 1]?).map key) else (rows, none)

variable {key} {l : List α}

theorem filter_below_getElem (h : Descending key l) {i : ℕ} {x : α} (hx : l[i]? = some x) :
    l.filter (below key (some (key x))) = l.drop (i + 1) := by
  induction l generalizing i with
  | nil => exact absurd hx (by rw [List.getElem?_nil]; nofun)
  | cons a l ih =>
    obtain ⟨ha, hl⟩ := List.pairwise_cons.mp h
    cases i with
    | zero =>
      obtain rfl : a = x := Option.some.inj hx
      have hall : l.filter (below key (some (key a))) = l :=
        List.filter_eq_self.mpr fun y hy => decide_eq_true (ha y hy)
      rw [List.filter_cons_of_neg (by simp [below]), hall, List.drop_succ_cons, List.drop_zero]
    | succ i =>
      have hx' : l[i]? = some x := hx
      have hlt : key x < key a := ha x (List.mem_of_getElem? hx')
      rw [List.filter_cons_of_neg (by simp [below, hlt.le]), ih hl hx', List.drop_succ_cons]

/-- A page of the rows from some place on: either it is the last one, or the next cursor leads to
the rows behind it. -/
theorem cut_spec (h : Descending key l) {limit : ℕ} (hlimit : 0 < limit) (n : ℕ) :
    (cut key limit ((l.drop n).take (limit + 1)) = (l.drop n, none)) ∨
      ∃ x ∈ l, cut key limit ((l.drop n).take (limit + 1)) = ((l.drop n).take limit, some (key x)) ∧
        n + limit < l.length ∧ l.filter (below key (some (key x))) = l.drop (n + limit) := by
  rw [cut]
  split_ifs with hlen
  · right
    have hlong : n + limit < l.length := by
      rw [List.length_take, List.length_drop] at hlen
      omega
    have hget : l[n + (limit - 1)]? = some (l.get ⟨n + (limit - 1), by omega⟩) :=
      List.getElem?_eq_getElem _
    refine ⟨_, List.mem_of_getElem? hget, ?_, hlong, ?_⟩
    · rw [List.take_take, Nat.min_eq_left (Nat.le_succ limit), List.getElem?_take,
        if_pos (by omega), List.getElem?_drop, hget, Option.map_some]
    · rw [filter_below_getElem h hget]
      congr 1
      omega
  · left
    have hshort : (l.drop n).length ≤ limit + 1 := by
      rw [List.length_take] at hlen
      omega
    rw [List.take_of_length_le hshort]

omit [LinearOrder β] in
theorem cut_sublist (limit : ℕ) (rows : List α) : (cut key limit rows).1.Sublist rows := by
  rw [cut]
  split_ifs
  · exact List.take_sublist _ _
  · exact List.Sublist.refl _

omit [LinearOrder β] in
theorem cut_map {γ : Type} (f : γ → α) (limit : ℕ) (rows : List γ) :
    cut key limit (rows.map f) =
      ((cut (key ∘ f) limit rows).1.map f, (cut (key ∘ f) limit rows).2) := by
  rw [cut, cut, List.length_map]
  split_ifs
  · rw [List.map_take, List.getElem?_map, Option.map_map]
  · rfl

end Page

section Follow

variable {α γ δ : Type}

def follow (fetch : γ → Option (List δ × Option γ)) : ℕ → γ → Option (List δ)
  | 0, _ => none
  | n + 1, c =>
    match fetch c with
    | none => none
    | some (items, none) => some items
    | some (items, some c') => (follow fetch n c').map (items ++ ·)

theorem follow_eq {fetch : γ → Option (List δ × Option γ)} {At : γ → List α → Prop}
    {g : α → Option δ}
    (hpage : ∀ c l, At c l → fetch c = some (l.filterMap g, none) ∨
      ∃ k c', 0 < k ∧ k < l.length ∧ fetch c = some ((l.take k).filterMap g, some c') ∧
        At c' (l.drop k)) {n : ℕ} {c : γ} {l : List α} (hn : l.length < n) (h : At c l) :
    follow fetch n c = some (l.filterMap g) := by
  induction n generalizing c l with
  | zero => exact absurd hn (Nat.not_lt_zero _)
  | succ n ih =>
    rw [follow]
    obtain hlast | ⟨k, c', hk, hlt, hfetch, hnext⟩ := hpage c l h
    · rw [hlast]
    · have hdrop : (l.drop k).length < n := by
        rw [List.length_drop]
        omega
      rw [hfetch]
      dsimp only
      rw [ih hdrop hnext, Option.map_some, ← List.filterMap_append, List.take_append_drop]

end Follow

end AchProofs.Foundation.Paging
