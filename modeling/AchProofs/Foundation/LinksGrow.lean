import AchProofs.Foundation.Links

namespace AchProofs.Foundation.Links

variable {ν : Type}

def IsDir (fs : Tree ν) (p : List ν) : Prop := p = [] ∨ fs p = some .dir

def Grounded (fs : Tree ν) : Prop := ∀ p n, fs (p ++ [n]) ≠ none → IsDir fs p

def Extends (fs fs' : Tree ν) : Prop := ∀ p x, fs p = some x → fs' p = some x

/-- A path runs through directories, links followed, to a name that nothing has. -/
def Vacant (fs : Tree ν) (hops : ℕ) (dir rel : List ν) : Prop :=
  ∃ a n b mid, rel = a ++ n :: b ∧ walk fs dirEnter hops dir (names a) = .ok mid ∧
    fs (mid ++ [n]) = none

def Reaches (fs : Tree ν) (hops : ℕ) (dir rel : List ν) : Prop :=
  ∃ loc, walk fs dirEnter hops dir (names rel) = .ok loc

variable {fs fs' : Tree ν} {hops : ℕ} {dir loc mid rel : List ν}

theorem IsDir.extends (he : Extends fs fs') {p : List ν} (h : IsDir fs p) : IsDir fs' p :=
  h.imp id (he p _)

theorem Grounded.isDir_dropLast (hg : Grounded fs) {p : List ν} (h : IsDir fs p) :
    IsDir fs p.dropLast := by
  rcases List.eq_nil_or_concat p with rfl | ⟨q, n, rfl⟩
  · exact h
  · rw [List.concat_eq_append] at h ⊢
    rw [List.dropLast_concat]
    rcases h with h | h
    · exact absurd h (by simp)
    · exact hg q n (by rw [h]; simp)

theorem walk_isDir (hg : Grounded fs) {parts : List (Part ν)}
    (h : walk fs dirEnter hops dir parts = .ok loc) (hd : IsDir fs dir) : IsDir fs loc := by
  refine walk_ok_induction (motive := fun _ dir _ => IsDir fs dir → IsDir fs loc)
    ?nil ?up ?link ?pass h hd
  case nil => exact fun _ hd => hd
  case up => exact fun _ _ _ _ ih hd => ih (hg.isDir_dropLast hd)
  case link =>
    intro _ dir _ t _ _ _ ih hd
    refine ih ?_
    unfold Written.base
    split_ifs
    · exact .inl rfl
    · exact hd
  case pass => exact fun _ _ _ _ _ he _ ih _ => ih (.inr (eq_dir_of_dirEnter he))

theorem walk_extends (he : Extends fs fs') {parts : List (Part ν)}
    (h : walk fs dirEnter hops dir parts = .ok loc) :
    walk fs' dirEnter hops dir parts = .ok loc := by
  refine walk_ok_induction (motive := fun hops dir parts =>
    walk fs' dirEnter hops dir parts = .ok loc) ?nil ?up ?link ?pass h
  case nil => exact fun _ => walk_nil
  case up => exact fun _ _ _ _ ih => walk_up.trans ih
  case link => exact fun _ _ _ _ _ ht _ ih => (walk_link (he _ _ ht)).trans ih
  case pass =>
    intro _ dir n rest _ hpass _ ih
    have hdir := he _ _ (eq_dir_of_dirEnter hpass)
    exact (walk_dir (fun _ => rfl) hdir).trans ih

theorem walk_then {enter : Enter ν} (hdir : ∀ rest, enter (some .dir) rest = none)
    {p r : List (Part ν)} (h : walk fs dirEnter hops dir p = .ok mid)
    (hr : ∀ k, walk fs enter k mid r = .ok loc) :
    walk fs enter hops dir (p ++ r) = .ok loc := by
  refine walk_ok_induction (motive := fun hops dir parts =>
    walk fs enter hops dir (parts ++ r) = .ok loc) ?nil ?up ?link ?pass h
  case nil => exact fun hops => hr hops
  case up => exact fun _ _ _ _ ih => walk_up.trans ih
  case link =>
    intro _ dir n t rest ht _ ih
    rw [List.append_assoc] at ih
    exact (walk_link ht).trans ih
  case pass =>
    intro _ dir n rest _ hpass _ ih
    exact (walk_dir hdir (eq_dir_of_dirEnter hpass)).trans ih

theorem walk_names_concat {p : List ν} {n : ν} (h : walk fs dirEnter hops dir (names p) = .ok mid)
    (hn : fs (mid ++ [n]) = some .dir) :
    walk fs dirEnter hops dir (names (p ++ [n])) = .ok (mid ++ [n]) := by
  rw [names_append]
  exact walk_then (fun _ => rfl) h fun _ => (walk_dir (fun _ => rfl) hn).trans walk_nil

theorem walk_through {a b : List ν} {n : ν}
    (h : walk fs dirEnter hops dir (names (a ++ n :: b)) = .ok loc) :
    ∃ mid, walk fs dirEnter hops dir (names a) = .ok mid ∧ fs (mid ++ [n]) ≠ none := by
  rw [names_append] at h
  obtain ⟨k, mid, -, ha, hb⟩ : ∃ k mid, k ≤ hops ∧ walk fs dirEnter hops dir (names a) = .ok mid ∧
      walk fs dirEnter k mid (names (n :: b)) = .ok loc :=
    walk_append_ok (fun node rest h => by rw [eq_dir_of_dirEnter h]; rfl) h
  refine ⟨mid, ha, ?_⟩
  obtain ⟨t, _, ht, -, -⟩ | ⟨-, hdir, -⟩ := walk_name_ok (n := n) hb
  · rw [ht]
    simp
  · rw [eq_dir_of_dirEnter hdir]
    simp

theorem Reaches.not_vacant (h : Reaches fs hops dir rel) : ¬ Vacant fs hops dir rel := by
  rintro ⟨a, n, b, mid, rfl, ha, hfree⟩
  obtain ⟨loc, hloc⟩ := h
  obtain ⟨mid', ha', hn⟩ := walk_through hloc
  cases ha.symm.trans ha'
  exact hn hfree

theorem Grounded.none_below (hg : Grounded fs) {p : List ν} (hp : p ≠ []) (h : fs p = none)
    (q : List ν) : fs (p ++ q) = none := by
  induction q using List.reverseRecOn with
  | nil => rwa [List.append_nil]
  | append_singleton q n ih =>
    refine not_not.mp fun hne => ?_
    rw [← List.append_assoc] at hne
    rcases hg _ n hne with hnil | hdir
    · exact hp (List.append_eq_nil_iff.mp hnil).1
    · rw [ih] at hdir
      cases hdir

section Put

variable [DecidableEq ν] {parent : List ν} {n : ν} {node : Node ν}

theorem extends_update (hfree : fs (parent ++ [n]) = none) :
    Extends fs (Function.update fs (parent ++ [n]) (some node)) := by
  intro p x hx
  rw [Function.update_of_ne]
  · exact hx
  · rintro rfl
    rw [hfree] at hx
    cases hx

theorem Grounded.update (hg : Grounded fs) (hdir : IsDir fs parent)
    (hfree : fs (parent ++ [n]) = none) :
    Grounded (Function.update fs (parent ++ [n]) (some node)) := by
  intro p m hm
  by_cases hp : p ++ [m] = parent ++ [n]
  · obtain ⟨rfl, -⟩ := List.append_inj' hp rfl
    exact hdir.extends (extends_update hfree)
  · rw [Function.update_of_ne hp] at hm
    exact (hg p m hm).extends (extends_update hfree)

end Put

end AchProofs.Foundation.Links
