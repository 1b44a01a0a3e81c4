import Mathlib

namespace AchProofs.Foundation.Search

variable {σ : Type}

variable {a b t pat xs pre : List σ} {c : σ}

theorem infix_append_cons (hc : c ∉ t) (h : c :: t <:+: a ++ c :: b) :
    c :: t <:+: a ∨ c :: t <:+: c :: b := by
  induction a with
  | nil => exact .inr h
  | cons x a ih =>
    obtain h | h := List.infix_cons_iff.mp h
    · obtain ⟨hcx, htp⟩ := List.cons_prefix_cons.mp h
      have hlen : t.length ≤ a.length := by
        by_contra hlt
        have hmem : c ∈ t := by
          have hpre : a ++ [c] <+: t :=
            List.prefix_of_prefix_length_le ⟨b, by simp⟩ htp (by simp; omega)
          exact hpre.subset (by simp)
        exact hc hmem
      have hta : t <+: a := List.prefix_of_prefix_length_le htp (List.prefix_append a _) hlen
      exact .inl (hcx ▸ (List.cons_prefix_cons.mpr ⟨rfl, hta⟩).isInfix)
    · obtain h | h := ih h
      · exact .inl (List.infix_cons h)
      · exact .inr h

theorem infix_append_of_not_mem (hc : c ∉ a) (h : c :: t <:+: a ++ b) : c :: t <:+: b := by
  induction a with
  | nil => exact h
  | cons x a ih =>
    obtain h | h := List.infix_cons_iff.mp h
    · exact absurd (List.cons_prefix_cons.mp h).1 (fun hx => hc (by simp [hx]))
    · exact ih (fun hm => hc (by simp [hm])) h

theorem infix_snoc {p : List σ} {x y : σ} (hp : p.getLast? = some y) (hxy : y ≠ x)
    (h : p <:+: a ++ [x]) : p <:+: a := by
  obtain ⟨u, v, huv⟩ := h
  obtain rfl | ⟨v, z, rfl⟩ := v.eq_nil_or_concat
  · have hlast := congrArg List.getLast? huv
    rw [List.append_nil, List.getLast?_append, hp] at hlast
    simp only [List.getLast?_append, List.getLast?_singleton] at hlast
    exact absurd (Option.some.inj hlast) hxy
  · have huv' : (u ++ p ++ v) ++ [z] = a ++ [x] := by simpa using huv
    exact ⟨u, v, (List.append_inj' huv' rfl).1⟩

theorem eq_of_closed {u v x : List σ} {g : σ} (hu : g ∉ u) (hv : g ∉ v)
    (h : u ++ [g] <+: v ++ g :: x) : u = v := by
  induction u generalizing v with
  | nil =>
    cases v with
    | nil => rfl
    | cons y v => exact absurd (List.cons_prefix_cons.mp h).1 (fun hy => hv (by simp [hy]))
  | cons y u ih =>
    cases v with
    | nil => exact absurd (List.cons_prefix_cons.mp h).1 (fun hy => hu (by simp [hy]))
    | cons z v =>
      obtain ⟨hyz, htail⟩ := List.cons_prefix_cons.mp h
      have huv : u = v := ih (fun hm => hu (by simp [hm])) (fun hm => hv (by simp [hm])) htail
      rw [hyz, huv]

def replaceFuel (find : List σ → Option (List σ × List σ × List σ)) (repl : List σ → List σ) :
    ℕ → List σ → List σ
  | 0, xs => xs
  | n + 1, xs =>
    match find xs with
    | none => xs
    | some (pre, m, post) => pre ++ repl m ++ replaceFuel find repl n post

/-- Replaces the matches from left to right. A match is not empty, so there are never more of
them than symbols. -/
def replaceAll (find : List σ → Option (List σ × List σ × List σ)) (repl : List σ → List σ)
    (xs : List σ) : List σ := replaceFuel find repl (xs.length + 1) xs

section Replace

variable {find : List σ → Option (List σ × List σ × List σ)} {repl : List σ → List σ}

variable {xs : List σ}

theorem replaceFuel_eq
    (hfind : ∀ xs pre m post, find xs = some (pre, m, post) → post.length < xs.length) {n k : ℕ}
    (hn : xs.length < n) (hk : xs.length < k) :
    replaceFuel find repl n xs = replaceFuel find repl k xs := by
  induction n generalizing xs k with
  | zero => omega
  | succ n ih =>
    cases k with
    | zero => omega
    | succ k =>
      unfold replaceFuel
      split
      · rfl
      · rename_i pre m post hf
        have hlt := hfind xs pre m post hf
        rw [ih (by omega : post.length < n) (by omega : post.length < k)]

theorem replaceAll_of_none (h : find xs = none) : replaceAll find repl xs = xs := by
  simp [replaceAll, replaceFuel, h]

theorem replaceAll_of_some
    (hfind : ∀ xs pre m post, find xs = some (pre, m, post) → post.length < xs.length)
    {pre m post : List σ} (h : find xs = some (pre, m, post)) :
    replaceAll find repl xs = pre ++ repl m ++ replaceAll find repl post := by
  have hlt := hfind xs pre m post h
  have hfuel :
      replaceFuel find repl xs.length post = replaceFuel find repl (post.length + 1) post :=
    replaceFuel_eq hfind hlt (Nat.lt_succ_self post.length)
  have hx : replaceAll find repl xs = pre ++ repl m ++ replaceFuel find repl xs.length post := by
    simp [replaceAll, replaceFuel, h]
  rw [hx, hfuel]
  rfl

end Replace

variable [DecidableEq σ]

def cut (pat : List σ) : List σ → Option (List σ × List σ)
  | [] => if pat = [] then some ([], []) else none
  | x :: xs =>
    if pat <+: x :: xs then some ([], (x :: xs).drop pat.length)
    else (cut pat xs).map (fun r => (x :: r.1, r.2))

theorem cut_eq_none (h : ¬ pat <:+: xs) : cut pat xs = none := by
  induction xs with
  | nil =>
    have hp : pat ≠ [] := by
      rintro rfl
      exact h List.nil_infix
    simp [cut, hp]
  | cons x xs ih =>
    have hpre : ¬ pat <+: x :: xs := fun hp => h hp.isInfix
    simp [cut, hpre, ih (fun hi => h (List.infix_cons hi))]

theorem cut_append (hp : pat ≠ []) (h : ¬ pat <:+: a ++ pat.dropLast) (b : List σ) :
    cut pat (a ++ pat ++ b) = some (a, b) := by
  induction a with
  | nil =>
    obtain ⟨c, t, rfl⟩ := List.exists_cons_of_ne_nil hp
    simp [cut]
  | cons x a ih =>
    have hpre : ¬ pat <+: x :: (a ++ pat ++ b) := by
      intro hpre
      have hlen : pat.length ≤ (x :: a ++ pat.dropLast).length := by
        simp
        omega
      have hlong : x :: a ++ pat.dropLast <+: x :: (a ++ pat ++ b) := by
        refine List.cons_prefix_cons.mpr ⟨rfl, ?_⟩
        rw [List.append_assoc]
        exact (List.prefix_append_right_inj a).mpr
          ((List.dropLast_prefix pat).trans (List.prefix_append pat b))
      exact h (List.prefix_of_prefix_length_le hpre hlong hlen).isInfix
    have htail := ih (fun hi => h (List.infix_cons hi))
    change cut pat (x :: (a ++ pat ++ b)) = _
    simp only [cut, hpre, if_false, htail, Option.map_some]

theorem cut_marker (hc : c ∉ t) (h : ¬ c :: t <:+: a) (b : List σ) :
    cut (c :: t) (a ++ (c :: t) ++ b) = some (a, b) := by
  refine cut_append (List.cons_ne_nil c t) (fun hi => ?_) b
  cases t with
  | nil => exact h (by simpa using hi)
  | cons d t =>
    obtain hi | hi := infix_append_cons hc hi
    · exact h hi
    · exact absurd hi.length_le (by simp)

theorem eq_of_cut (h : cut pat xs = some (a, b)) : xs = a ++ pat ++ b := by
  induction xs generalizing a with
  | nil =>
    unfold cut at h
    split at h
    · cases h
      simp [*]
    · simp at h
  | cons x xs ih =>
    unfold cut at h
    split at h
    · rename_i hpre
      cases h
      exact (List.prefix_iff_eq_append.mp hpre).symm
    · obtain ⟨⟨a', b'⟩, hr, hab⟩ := Option.map_eq_some_iff.mp h
      cases hab
      simp [ih hr]

theorem exists_cut (h : pat <:+: xs) : ∃ a b, cut pat xs = some (a, b) := by
  induction xs with
  | nil =>
    obtain rfl := List.infix_nil.mp h
    exact ⟨[], [], rfl⟩
  | cons x xs ih =>
    unfold cut
    split
    · exact ⟨_, _, rfl⟩
    · rename_i hpre
      obtain ⟨a, b, hab⟩ := ih ((List.infix_cons_iff.mp h).resolve_left hpre)
      exact ⟨x :: a, b, by rw [hab]; rfl⟩

theorem cut_length_le {a' b' : List σ} (h : cut pat xs = some (a, b)) (h' : xs = a' ++ pat ++ b') :
    a.length ≤ a'.length := by
  induction xs generalizing a a' with
  | nil =>
    unfold cut at h
    split at h <;> cases h
    exact Nat.zero_le _
  | cons x xs ih =>
    unfold cut at h
    split at h
    · cases h
      exact Nat.zero_le _
    · rename_i hpre
      obtain ⟨⟨a₁, b₁⟩, hr, hab⟩ := Option.map_eq_some_iff.mp h
      cases hab
      cases a' with
      | nil => exact absurd ⟨b', h'.symm⟩ hpre
      | cons y a' =>
        have htail : xs = a' ++ pat ++ b' := by simpa using (List.cons.inj h').2
        exact Nat.succ_le_succ (ih hr htail)

theorem not_infix_of_cut (hp : pat ≠ []) (h : cut pat xs = some (a, b)) : ¬ pat <:+: a := by
  rintro ⟨u, v, rfl⟩
  have hxs : xs = u ++ pat ++ (v ++ pat ++ b) := by simpa using eq_of_cut h
  have hle := cut_length_le h hxs
  have := List.length_pos_iff.mpr hp
  simp only [List.length_append] at hle
  omega

theorem not_mem_of_cut (h : cut [c] xs = some (a, b)) : c ∉ a := by
  induction xs generalizing a with
  | nil => simp [cut] at h
  | cons x xs ih =>
    unfold cut at h
    split at h
    · cases h
      exact List.not_mem_nil
    · rename_i hpre
      obtain ⟨⟨a', b'⟩, hr, hab⟩ := Option.map_eq_some_iff.mp h
      cases hab
      intro hm
      obtain rfl | hm := List.mem_cons.mp hm
      · exact hpre (List.cons_prefix_cons.mpr ⟨rfl, List.nil_prefix⟩)
      · exact ih hr hm

def cutPrefix (pre xs : List σ) : Option (List σ) :=
  if pre <+: xs then some (xs.drop pre.length) else none

def trimPrefix (pre xs : List σ) : List σ := (cutPrefix pre xs).getD xs

@[simp] theorem cutPrefix_append (pre xs : List σ) : cutPrefix pre (pre ++ xs) = some xs := by
  simp [cutPrefix]

theorem cutPrefix_eq_some_iff {rest : List σ} :
    cutPrefix pre xs = some rest ↔ xs = pre ++ rest := by
  constructor
  · intro h
    unfold cutPrefix at h
    split at h
    · rename_i hp
      obtain ⟨t, rfl⟩ := hp
      simpa [eq_comm] using h
    · cases h
  · rintro rfl
    exact cutPrefix_append pre rest

@[simp] theorem trimPrefix_append (pre xs : List σ) : trimPrefix pre (pre ++ xs) = xs := by
  simp [trimPrefix]

/-- The leftmost stretch from one mark to the next occurrence of another, with the newline that
may follow it; before and after it, the rest. -/
def findRegion (b e : List σ) (nl : σ) (xs : List σ) : Option (List σ × List σ × List σ) :=
  match cut b xs with
  | none => none
  | some (pre, rest) =>
    match cut e rest with
    | none => none
    | some (mid, post) =>
      if post.head? = some nl then some (pre, b ++ mid ++ e ++ [nl], post.tail)
      else some (pre, b ++ mid ++ e, post)

theorem eq_of_findRegion {e : List σ} {nl : σ} {m post : List σ}
    (h : findRegion b e nl xs = some (pre, m, post)) : xs = pre ++ m ++ post ∧ b <+: m := by
  unfold findRegion at h
  split at h
  · simp at h
  · rename_i pre' rest hb
    split at h
    · simp at h
    · rename_i mid post' he
      have hxs := eq_of_cut hb
      have hrest := eq_of_cut he
      split at h
      · rename_i hnl
        obtain ⟨y, hy⟩ := List.head?_eq_some_iff.mp hnl
        cases h
        exact ⟨by simp [hxs, hrest, hy], by simp⟩
      · cases h
        exact ⟨by simp [hxs, hrest], by simp⟩

theorem findRegion_shorter {e : List σ} {nl : σ} (hb : b ≠ []) (xs pre m post : List σ)
    (h : findRegion b e nl xs = some (pre, m, post)) : post.length < xs.length := by
  obtain ⟨hxs, hbm⟩ := eq_of_findRegion h
  have := hbm.length_le
  have := List.length_pos_iff.mpr hb
  simp [hxs]
  omega

end AchProofs.Foundation.Search
