import Mathlib

namespace AchProofs.Foundation.Regex

/-- Regular expressions over sets of letters that have a name. -/
inductive Re (A : Type) where
  | empty
  | atom (a : A)
  | start
  | finish
  | seq (r t : Re A)
  | alt (r t : Re A)
  | rep (r : Re A) (low : ℕ) (high : Option ℕ)
  deriving DecidableEq, Repr

section Times

variable (R : ℕ → ℕ → Prop)

/-- So many steps lead from one place to the other. -/
def Times : ℕ → ℕ → ℕ → Prop
  | 0, i, j => i = j
  | n + 1, i, j => ∃ k, R i k ∧ Times n k j

variable {R}

theorem times_add {m n i k j : ℕ} (h : Times R m i k) (h' : Times R n k j) :
    Times R (m + n) i j := by
  induction m generalizing i with
  | zero =>
    obtain rfl : i = k := h
    rwa [Nat.zero_add]
  | succ m ih =>
    obtain ⟨l, hl, hm⟩ := h
    rw [Nat.add_right_comm]
    exact ⟨l, hl, ih hm⟩

theorem exists_of_times_add {m n i j : ℕ} (h : Times R (m + n) i j) :
    ∃ k, Times R m i k ∧ Times R n k j := by
  induction m generalizing i with
  | zero => exact ⟨i, rfl, by rwa [Nat.zero_add] at h⟩
  | succ m ih =>
    rw [Nat.add_right_comm] at h
    obtain ⟨l, hl, hm⟩ := h
    obtain ⟨k, hk, hn⟩ := ih hm
    exact ⟨k, ⟨l, hl, hk⟩, hn⟩

theorem times_short (hR : ∀ i j, R i j → i ≤ j) {n i j : ℕ} (h : Times R n i j) :
    i ≤ j ∧ ∃ m ≤ j - i, Times R m i j := by
  induction n generalizing i with
  | zero =>
    obtain rfl : i = j := h
    exact ⟨Nat.le_refl i, 0, Nat.zero_le _, rfl⟩
  | succ n ih =>
    obtain ⟨k, hk, hn⟩ := h
    obtain ⟨hkj, m, hm, hm'⟩ := ih hn
    have hik := hR i k hk
    refine ⟨Nat.le_trans hik hkj, ?_⟩
    by_cases heq : i = k
    · subst heq
      exact ⟨m, hm, hm'⟩
    · exact ⟨m + 1, by omega, k, hk, hm'⟩

end Times

variable {A C : Type} (sat : A → C → Bool) (s : List C)

def Matches : Re A → ℕ → ℕ → Prop
  | .empty, i, j => i = j
  | .atom a, i, j => (∃ c, s[i]? = some c ∧ sat a c = true) ∧ j = i + 1
  | .start, i, j => i = 0 ∧ j = 0
  | .finish, i, j => i = s.length ∧ j = s.length
  | .seq r t, i, j => ∃ k, Matches r i k ∧ Matches t k j
  | .alt r t, i, j => Matches r i j ∨ Matches t i j
  | .rep r low high, i, j =>
    ∃ n, low ≤ n ∧ (∀ m, high = some m → n ≤ m) ∧ Times (Matches r) n i j

section Ends

def exactly (f : ℕ → List ℕ) : ℕ → ℕ → List ℕ
  | 0, i => [i]
  | n + 1, i => (f i).flatMap (exactly f n)

def upTo (f : ℕ → List ℕ) : ℕ → ℕ → List ℕ
  | 0, i => [i]
  | n + 1, i => i :: (f i).flatMap (upTo f n)

def ends : Re A → ℕ → List ℕ
  | .empty, i => [i]
  | .atom a, i => if (s[i]?).any (sat a) then [i + 1] else []
  | .start, i => if i = 0 then [0] else []
  | .finish, i => if i = s.length then [i] else []
  | .seq r t, i => (ends r i).flatMap (ends t)
  | .alt r t, i => ends r i ++ ends t i
  | .rep r low none, i => (exactly (ends r) low i).flatMap (upTo (ends r) s.length)
  | .rep r low (some high), i =>
    if low ≤ high then (exactly (ends r) low i).flatMap (upTo (ends r) (high - low)) else []

def matchString (r : Re A) : Bool :=
  (List.range (s.length + 1)).any (fun i => !(ends sat s r i).isEmpty)

variable {f : ℕ → List ℕ} {R : ℕ → ℕ → Prop}

theorem mem_exactly (hf : ∀ i j, j ∈ f i ↔ R i j) {n i j : ℕ} :
    j ∈ exactly f n i ↔ Times R n i j := by
  induction n generalizing i with
  | zero =>
    rw [exactly, List.mem_singleton]
    exact eq_comm
  | succ n ih =>
    rw [exactly, List.mem_flatMap]
    exact exists_congr fun k => and_congr (hf i k) ih

theorem mem_upTo (hf : ∀ i j, j ∈ f i ↔ R i j) {n i j : ℕ} :
    j ∈ upTo f n i ↔ ∃ m ≤ n, Times R m i j := by
  induction n generalizing i with
  | zero =>
    rw [upTo, List.mem_singleton]
    constructor
    · rintro rfl
      exact ⟨0, Nat.le_refl 0, rfl⟩
    · rintro ⟨m, hm, h⟩
      obtain rfl := Nat.le_zero.mp hm
      exact Eq.symm h
  | succ n ih =>
    rw [upTo, List.mem_cons, List.mem_flatMap]
    constructor
    · rintro (rfl | ⟨k, hk, h⟩)
      · exact ⟨0, Nat.zero_le _, rfl⟩
      · obtain ⟨m, hm, hm'⟩ := ih.mp h
        exact ⟨m + 1, Nat.succ_le_succ hm, k, (hf i k).mp hk, hm'⟩
    · rintro ⟨m, hm, h⟩
      cases m with
      | zero => exact .inl (Eq.symm h)
      | succ m =>
        obtain ⟨k, hk, hm'⟩ := h
        exact .inr ⟨k, (hf i k).mpr hk, ih.mpr ⟨m, Nat.le_of_succ_le_succ hm, hm'⟩⟩

end Ends

variable {sat s}

def Within (R : ℕ → ℕ → Prop) (l : ℕ) : Prop := ∀ i j, R i j → i ≤ j ∧ (j = i ∨ j ≤ l)

theorem within_times {R : ℕ → ℕ → Prop} {l : ℕ} (hR : Within R l) (n : ℕ) :
    Within (Times R n) l := by
  induction n with
  | zero =>
    intro i j h
    obtain rfl : i = j := h
    exact ⟨Nat.le_refl i, .inl rfl⟩
  | succ n ih =>
    rintro i j ⟨k, hk, hn⟩
    have hik := hR i k hk
    have hkj := ih k j hn
    omega

theorem within_matches (r : Re A) : Within (Matches sat s r) s.length := by
  induction r with
  | empty =>
    intro i j h
    obtain rfl : i = j := h
    exact ⟨Nat.le_refl i, .inl rfl⟩
  | atom a =>
    rintro i j ⟨⟨c, hc, -⟩, rfl⟩
    obtain ⟨hlt, -⟩ := List.getElem?_eq_some_iff.mp hc
    exact ⟨Nat.le_succ i, .inr hlt⟩
  | start =>
    rintro i j ⟨rfl, rfl⟩
    exact ⟨Nat.le_refl 0, .inl rfl⟩
  | finish =>
    rintro i j ⟨rfl, rfl⟩
    exact ⟨Nat.le_refl _, .inl rfl⟩
  | seq r t ihr iht =>
    rintro i j ⟨k, hr, ht⟩
    have hik := ihr i k hr
    have hkj := iht k j ht
    omega
  | alt r t ihr iht =>
    rintro i j (hr | ht)
    · exact ihr i j hr
    · exact iht i j ht
  | rep r low high ih =>
    rintro i j ⟨n, -, -, hn⟩
    exact within_times ih n i j hn

theorem exists_times_le {R : ℕ → ℕ → Prop} {l : ℕ} (hR : Within R l) {low i j : ℕ} :
    (∃ n, low ≤ n ∧ Times R n i j) ↔ ∃ k, Times R low i k ∧ ∃ m ≤ l, Times R m k j := by
  constructor
  · rintro ⟨n, hlow, hn⟩
    rw [← Nat.add_sub_cancel' hlow] at hn
    obtain ⟨k, hk, hrest⟩ := exists_of_times_add hn
    obtain ⟨hkj, m, hm, hm'⟩ := times_short (fun i j h => (hR i j h).1) hrest
    have hend := within_times hR _ k j hrest
    exact ⟨k, hk, m, by omega, hm'⟩
  · rintro ⟨k, hk, m, -, hm⟩
    exact ⟨low + m, Nat.le_add_right low m, times_add hk hm⟩

theorem exists_times_between {R : ℕ → ℕ → Prop} {low high i j : ℕ} (h : low ≤ high) :
    (∃ n, low ≤ n ∧ n ≤ high ∧ Times R n i j) ↔
      ∃ k, Times R low i k ∧ ∃ m ≤ high - low, Times R m k j := by
  constructor
  · rintro ⟨n, hlow, hhigh, hn⟩
    rw [← Nat.add_sub_cancel' hlow] at hn
    obtain ⟨k, hk, hrest⟩ := exists_of_times_add hn
    exact ⟨k, hk, n - low, Nat.sub_le_sub_right hhigh low, hrest⟩
  · rintro ⟨k, hk, m, hm, hm'⟩
    exact ⟨low + m, Nat.le_add_right low m, by omega, times_add hk hm'⟩

theorem mem_ends_iff {r : Re A} {i j : ℕ} : j ∈ ends sat s r i ↔ Matches sat s r i j := by
  induction r generalizing i j with
  | empty =>
    rw [ends, List.mem_singleton]
    exact eq_comm
  | atom a =>
    have hany : (s[i]?).any (sat a) = true ↔ ∃ c, s[i]? = some c ∧ sat a c = true := by
      cases s[i]? <;> simp
    rw [ends, Matches, ← hany]
    split_ifs with h
    · simp [h]
    · simp [h]
  | start =>
    rw [ends, Matches]
    split_ifs with h
    · simp [h]
    · simp [h]
  | finish =>
    rw [ends, Matches]
    split_ifs with h
    · simp [h]
    · simp [h]
  | seq r t ihr iht =>
    rw [ends, List.mem_flatMap]
    exact exists_congr fun k => and_congr ihr iht
  | alt r t ihr iht =>
    rw [ends, List.mem_append]
    exact or_congr ihr iht
  | rep r low high ih =>
    have hexact : ∀ n i j, j ∈ exactly (ends sat s r) n i ↔ Times (Matches sat s r) n i j :=
      fun n i j => mem_exactly fun _ _ => ih
    have hupTo : ∀ n i j, j ∈ upTo (ends sat s r) n i ↔
        ∃ m ≤ n, Times (Matches sat s r) m i j := fun n i j => mem_upTo fun _ _ => ih
    cases high with
    | none =>
      rw [ends, List.mem_flatMap]
      simp only [hexact, hupTo, ← exists_times_le (within_matches r), Matches, reduceCtorEq,
        false_imp_iff, implies_true, true_and]
    | some high =>
      simp only [ends, Matches, Option.some.injEq, forall_eq']
      split_ifs with h
      · rw [List.mem_flatMap]
        simp only [hexact, hupTo, ← exists_times_between h]
      · constructor
        · exact fun hmem => absurd hmem List.not_mem_nil
        · rintro ⟨n, hlow, hhigh, -⟩
          exact absurd (Nat.le_trans hlow hhigh) h

theorem ends_ne_nil_iff {r : Re A} {i : ℕ} :
    (!(ends sat s r i).isEmpty) = true ↔ ∃ j, Matches sat s r i j := by
  cases h : ends sat s r i with
  | nil =>
    constructor
    · exact fun hne => (nomatch hne)
    · rintro ⟨j, hj⟩
      rw [← mem_ends_iff, h] at hj
      exact absurd hj List.not_mem_nil
  | cons j js =>
    have hj : j ∈ ends sat s r i := h ▸ List.mem_cons_self
    exact ⟨fun _ => ⟨j, mem_ends_iff.mp hj⟩, fun _ => rfl⟩

theorem matchString_iff {r : Re A} :
    matchString sat s r = true ↔ ∃ i ≤ s.length, ∃ j, Matches sat s r i j := by
  rw [matchString, List.any_eq_true]
  exact exists_congr fun i => and_congr (List.mem_range.trans Nat.lt_succ_iff) ends_ne_nil_iff

end AchProofs.Foundation.Regex
