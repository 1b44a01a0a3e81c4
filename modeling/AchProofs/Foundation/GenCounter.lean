import Mathlib

namespace AchProofs.Foundation

/-- A counter with a time to live: once expired it reads zero and restarts from zero. The number of
moves it ever made is kept beside it. -/
structure GenCounter where
  now : ℕ
  value : ℕ
  expires : ℕ
  moves : ℕ

/-- What a stamp remembers of the counter it was read from. -/
structure Stamp where
  gen : ℕ
  moves : ℕ

namespace GenCounter

def live (c : GenCounter) : Prop := c.now < c.expires

instance (c : GenCounter) : Decidable c.live := inferInstanceAs (Decidable (_ < _))

def read (c : GenCounter) : ℕ := if c.live then c.value else 0

def slide (ttl : ℕ) (c : GenCounter) : GenCounter :=
  if c.live then { c with expires := c.now + ttl } else c

def move (ttl : ℕ) (c : GenCounter) : GenCounter :=
  { c with value := c.read + 1, expires := c.now + ttl, moves := c.moves + 1 }

def wait (d : ℕ) (c : GenCounter) : GenCounter := { c with now := c.now + d }

def stamp (c : GenCounter) : Stamp := ⟨c.read, c.moves⟩

/-- A stamp good until a time is told apart, until that time, from every later generation: the
counter outlives it, and is ahead of it if it moved since; if the counter is gone, it has not. -/
structure Covers (ttl : ℕ) (c : GenCounter) (st : Stamp) (until_ : ℕ) : Prop where
  within : until_ ≤ c.now + ttl
  moves_le : st.moves ≤ c.moves
  outlived : c.live → until_ ≤ c.expires
  gen_le : st.gen ≤ c.read
  ahead : st.moves < c.moves → st.gen < c.read

variable {ttl : ℕ} {c : GenCounter} {st : Stamp} {t t' : ℕ}

@[simp] theorem slide_now : (slide ttl c).now = c.now := by
  unfold slide
  split <;> rfl

@[simp] theorem slide_moves : (slide ttl c).moves = c.moves := by
  unfold slide
  split <;> rfl

theorem slide_of_live (h : c.live) : slide ttl c = { c with expires := c.now + ttl } := if_pos h

theorem slide_of_not_live (h : ¬ c.live) : slide ttl c = c := if_neg h

theorem read_of_live (h : c.live) : c.read = c.value := if_pos h

theorem read_slide (ht : 0 < ttl) : (slide ttl c).read = c.read := by
  by_cases h : c.live
  · have h' : (slide ttl c).live := by
      rw [slide_of_live h]
      exact Nat.lt_add_of_pos_right ht
    rw [read_of_live h', read_of_live h, slide_of_live h]
  · rw [slide_of_not_live h]

theorem Covers.mono (h : Covers ttl c st t) (hle : t' ≤ t) : Covers ttl c st t' :=
  ⟨Nat.le_trans hle h.within, h.moves_le, fun hl => Nat.le_trans hle (h.outlived hl), h.gen_le,
    h.ahead⟩

theorem Covers.current (h : Covers ttl c st t) (hr : c.read = st.gen) : st.moves = c.moves := by
  by_contra hne
  have := h.ahead (Nat.lt_of_le_of_ne h.moves_le hne)
  omega

theorem Covers.extend (h : Covers ttl c st t) (hw : t' ≤ c.now + ttl)
    (hl : c.live → t' ≤ c.expires) : Covers ttl c st t' :=
  ⟨hw, h.moves_le, hl, h.gen_le, h.ahead⟩

theorem Covers.slide (h : Covers ttl c st t) (ht : 0 < ttl) (hw : t' ≤ c.now + ttl) :
    Covers ttl (slide ttl c) st t' := by
  refine ⟨by simpa using hw, by simpa using h.moves_le, fun hl => ?_, ?_, ?_⟩
  · by_cases hc : c.live
    · rw [slide_of_live hc]
      exact hw
    · rw [slide_of_not_live hc] at hl
      exact absurd hl hc
  · rw [read_slide ht]
    exact h.gen_le
  · rw [read_slide ht, slide_moves]
    exact h.ahead

theorem covers_stamp (ht : 0 < ttl) (hw : t ≤ c.now + ttl) :
    Covers ttl (slide ttl c) c.stamp t := by
  refine ⟨by simpa using hw, by simp [stamp], fun hl => ?_, ?_, ?_⟩
  · by_cases hc : c.live
    · rw [slide_of_live hc]
      exact hw
    · rw [slide_of_not_live hc] at hl
      exact absurd hl hc
  · rw [read_slide ht]
    exact Nat.le_refl _
  · intro hlt
    rw [slide_moves] at hlt
    exact absurd hlt (Nat.lt_irrefl _)

theorem read_move (ht : 0 < ttl) : (move ttl c).read = c.read + 1 :=
  read_of_live (Nat.lt_add_of_pos_right ht)

theorem Covers.move (h : Covers ttl c st t) (ht : 0 < ttl) : Covers ttl (move ttl c) st t := by
  have hlt : st.gen < (GenCounter.move ttl c).read := by
    rw [read_move ht]
    exact Nat.lt_succ_of_le h.gen_le
  exact ⟨h.within, Nat.le_succ_of_le h.moves_le, fun _ => h.within, Nat.le_of_lt hlt,
    fun _ => hlt⟩

theorem Covers.wait (h : Covers ttl c st t) {d : ℕ} (hd : c.now + d < t) :
    Covers ttl (wait d c) st t := by
  have hlive : (GenCounter.wait d c).live ↔ c.live := by
    constructor
    · exact fun hl => Nat.lt_of_le_of_lt (Nat.le_add_right _ d) hl
    · exact fun hl => Nat.lt_of_lt_of_le hd (h.outlived hl)
  have hread : (GenCounter.wait d c).read = c.read := by
    unfold read
    simp only [hlive]
    rfl
  refine ⟨?_, h.moves_le, fun hl => h.outlived (hlive.mp hl), ?_, ?_⟩
  · have := h.within
    simp only [GenCounter.wait]
    omega
  · rw [hread]
    exact h.gen_le
  · rw [hread]
    exact h.ahead

end GenCounter

end AchProofs.Foundation
