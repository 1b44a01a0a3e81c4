import AchProofs.Foundation.Percent
import AchProofs.Foundation.Search

namespace AchProofs.Foundation.Text

open Foundation.Percent Foundation.Search

instance lawfulBEq_bytes : LawfulBEq (List UInt8) := inferInstance

def comma : UInt8 := 0x2c

def spaces : List Bytes :=
  [[0x09], [0x0a], [0x0b], [0x0c], [0x0d], [0x20], [0xc2, 0x85], [0xc2, 0xa0],
    [0xe1, 0x9a, 0x80], [0xe2, 0x80, 0x80], [0xe2, 0x80, 0x81], [0xe2, 0x80, 0x82],
    [0xe2, 0x80, 0x83], [0xe2, 0x80, 0x84], [0xe2, 0x80, 0x85], [0xe2, 0x80, 0x86],
    [0xe2, 0x80, 0x87], [0xe2, 0x80, 0x88], [0xe2, 0x80, 0x89], [0xe2, 0x80, 0x8a],
    [0xe2, 0x80, 0xa8], [0xe2, 0x80, 0xa9], [0xe2, 0x80, 0xaf], [0xe2, 0x81, 0x9f],
    [0xe3, 0x80, 0x80]]

def trimFuel (chars : List Bytes) : ℕ → Bytes → Bytes
  | 0, s => s
  | n + 1, s =>
    match chars.findSome? (fun c => cutPrefix c s) with
    | some t => trimFuel chars n t
    | none => s

/-- Drops the given characters at the front. Each of them has a byte, so the length is enough. -/
def trimStart (chars : List Bytes) (s : Bytes) : Bytes := trimFuel chars s.length s

def trimSpace (s : Bytes) : Bytes :=
  (trimStart (spaces.map List.reverse) (trimStart spaces s).reverse).reverse

def lowerByte (b : UInt8) : UInt8 := if 0x41 ≤ b ∧ b ≤ 0x5a then b + 0x20 else b

def lowerAscii (s : Bytes) : Bytes := s.map lowerByte

theorem mem_trimFuel {chars : List Bytes} {b : UInt8} (hb : ∀ c ∈ chars, b ∉ c) (n : ℕ) {s : Bytes}
    (h : b ∈ s) : b ∈ trimFuel chars n s := by
  induction n generalizing s with
  | zero => exact h
  | succ n ih =>
    unfold trimFuel
    split
    · rename_i t ht
      obtain ⟨c, hc, hcut⟩ := List.exists_of_findSome?_eq_some ht
      rw [cutPrefix_eq_some_iff.mp hcut] at h
      exact ih ((List.mem_append.mp h).resolve_left (hb c hc))
    · exact h

theorem mem_trimSpace {b : UInt8} (hb : ∀ c ∈ spaces, b ∉ c) {s : Bytes} (h : b ∈ s) :
    b ∈ trimSpace s := by
  have hstart : b ∈ (trimStart spaces s).reverse := List.mem_reverse.mpr (mem_trimFuel hb _ h)
  have hrev : ∀ c ∈ spaces.map List.reverse, b ∉ c := by
    intro c hc hm
    obtain ⟨c', hc', rfl⟩ := List.mem_map.mp hc
    exact hb c' hc' (List.mem_reverse.mp hm)
  exact List.mem_reverse.mpr (mem_trimFuel hrev _ hstart)

theorem not_mem_of_mem_splitOn {c : UInt8} {s part : Bytes} (h : part ∈ s.splitOn c) :
    c ∉ part := by
  induction s generalizing part with
  | nil =>
    rw [List.splitOn_nil, List.mem_singleton] at h
    simp [h]
  | cons b s ih =>
    rw [List.splitOn, List.splitOnP_cons_eq_if_modifyHead] at h
    split at h
    · obtain rfl | h := List.mem_cons.mp h
      · simp
      · exact ih h
    · rename_i hb
      obtain ⟨x, xs, hx⟩ := List.exists_cons_of_ne_nil (List.splitOnP_ne_nil (· == c) s)
      have hpart : ∀ p ∈ x :: xs, c ∉ p := fun p hp => ih (by rw [List.splitOn, hx]; exact hp)
      rw [hx, List.modifyHead_cons] at h
      obtain rfl | h := List.mem_cons.mp h
      · intro hm
        obtain rfl | hm := List.mem_cons.mp hm
        · exact hb (beq_self_eq_true c)
        · exact hpart x (by simp) hm
      · exact hpart part (List.mem_cons_of_mem x h)

theorem mem_splitOn_intercalate_iff {c : UInt8} {ss : List Bytes} (hne : ss ≠ []) :
    (∀ t, t ∈ ([c].intercalate ss).splitOn c ↔ t ∈ ss) ↔ ∀ s ∈ ss, c ∉ s := by
  constructor
  · intro h s hs
    exact not_mem_of_mem_splitOn ((h s).mpr hs)
  · intro h t
    rw [List.splitOn_intercalate c h hne]

end AchProofs.Foundation.Text
