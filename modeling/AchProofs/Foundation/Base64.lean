import AchProofs.Foundation.Percent

namespace AchProofs.Foundation.Base64

open Foundation.Percent

def symbol (i : Fin 64) : UInt8 :=
  if i < 26 then UInt8.ofNat (0x41 + i)
  else if i < 52 then UInt8.ofNat (0x61 + (i - 26))
  else if i < 62 then UInt8.ofNat (0x30 + (i - 52))
  else if i = 62 then 0x2d
  else 0x5f

def value (b : UInt8) : Option (Fin 64) := (List.finRange 64).find? (fun i => symbol i = b)

/-- Three bytes are four groups of six bits. A shorter tail is filled up with zero bits. -/
def sextets : Bytes → List (Fin 64)
  | [] => []
  | [a] => [⟨a.toNat / 4, by have := a.toNat_lt; omega⟩, ⟨a.toNat % 4 * 16, by omega⟩]
  | [a, b] =>
    [⟨a.toNat / 4, by have := a.toNat_lt; omega⟩,
      ⟨a.toNat % 4 * 16 + b.toNat / 16, by have := b.toNat_lt; omega⟩,
      ⟨b.toNat % 16 * 4, by omega⟩]
  | a :: b :: c :: rest =>
    ⟨a.toNat / 4, by have := a.toNat_lt; omega⟩ ::
      ⟨a.toNat % 4 * 16 + b.toNat / 16, by have := b.toNat_lt; omega⟩ ::
      ⟨b.toNat % 16 * 4 + c.toNat / 64, by have := c.toNat_lt; omega⟩ ::
      ⟨c.toNat % 64, by omega⟩ :: sextets rest

/-- The bits that a shorter tail was filled up with are not looked at. -/
def octets : List (Fin 64) → Option Bytes
  | [] => some []
  | [_] => none
  | [s, t] => some [UInt8.ofNat (s * 4 + t / 16)]
  | [s, t, u] => some [UInt8.ofNat (s * 4 + t / 16), UInt8.ofNat (t % 16 * 16 + u / 4)]
  | s :: t :: u :: v :: rest =>
    (octets rest).map fun bs =>
      UInt8.ofNat (s * 4 + t / 16) :: UInt8.ofNat (t % 16 * 16 + u / 4) ::
        UInt8.ofNat (u % 4 * 64 + v) :: bs

def encode (bs : Bytes) : Bytes := (sextets bs).map symbol

def lineEnd (b : UInt8) : Bool := b = 0x0d || b = 0x0a

/-- Unpadded, and not strict: line ends are skipped. -/
def decode (cs : Bytes) : Option Bytes :=
  ((cs.filter (fun b => !lineEnd b)).mapM value).bind octets

theorem value_symbol : ∀ i, value (symbol i) = some i := by decide +kernel

theorem lineEnd_symbol : ∀ i, lineEnd (symbol i) = false := by decide +kernel

theorem symbol_ne {b : UInt8} (h : value b = none) (i : Fin 64) : symbol i ≠ b := by
  intro he
  have hi := value_symbol i
  rw [he, h] at hi
  cases hi

theorem ofNat_eq {b : UInt8} {n : ℕ} (h : n = b.toNat) : UInt8.ofNat n = b := by
  rw [h, UInt8.ofNat_toNat]

theorem octets_sextets (bs : Bytes) : octets (sextets bs) = some bs := by
  induction bs using sextets.induct with
  | case1 => rfl
  | case2 a =>
    have ha : UInt8.ofNat (a.toNat / 4 * 4 + a.toNat % 4 * 16 / 16) = a := ofNat_eq (by omega)
    simp only [sextets, octets, ha]
  | case3 a b =>
    have hb := b.toNat_lt
    have ha : UInt8.ofNat (a.toNat / 4 * 4 + (a.toNat % 4 * 16 + b.toNat / 16) / 16) = a :=
      ofNat_eq (by omega)
    have hb :
        UInt8.ofNat ((a.toNat % 4 * 16 + b.toNat / 16) % 16 * 16 + b.toNat % 16 * 4 / 4) = b :=
      ofNat_eq (by omega)
    simp only [sextets, octets, ha, hb]
  | case4 a b c rest ih =>
    have hb := b.toNat_lt
    have hc := c.toNat_lt
    have ha : UInt8.ofNat (a.toNat / 4 * 4 + (a.toNat % 4 * 16 + b.toNat / 16) / 16) = a :=
      ofNat_eq (by omega)
    have hb : UInt8.ofNat ((a.toNat % 4 * 16 + b.toNat / 16) % 16 * 16 +
        (b.toNat % 16 * 4 + c.toNat / 64) / 4) = b := ofNat_eq (by omega)
    have hc : UInt8.ofNat ((b.toNat % 16 * 4 + c.toNat / 64) % 4 * 64 + c.toNat % 64) = c :=
      ofNat_eq (by omega)
    simp only [sextets, octets, ih, Option.map_some, ha, hb, hc]

theorem mapM_value (is : List (Fin 64)) : (is.map symbol).mapM value = some is := by
  induction is with
  | nil => rfl
  | cons i is ih => simp [List.mapM_cons, value_symbol, ih]

theorem decode_encode (bs : Bytes) : decode (encode bs) = some bs := by
  have hkeep : (encode bs).filter (fun b => !lineEnd b) = encode bs := by
    refine List.filter_eq_self.mpr fun b hb => ?_
    obtain ⟨i, -, rfl⟩ := List.mem_map.mp hb
    rw [lineEnd_symbol]
    rfl
  unfold decode
  rw [hkeep, encode, mapM_value, Option.bind_some, octets_sextets]

theorem not_mem_encode {b : UInt8} (h : value b = none) (bs : Bytes) : b ∉ encode bs := by
  intro hm
  obtain ⟨i, -, hi⟩ := List.mem_map.mp hm
  exact symbol_ne h i hi

end AchProofs.Foundation.Base64
