import AchProofs.Foundation.Percent

namespace AchProofs.Foundation.Timestamp

open Foundation.Percent

/-- A moment, as the fields of its date and time of day in UTC. -/
structure Civil where
  year : ℕ
  month : ℕ
  day : ℕ
  hour : ℕ
  minute : ℕ
  second : ℕ
  nanosecond : ℕ
  deriving DecidableEq, Repr

namespace Civil

def fields (t : Civil) : ℕ ×ₗ ℕ ×ₗ ℕ ×ₗ ℕ ×ₗ ℕ ×ₗ ℕ ×ₗ ℕ :=
  toLex (t.year, toLex (t.month, toLex (t.day, toLex (t.hour, toLex (t.minute,
    toLex (t.second, t.nanosecond))))))

theorem fields_injective : Function.Injective fields := by
  rintro ⟨y, mo, d, h, mi, s, n⟩ ⟨y', mo', d', h', mi', s', n'⟩ he
  simpa [fields] using he

/-- Earlier is less. -/
instance : LinearOrder Civil := LinearOrder.lift' fields fields_injective

def isLeap (year : ℕ) : Bool := year % 4 = 0 && (year % 100 ≠ 0 || year % 400 = 0)

def daysIn (year month : ℕ) : ℕ :=
  if month = 2 then if isLeap year then 29 else 28
  else if month = 4 ∨ month = 6 ∨ month = 9 ∨ month = 11 then 30
  else 31

def nextDay (t : Civil) : Civil :=
  if t.day < daysIn t.year t.month then { t with day := t.day + 1 }
  else if t.month < 12 then { t with month := t.month + 1, day := 1 }
  else { t with year := t.year + 1, month := 1, day := 1 }

def addDays (n : ℕ) (t : Civil) : Civil := nextDay^[n] t

structure Valid (t : Civil) : Prop where
  month : 1 ≤ t.month ∧ t.month ≤ 12
  day : 1 ≤ t.day ∧ t.day ≤ daysIn t.year t.month
  hour : t.hour < 24
  minute : t.minute < 60
  second : t.second < 60
  nanosecond : t.nanosecond < 10 ^ 9

instance (t : Civil) : Decidable t.Valid :=
  decidable_of_iff ((1 ≤ t.month ∧ t.month ≤ 12) ∧ (1 ≤ t.day ∧ t.day ≤ daysIn t.year t.month) ∧
    t.hour < 24 ∧ t.minute < 60 ∧ t.second < 60 ∧ t.nanosecond < 10 ^ 9)
    ⟨fun ⟨a, b, c, d, e, f⟩ => ⟨a, b, c, d, e, f⟩, fun ⟨a, b, c, d, e, f⟩ => ⟨a, b, c, d, e, f⟩⟩

end Civil

section Digits

def digit (n : ℕ) : UInt8 := UInt8.ofNat (0x30 + n)

def digitValue (b : UInt8) : Option ℕ :=
  if 0x30 ≤ b ∧ b ≤ 0x39 then some (b.toNat - 0x30) else none

def digits : ℕ → ℕ → Bytes
  | 0, _ => []
  | w + 1, n => digit (n / 10 ^ w % 10) :: digits w n

def readDigits : ℕ → ℕ → Bytes → Option (ℕ × Bytes)
  | 0, acc, s => some (acc, s)
  | _ + 1, _, [] => none
  | w + 1, acc, b :: s => (digitValue b).bind fun d => readDigits w (10 * acc + d) s

def fraction : ℕ → ℕ → Bytes
  | 0, _ => []
  | w + 1, n => if n % 10 ^ (w + 1) = 0 then [] else digit (n / 10 ^ w % 10) :: fraction w n

/-- Reads what digits there are. Those beyond the precision do not count. -/
def readFraction : ℕ → Bytes → ℕ × Bytes
  | 0, s => (0, s.dropWhile (fun b => (digitValue b).isSome))
  | _ + 1, [] => (0, [])
  | w + 1, b :: s =>
    match digitValue b with
    | none => (0, b :: s)
    | some d => ((readFraction w s).1 + d * 10 ^ w, (readFraction w s).2)

theorem digitValue_digit {n : ℕ} (h : n < 10) : digitValue (digit n) = some n := by
  interval_cases n <;> decide

theorem readDigits_digits (w acc n : ℕ) (s : Bytes) :
    readDigits w acc (digits w n ++ s) = some (acc * 10 ^ w + n % 10 ^ w, s) := by
  induction w generalizing acc with
  | zero => simp [readDigits, digits, Nat.mod_one]
  | succ w ih =>
    have hd := digitValue_digit (Nat.mod_lt (n / 10 ^ w) (by decide : 0 < 10))
    rw [digits, List.cons_append, readDigits, hd, Option.bind_some, ih, Nat.mod_pow_succ, pow_succ]
    congr 2
    ring

theorem readDigits_of_lt {w n : ℕ} (h : n < 10 ^ w) (s : Bytes) :
    readDigits w 0 (digits w n ++ s) = some (n, s) := by
  rw [readDigits_digits, Nat.zero_mul, Nat.zero_add, Nat.mod_eq_of_lt h]

theorem readFraction_fraction (w n : ℕ) {b : UInt8} (hb : digitValue b = none) (s : Bytes) :
    readFraction w (fraction w n ++ b :: s) = (n % 10 ^ w, b :: s) := by
  induction w with
  | zero => simp [readFraction, fraction, hb, Nat.mod_one]
  | succ w ih =>
    rw [fraction]
    split_ifs with hz
    · rw [List.nil_append, readFraction, hb, hz]
    · have hd := digitValue_digit (Nat.mod_lt (n / 10 ^ w) (by decide : 0 < 10))
      rw [List.cons_append, readFraction, hd, ih, Nat.mod_pow_succ, Nat.mul_comm (10 ^ w)]

theorem digit_ne {n : ℕ} (h : n < 10) {b : UInt8} (hb : digitValue b = none) : digit n ≠ b := by
  intro he
  have hn := digitValue_digit h
  rw [he, hb] at hn
  cases hn

theorem not_mem_digits {b : UInt8} (hb : digitValue b = none) (w n : ℕ) : b ∉ digits w n := by
  induction w with
  | zero => exact List.not_mem_nil
  | succ w ih =>
    rw [digits, List.mem_cons, not_or]
    exact ⟨(digit_ne (Nat.mod_lt _ (by decide)) hb).symm, ih⟩

theorem not_mem_fraction {b : UInt8} (hb : digitValue b = none) (w n : ℕ) : b ∉ fraction w n := by
  induction w with
  | zero => exact List.not_mem_nil
  | succ w ih =>
    rw [fraction]
    split_ifs
    · exact List.not_mem_nil
    · rw [List.mem_cons, not_or]
      exact ⟨(digit_ne (Nat.mod_lt _ (by decide)) hb).symm, ih⟩

end Digits

namespace Civil

def dash : UInt8 := 0x2d

def colon : UInt8 := 0x3a

def dot : UInt8 := 0x2e

def timeMark : UInt8 := 0x54

def zoneMark : UInt8 := 0x5a

/-- Date and time of day to the second, in the layout of RFC 3339. A year of more than four digits
is written out. -/
def seconds (t : Civil) : Bytes :=
  digits (max 4 (Nat.log 10 t.year + 1)) t.year ++ dash :: (digits 2 t.month ++
    dash :: (digits 2 t.day ++ timeMark :: (digits 2 t.hour ++ colon :: (digits 2 t.minute ++
      colon :: digits 2 t.second))))

def subsecond (t : Civil) : Bytes :=
  if t.nanosecond = 0 then [] else dot :: fraction 9 t.nanosecond

def formatRFC3339 (t : Civil) : Bytes := t.seconds ++ [zoneMark]

def formatRFC3339Nano (t : Civil) : Bytes := t.seconds ++ (t.subsecond ++ [zoneMark])

def expect (b : UInt8) : Bytes → Option Bytes
  | [] => none
  | c :: s => if c = b then some s else none

def readSubsecond : Bytes → ℕ × Bytes
  | b :: c :: s => if b = dot ∧ (digitValue c).isSome then readFraction 9 (c :: s)
      else (0, b :: c :: s)
  | s => (0, s)

def parseRFC3339Nano (s : Bytes) : Option Civil := do
  let (year, s) ← readDigits 4 0 s
  let (month, s) ← readDigits 2 0 (← expect dash s)
  let (day, s) ← readDigits 2 0 (← expect dash s)
  let (hour, s) ← readDigits 2 0 (← expect timeMark s)
  let (minute, s) ← readDigits 2 0 (← expect colon s)
  let (second, s) ← readDigits 2 0 (← expect colon s)
  let (nanosecond, s) := readSubsecond s
  let rest ← expect zoneMark s
  let t : Civil := ⟨year, month, day, hour, minute, second, nanosecond⟩
  if rest = [] ∧ t.Valid then some t else none

@[simp] theorem expect_cons (b : UInt8) (s : Bytes) : expect b (b :: s) = some s := by
  rw [expect, if_pos rfl]

theorem daysIn_le (year month : ℕ) : daysIn year month ≤ 31 := by
  rw [daysIn]
  split_ifs <;> decide

theorem readSubsecond_subsecond {t : Civil} (h : t.nanosecond < 10 ^ 9) :
    readSubsecond (t.subsecond ++ [zoneMark]) = (t.nanosecond, [zoneMark]) := by
  rw [subsecond]
  split_ifs with hz
  · rw [hz]
    rfl
  · have hne : ¬ t.nanosecond % 10 ^ 9 = 0 := by rwa [Nat.mod_eq_of_lt h]
    have hread :=
      readFraction_fraction 9 t.nanosecond (show digitValue zoneMark = none by decide) []
    have hd := digitValue_digit (Nat.mod_lt (t.nanosecond / 10 ^ 8) (by decide : 0 < 10))
    rw [Nat.mod_eq_of_lt h] at hread
    rw [fraction, if_neg hne, List.cons_append] at hread ⊢
    rw [List.cons_append, readSubsecond, hd]
    exact (if_pos ⟨rfl, rfl⟩).trans hread

theorem parse_format {t : Civil} (h : t.Valid) (hy : t.year < 10 ^ 4) :
    parseRFC3339Nano t.formatRFC3339Nano = some t := by
  have hwidth : max 4 (Nat.log 10 t.year + 1) = 4 :=
    max_eq_left (Nat.succ_le_of_lt (Nat.log_lt_of_lt_pow' (by decide) hy))
  have hmonth : t.month < 10 ^ 2 := lt_of_le_of_lt h.month.2 (by decide)
  have hday : t.day < 10 ^ 2 := lt_of_le_of_lt (h.day.2.trans (daysIn_le _ _)) (by decide)
  have hhour : t.hour < 10 ^ 2 := h.hour.trans (by decide)
  have hminute : t.minute < 10 ^ 2 := h.minute.trans (by decide)
  have hsecond : t.second < 10 ^ 2 := h.second.trans (by decide)
  have hval : (⟨t.year, t.month, t.day, t.hour, t.minute, t.second, t.nanosecond⟩ : Civil).Valid :=
    h
  simp only [parseRFC3339Nano, formatRFC3339Nano, seconds, hwidth, List.append_assoc,
    List.cons_append, readDigits_of_lt hy, readDigits_of_lt hmonth, readDigits_of_lt hday,
    readDigits_of_lt hhour, readDigits_of_lt hminute, readDigits_of_lt hsecond,
    readSubsecond_subsecond h.nanosecond, expect_cons, Option.bind_eq_bind, Option.bind_some, hval,
    and_self, if_true]

theorem not_mem_format {b : UInt8} (hb : digitValue b = none)
    (hmarks : b ∉ [dash, colon, dot, timeMark, zoneMark]) (t : Civil) :
    b ∉ t.formatRFC3339Nano := by
  simp only [List.mem_cons, List.not_mem_nil, not_or, not_false_eq_true, and_true] at hmarks
  have hsub : b ∉ t.subsecond := by
    rw [subsecond]
    split_ifs
    · exact List.not_mem_nil
    · rw [List.mem_cons, not_or]
      exact ⟨hmarks.2.2.1, not_mem_fraction hb _ _⟩
  simp only [formatRFC3339Nano, seconds, List.mem_append, List.mem_cons, not_mem_digits hb, hmarks,
    hsub, List.not_mem_nil, or_false, not_false_eq_true]

theorem lt_nextDay (t : Civil) : t < t.nextDay := by
  show t.fields < t.nextDay.fields
  rw [nextDay]
  split_ifs <;> simp [fields, Prod.Lex.toLex_lt_toLex]

theorem le_addDays (n : ℕ) (t : Civil) : t ≤ t.addDays n := by
  induction n generalizing t with
  | zero => exact le_rfl
  | succ n ih => exact (lt_nextDay t).le.trans (ih t.nextDay)

theorem addDays_lt_succ (n : ℕ) (t : Civil) : t.addDays n < t.addDays (n + 1) := by
  rw [addDays, addDays, Function.iterate_succ_apply']
  exact lt_nextDay _

end Civil

end AchProofs.Foundation.Timestamp
