import Mathlib

namespace AchProofs.Foundation.Percent

abbrev Bytes := List UInt8

def percent : UInt8 := 0x25

def hexDigit (n : ℕ) : UInt8 := if n < 10 then UInt8.ofNat (0x30 + n) else UInt8.ofNat (0x37 + n)

def hexValue (b : UInt8) : Option ℕ :=
  if 0x30 ≤ b ∧ b ≤ 0x39 then some (b.toNat - 0x30)
  else if 0x41 ≤ b ∧ b ≤ 0x46 then some (b.toNat - 0x37)
  else if 0x61 ≤ b ∧ b ≤ 0x66 then some (b.toNat - 0x57)
  else none

def escapeByte (b : UInt8) : Bytes := [percent, hexDigit (b.toNat / 16), hexDigit (b.toNat % 16)]

def escape (keep : UInt8 → Bool) (s : Bytes) : Bytes :=
  s.flatMap (fun b => if keep b then [b] else escapeByte b)

def unescape : Bytes → Option Bytes
  | [] => some []
  | b :: s =>
    if b = percent then
      match s with
      | x :: y :: rest =>
        match hexValue x, hexValue y with
        | some m, some n => (unescape rest).map (UInt8.ofNat (16 * m + n) :: ·)
        | _, _ => none
      | _ => none
    else (unescape s).map (b :: ·)

theorem byte_forall {P : UInt8 → Prop} (h : ∀ n < 256, P (UInt8.ofNat n)) (b : UInt8) : P b := by
  have hb := h b.toNat b.toNat_lt_size
  rwa [UInt8.ofNat_toNat] at hb

variable {n : ℕ} {b : UInt8} {keep : UInt8 → Bool} {s : Bytes}

theorem hexValue_hexDigit (h : n < 16) : hexValue (hexDigit n) = some n := by
  interval_cases n <;> decide

theorem hexDigit_ne (h : n < 16) (hb : hexValue b = none) : hexDigit n ≠ b := by
  intro he
  have hn := hexValue_hexDigit h
  rw [he, hb] at hn
  cases hn

@[simp] theorem escape_nil (keep : UInt8 → Bool) : escape keep [] = [] := rfl

theorem escape_cons (keep : UInt8 → Bool) (b : UInt8) (s : Bytes) :
    escape keep (b :: s) = (if keep b then [b] else escapeByte b) ++ escape keep s := by
  simp [escape]

theorem escape_append (keep : UInt8 → Bool) (s t : Bytes) :
    escape keep (s ++ t) = escape keep s ++ escape keep t := by
  simp [escape]

theorem escape_of_kept (h : ∀ b ∈ s, keep b = true) : escape keep s = s := by
  induction s with
  | nil => rfl
  | cons b s ih =>
    rw [escape_cons, h b List.mem_cons_self, ih (fun c hc => h c (List.mem_cons_of_mem b hc))]
    rfl

theorem unescape_cons (hb : b ≠ percent) (s : Bytes) :
    unescape (b :: s) = (unescape s).map (b :: ·) := by
  match s with
  | [] => simp [unescape, hb]
  | [_] => simp [unescape, hb]
  | _ :: _ :: _ => rw [unescape, if_neg hb]

theorem unescape_percent {s' : Bytes} (h : unescape (percent :: s) = some s') :
    ∃ x y rest m n rest', s = x :: y :: rest ∧ hexValue x = some m ∧ hexValue y = some n ∧
      unescape rest = some rest' ∧ s' = UInt8.ofNat (16 * m + n) :: rest' := by
  match s with
  | [] => simp [unescape] at h
  | [_] => simp [unescape] at h
  | x :: y :: rest =>
    simp only [unescape, if_true] at h
    split at h
    · rename_i m n hx hy
      obtain ⟨rest', hr, rfl⟩ := Option.map_eq_some_iff.mp h
      exact ⟨x, y, rest, m, n, rest', rfl, hx, hy, hr, rfl⟩
    · cases h

theorem unescape_hex {x y : UInt8} {m : ℕ} (hx : hexValue x = some m) (hy : hexValue y = some n)
    (s : Bytes) :
    unescape (percent :: x :: y :: s) = (unescape s).map (UInt8.ofNat (16 * m + n) :: ·) := by
  simp only [unescape, if_true, hx, hy]

theorem unescape_escapeByte (b : UInt8) (s : Bytes) :
    unescape (escapeByte b ++ s) = (unescape s).map (b :: ·) := by
  have hb : b.toNat < 256 := b.toNat_lt_size
  have hm : b.toNat / 16 < 16 := by omega
  have hn : b.toNat % 16 < 16 := by omega
  have he : UInt8.ofNat (16 * (b.toNat / 16) + b.toNat % 16) = b := by
    rw [Nat.div_add_mod, UInt8.ofNat_toNat]
  rw [escapeByte, List.cons_append, List.cons_append, List.singleton_append,
    unescape_hex (hexValue_hexDigit hm) (hexValue_hexDigit hn), he]

theorem unescape_escape (hk : keep percent = false) (s : Bytes) :
    unescape (escape keep s) = some s := by
  induction s with
  | nil => rfl
  | cons b s ih =>
    rw [escape_cons]
    by_cases hb : keep b = true
    · have hne : b ≠ percent := fun he => by simp [he, hk] at hb
      rw [if_pos hb, List.singleton_append, unescape_cons hne, ih]
      rfl
    · rw [if_neg hb, unescape_escapeByte, ih]
      rfl

theorem unescape_of_not_mem (h : percent ∉ s) : unescape s = some s := by
  have hk : ∀ b ∈ s, (fun b => decide (b ≠ percent)) b = true := fun b hb =>
    decide_eq_true (fun he => h (he ▸ hb))
  conv_lhs => rw [← escape_of_kept hk]
  exact unescape_escape (by simp) s

theorem unescape_append : ∀ (s : Bytes) {s' : Bytes} (t : Bytes), unescape s = some s' →
    unescape (s ++ t) = (unescape t).map (s' ++ ·)
  | [], s', t, h => by
    obtain rfl : [] = s' := by simpa [unescape] using h
    simp
  | b :: s, s', t, h => by
    by_cases hb : b = percent
    · subst hb
      obtain ⟨x, y, rest, m, n, rest', rfl, hx, hy, hr, rfl⟩ := unescape_percent h
      have ih := unescape_append rest t hr
      rw [List.cons_append, List.cons_append, List.cons_append, unescape_hex hx hy, ih,
        Option.map_map]
      rfl
    · rw [unescape_cons hb] at h
      obtain ⟨rest', hr, rfl⟩ := Option.map_eq_some_iff.mp h
      have ih := unescape_append s t hr
      rw [List.cons_append, unescape_cons hb, ih, Option.map_map]
      rfl

theorem eq_nil_of_unescape (h : unescape s = some []) : s = [] := by
  cases s with
  | nil => rfl
  | cons b s =>
    by_cases hb : b = percent
    · subst hb
      obtain ⟨x, y, rest, m, n, rest', -, -, -, -, he⟩ := unescape_percent h
      cases he
    · rw [unescape_cons hb] at h
      obtain ⟨s', -, he⟩ := Option.map_eq_some_iff.mp h
      cases he

theorem unescape_split {c : UInt8} (hc : hexValue c = none) (hp : c ≠ percent) :
    ∀ (s : Bytes) {t r : Bytes}, unescape (s ++ c :: t) = some r →
      ∃ s' t', unescape s = some s' ∧ unescape t = some t' ∧ r = s' ++ c :: t'
  | [], t, r, h => by
    rw [List.nil_append, unescape_cons hp] at h
    obtain ⟨t', ht, rfl⟩ := Option.map_eq_some_iff.mp h
    exact ⟨[], t', rfl, ht, rfl⟩
  | b :: s, t, r, h => by
    by_cases hb : b = percent
    · subst hb
      obtain ⟨x, y, rest, m, n, rest', hs, hx, hy, hrest, rfl⟩ := unescape_percent h
      -- Neither of the two digits is the separator.
      match s, hs with
      | [], hs =>
        rw [← (List.cons.inj hs).1, hc] at hx
        cases hx
      | [_], hs =>
        rw [← (List.cons.inj (List.cons.inj hs).2).1, hc] at hy
        cases hy
      | x' :: y' :: s, hs =>
        obtain ⟨rfl, rfl, rfl⟩ : x' = x ∧ y' = y ∧ s ++ c :: t = rest := by
          simpa using (show x' :: y' :: (s ++ c :: t) = x :: y :: rest from hs)
        obtain ⟨s', t', hs', ht', rfl⟩ := unescape_split hc hp s hrest
        exact ⟨UInt8.ofNat (16 * m + n) :: s', t', by rw [unescape_hex hx hy, hs']; rfl, ht', rfl⟩
    · rw [List.cons_append, unescape_cons hb] at h
      obtain ⟨r', hr, rfl⟩ := Option.map_eq_some_iff.mp h
      obtain ⟨s', t', hs', ht', rfl⟩ := unescape_split hc hp s hr
      exact ⟨b :: s', t', by rw [unescape_cons hb, hs']; rfl, ht', rfl⟩

theorem length_unescape : ∀ (s : Bytes) {s' : Bytes}, unescape s = some s' →
    s'.length ≤ s.length ∧ (percent ∈ s → s'.length < s.length)
  | [], s', h => by
    obtain rfl : [] = s' := by simpa [unescape] using h
    simp
  | b :: s, s', h => by
    by_cases hb : b = percent
    · subst hb
      obtain ⟨x, y, rest, m, n, rest', rfl, -, -, hr, rfl⟩ := unescape_percent h
      have ih := (length_unescape rest hr).1
      simp only [List.length_cons]
      omega
    · rw [unescape_cons hb] at h
      obtain ⟨rest', hr, rfl⟩ := Option.map_eq_some_iff.mp h
      obtain ⟨hle, hlt⟩ := length_unescape s hr
      refine ⟨Nat.succ_le_succ hle, fun hmem => Nat.succ_lt_succ (hlt ?_)⟩
      exact (List.mem_cons.mp hmem).resolve_left (Ne.symm hb)

theorem not_mem_escape (hb : hexValue b = none) (hp : b ≠ percent) (hk : keep b = false)
    (s : Bytes) :
    b ∉ escape keep s := by
  intro hmem
  obtain ⟨c, -, hc⟩ := List.mem_flatMap.mp hmem
  by_cases hkc : keep c = true
  · rw [if_pos hkc, List.mem_singleton] at hc
    rw [← hc, hk] at hkc
    cases hkc
  · have hlt : c.toNat < 256 := c.toNat_lt_size
    rw [if_neg hkc] at hc
    simp only [escapeByte, List.mem_cons, List.not_mem_nil, or_false] at hc
    obtain he | he | he := hc
    · exact hp he
    · exact hexDigit_ne (by omega) hb he.symm
    · exact hexDigit_ne (by omega) hb he.symm

theorem escape_eq_escape_iff {keep' : UInt8 → Bool} (hk : keep percent = false)
    (hk' : keep' percent = false) (s : Bytes) :
    escape keep s = escape keep' s ↔ ∀ b ∈ s, keep b = keep' b := by
  induction s with
  | nil => simp
  | cons b s ih =>
    have hne : ∀ f : UInt8 → Bool, f percent = false → f b = true → b ≠ percent :=
      fun f hf hb he => by rw [he, hf] at hb; cases hb
    rw [escape_cons, escape_cons, List.forall_mem_cons, ← ih]
    cases hb : keep b <;> cases hb' : keep' b
    · simp
    · have := hne keep' hk' hb'
      simp [escapeByte, this.symm]
    · have := hne keep hk hb
      simp [escapeByte, this]
    · simp

end AchProofs.Foundation.Percent
