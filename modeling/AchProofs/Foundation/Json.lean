import AchProofs.Foundation.Percent

namespace AchProofs.Foundation

open Foundation.Percent

/-- A JSON text as it is written: the members of an object in order, repeated names included. -/
inductive Json where
  | null
  | bool (b : Bool)
  | num (text : Bytes)
  | str (text : Bytes)
  | arr (items : List Json)
  | obj (members : List (Bytes × Json))

namespace Json

abbrev Members := List (Bytes × Json)

/-- The value of a member. Of several members with one name the last one counts. -/
def lookup (k : Bytes) : Members → Option Json
  | [] => none
  | m :: ms => (lookup k ms).or (if m.1 = k then some m.2 else none)

def lastOnly : Members → Members
  | [] => []
  | m :: ms => if (lookup m.1 ms).isSome then lastOnly ms else m :: lastOnly ms

def erase (k : Bytes) (ms : Members) : Members := ms.filter (fun m => m.1 ≠ k)

def assign (k : Bytes) (v : Json) (ms : Members) : Members := erase k ms ++ [(k, v)]

/-! Reading a value into a map, a string or a list, where `null` leaves the empty one. -/

def asMap : Json → Option Members
  | .obj ms => some (lastOnly ms)
  | .null => some []
  | _ => none

def asString : Json → Option Bytes
  | .str s => some s
  | .null => some []
  | _ => none

def asList : Json → Option (List Json)
  | .arr items => some items
  | .null => some []
  | _ => none

@[simp] theorem lookup_nil (k : Bytes) : lookup k [] = none := rfl

theorem lookup_cons (k : Bytes) (m : Bytes × Json) (ms : Members) :
    lookup k (m :: ms) = (lookup k ms).or (if m.1 = k then some m.2 else none) := rfl

theorem lookup_append (k : Bytes) (ms ns : Members) :
    lookup k (ms ++ ns) = (lookup k ns).or (lookup k ms) := by
  induction ms with
  | nil => simp
  | cons m ms ih => rw [List.cons_append, lookup_cons, lookup_cons, ih, Option.or_assoc]

@[simp] theorem lookup_lastOnly (k : Bytes) (ms : Members) :
    lookup k (lastOnly ms) = lookup k ms := by
  induction ms with
  | nil => rfl
  | cons m ms ih =>
    rw [lastOnly, lookup_cons]
    split
    · rename_i hsome
      rw [ih]
      by_cases hk : m.1 = k
      · subst hk
        obtain ⟨v, hv⟩ := Option.isSome_iff_exists.mp hsome
        rw [hv, Option.some_or]
      · rw [if_neg hk, Option.or_none]
    · rw [lookup_cons, ih]

@[simp] theorem lookup_erase_self (k : Bytes) (ms : Members) : lookup k (erase k ms) = none := by
  induction ms with
  | nil => rfl
  | cons m ms ih =>
    by_cases hk : m.1 = k
    · simpa [erase, hk] using ih
    · have hcons : erase k (m :: ms) = m :: erase k ms := by simp [erase, hk]
      rw [hcons, lookup_cons, ih, if_neg hk]
      rfl

theorem lookup_erase_ne {j k : Bytes} (h : j ≠ k) (ms : Members) :
    lookup j (erase k ms) = lookup j ms := by
  induction ms with
  | nil => rfl
  | cons m ms ih =>
    by_cases hk : m.1 = k
    · have hcons : erase k (m :: ms) = erase k ms := by simp [erase, hk]
      have hj : m.1 ≠ j := fun he => h (he.symm.trans hk)
      rw [hcons, ih, lookup_cons, if_neg hj, Option.or_none]
    · have hcons : erase k (m :: ms) = m :: erase k ms := by simp [erase, hk]
      rw [hcons, lookup_cons, lookup_cons, ih]

@[simp] theorem lookup_assign_self (k : Bytes) (v : Json) (ms : Members) :
    lookup k (assign k v ms) = some v := by
  simp [assign, lookup_append, lookup_cons]

theorem lookup_assign_ne {j k : Bytes} (h : j ≠ k) (v : Json) (ms : Members) :
    lookup j (assign k v ms) = lookup j ms := by
  rw [assign, lookup_append, lookup_erase_ne h, lookup_cons, if_neg (Ne.symm h)]
  rfl

end Json

end AchProofs.Foundation
