import Mathlib

namespace AchProofs.Operator.SnapshotBackoff

/-- One second, in the nanoseconds of a Go `Duration`. -/
def initialRetryBackoff : ℤ := 1000000000

/-- A `Duration` has 64 bits, so twice a long one may come out negative. -/
def nextBackoff (cur maxDur : ℤ) : ℤ := min (Int.bmod (cur * 2) (2 ^ 64)) maxDur

def refreshAndNextInterval (interval backoff : ℤ) (refreshed : Bool) : ℤ :=
  if refreshed then interval else if backoff > interval then interval else backoff

/-- The turns of the loop, each with the outcome of its refresh and the wait after it. -/
def turns (interval : ℤ) : ℤ → List Bool → List (Bool × ℤ)
  | _, [] => []
  | backoff, refreshed :: rest =>
    let next := refreshAndNextInterval interval backoff refreshed
    (refreshed, next) :: turns interval
      (if next = interval then initialRetryBackoff else nextBackoff backoff interval) rest

/-- The refresh before the loop has no part in the backoff. -/
def start (interval : ℤ) : List Bool → List (Bool × ℤ)
  | [] => []
  | refreshed :: rest =>
    (refreshed, refreshAndNextInterval interval initialRetryBackoff refreshed) ::
      turns interval initialRetryBackoff rest

/-- What the wait after a refresh should be, from the outcome and the wait of the one before. -/
def Next (interval : ℤ) (e e' : Bool × ℤ) : Prop :=
  if e'.1 then e'.2 = interval
  else e'.2 ≤ interval ∧
    if e.1 then e'.2 = initialRetryBackoff
    else e.2 ≤ e'.2 ∧ e'.2 ≤ 2 * e.2 ∧ (e.2 = interval → e'.2 = interval)

instance (interval : ℤ) (e e' : Bool × ℤ) : Decidable (Next interval e e') := by
  unfold Next
  infer_instance

/-- Once the loop runs, no refresh fails after failures that have brought the doubled backoff to
the interval, or to the end of its 64 bits. -/
def Recovers (interval : ℤ) : ℕ → List Bool → Prop
  | _, [] => True
  | _, true :: rest => Recovers interval 0 rest
  | 0, false :: rest => Recovers interval 1 rest
  | k + 1, false :: rest =>
    initialRetryBackoff * 2 ^ k < interval ∧ k < 33 ∧ Recovers interval (k + 2) rest

instance decidableRecovers (interval : ℤ) : ∀ n outcomes, Decidable (Recovers interval n outcomes)
  | _, [] => .isTrue trivial
  | _, true :: rest => decidableRecovers interval 0 rest
  | 0, false :: rest => decidableRecovers interval 1 rest
  | k + 1, false :: rest =>
    have := decidableRecovers interval (k + 2) rest
    inferInstanceAs (Decidable (_ ∧ _ ∧ _))

variable {interval : ℤ}

theorem refreshAndNextInterval_failed {backoff : ℤ} (h : backoff ≤ interval) :
    refreshAndNextInterval interval backoff false = backoff := by
  simp [refreshAndNextInterval, h]

theorem nextBackoff_of_lt {k : ℕ} (hk : k < 33) :
    nextBackoff (initialRetryBackoff * 2 ^ k) interval =
      min (initialRetryBackoff * 2 ^ (k + 1)) interval := by
  have h : (initialRetryBackoff * 2 ^ k * 2).bmod (2 ^ 64) = initialRetryBackoff * 2 ^ (k + 1) := by
    interval_cases k <;> decide
  rw [nextBackoff, h]

/-- The turns after `n` failures in a row. An interval above the initial backoff tells a success
from a failure until the backoff gets there. -/
theorem turns_regular_iff (h : initialRetryBackoff < interval)
    (outcomes : List Bool) (n : ℕ) (e : Bool × ℤ) (backoff : ℤ)
    (h0 : n = 0 → backoff = initialRetryBackoff ∧ (e.1 = false → e.2 = initialRetryBackoff))
    (hn : ∀ k, n = k + 1 → k ≤ 33 ∧ e = (false, min (initialRetryBackoff * 2 ^ k) interval) ∧
      backoff = if e.2 = interval then initialRetryBackoff else nextBackoff e.2 interval) :
    (e :: turns interval backoff outcomes).IsChain (Next interval) ↔
      Recovers interval n outcomes := by
  induction outcomes generalizing n e backoff with
  | nil => simp [turns, Recovers]
  | cons refreshed rest ih =>
    rw [turns, List.isChain_cons_cons]
    cases refreshed with
    | true =>
      rw [ih 0 _ _ (fun _ => ⟨by simp [refreshAndNextInterval], by simp⟩)
        (fun k hk => absurd hk (by omega))]
      simp [Next, refreshAndNextInterval, Recovers]
    | false =>
      cases n with
      | zero =>
        obtain ⟨rfl, he⟩ := h0 rfl
        simp only [refreshAndNextInterval_failed h.le, if_neg h.ne]
        rw [ih 1 _ _ nofun fun k hk => ?_]
        · have hnext : Next interval e (false, initialRetryBackoff) := by
            cases hc : e.1 <;> simp [Next, hc, h.le]
            rw [he hc]
            exact ⟨le_rfl, by decide, id⟩
          exact and_iff_right hnext
        · obtain rfl : k = 0 := by omega
          simp [h.le, h.ne]
      | succ k =>
        obtain ⟨hk, rfl, rfl⟩ := hn k rfl
        rw [Recovers]
        by_cases hlt : initialRetryBackoff * 2 ^ k < interval
        · simp only [min_eq_left hlt.le, if_neg hlt.ne,
            refreshAndNextInterval_failed (show nextBackoff _ interval ≤ _ from min_le_right _ _)]
          by_cases hk' : k < 33
          · rw [nextBackoff_of_lt hk', ih (k + 2) _ _ nofun fun j hj => ?_]
            · have hnext : Next interval (false, initialRetryBackoff * 2 ^ k)
                  (false, min (initialRetryBackoff * 2 ^ (k + 1)) interval) := by
                have : (0 : ℤ) < initialRetryBackoff * 2 ^ k := by
                  have : (0 : ℤ) < initialRetryBackoff := by decide
                  positivity
                have hdouble : initialRetryBackoff * 2 ^ (k + 1)
                    = 2 * (initialRetryBackoff * 2 ^ k) := by
                  rw [pow_succ', mul_left_comm]
                simp only [Next, Bool.false_eq_true, if_false, hdouble]
                omega
              simp [hnext, hlt, hk']
            · obtain rfl : j = k + 1 := by omega
              refine ⟨by omega, rfl, ?_⟩
              by_cases hle : interval ≤ initialRetryBackoff * 2 ^ (k + 1)
              · simp [hle]
              · rw [min_eq_left (by omega)]
          · -- the backoff that is doubled once more is past the largest `Duration`
            obtain rfl : k = 33 := by omega
            have hneg : nextBackoff (initialRetryBackoff * 2 ^ 33) interval
                < initialRetryBackoff * 2 ^ 33 :=
              lt_of_le_of_lt (min_le_left _ _) (by decide)
            refine iff_of_false (fun hc => ?_) (fun hc => hk' hc.2.1)
            have := hc.1
            simp only [Next, Bool.false_eq_true, if_false] at this
            omega
        · refine iff_of_false (fun hc => ?_) (fun hc => hlt hc.1)
          have hnext := hc.1
          simp only [min_eq_right (not_lt.mp hlt), if_true, Next,
            refreshAndNextInterval_failed h.le, Bool.false_eq_true, if_false] at hnext
          omega

theorem turns_regular_shortest (outcomes : List Bool) (e : Bool × ℤ)
    (he : e.2 = initialRetryBackoff) :
    (e :: turns initialRetryBackoff initialRetryBackoff outcomes).IsChain
      (Next initialRetryBackoff) := by
  induction outcomes generalizing e with
  | nil => simp [turns]
  | cons refreshed rest ih =>
    have hw : refreshAndNextInterval initialRetryBackoff initialRetryBackoff refreshed
        = initialRetryBackoff := by
      simp [refreshAndNextInterval]
    rw [turns, List.isChain_cons_cons]
    simp only [hw, if_true]
    refine ⟨?_, ih _ rfl⟩
    cases refreshed <;> simp [Next, he]
    exact fun _ => by decide

/-- The waits follow the outcomes as they should exactly if the interval is the initial backoff,
or the refreshes recover before the backoff has grown to the interval, which the loop takes for a
success. -/
theorem start_regular_iff (h : initialRetryBackoff ≤ interval)
    (outcomes : List Bool) :
    ((true, interval) :: start interval outcomes).IsChain (Next interval) ↔
      interval = initialRetryBackoff ∨ Recovers interval 0 outcomes.tail := by
  cases outcomes with
  | nil => simp [start, Recovers]
  | cons refreshed rest =>
    have hnext : Next interval (true, interval)
        (refreshed, refreshAndNextInterval interval initialRetryBackoff refreshed) := by
      cases refreshed <;> simp [Next, refreshAndNextInterval, h, h.not_gt]
    rw [start, List.isChain_cons_cons, and_iff_right hnext, List.tail_cons]
    obtain rfl | hlt := h.eq_or_lt
    · refine iff_of_true (turns_regular_shortest rest _ ?_) (.inl rfl)
      simp [refreshAndNextInterval]
    · rw [or_iff_right hlt.ne']
      refine turns_regular_iff hlt rest 0 _ _ (fun _ => ⟨rfl, ?_⟩)
        (fun k hk => absurd hk (by omega))
      rintro rfl
      exact refreshAndNextInterval_failed h

theorem start_regular_recovers :
    ((true, 4000000000) :: start 4000000000 [false, false, false, true, false]).IsChain
      (Next 4000000000) :=
  (start_regular_iff (by decide) _).mpr (.inr (by decide))

/-- The fourth failure waits for the interval, and the fifth for the initial backoff again. -/
theorem not_start_regular :
    ¬ ∀ interval outcomes, initialRetryBackoff ≤ interval →
      ((true, interval) :: start interval outcomes).IsChain (Next interval) :=
  fun h => absurd (h 4000000000 [false, false, false, false, false] (by decide)) (by decide)

end AchProofs.Operator.SnapshotBackoff
