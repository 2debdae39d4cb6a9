import Mathlib.Data.Nat.Digits.Defs

/-! Numerals read from the left in an accumulator with a bound. The accumulator never
falls, so it stays below the bound to the end exactly when the number does. -/

namespace Bbench.Lib

variable {b bound : ℕ}

/-- The number of a sequence of digits, the first of the highest place. -/
def numeral (b : ℕ) (ds : List ℕ) : ℕ := Nat.ofDigits b ds.reverse

/-- The accumulation from `v` on, given up where it would reach the bound. -/
def accumulate (b bound : ℕ) : List ℕ → ℕ → Option ℕ
  | [], v => some v
  | d :: ds, v => if v * b + d < bound then accumulate b bound ds (v * b + d) else none

theorem numeral_nil (b : ℕ) : numeral b [] = 0 := rfl

theorem numeral_cons (b d : ℕ) (ds : List ℕ) :
    numeral b (d :: ds) = d * b ^ ds.length + numeral b ds := by
  rw [numeral, Nat.ofDigits_reverse_cons, numeral, Nat.mul_comm, Nat.add_comm]

theorem accumulate_eq (hb : 0 < b) (ds : List ℕ) {v : ℕ} (hv : v < bound) :
    accumulate b bound ds v =
      if v * b ^ ds.length + numeral b ds < bound then some (v * b ^ ds.length + numeral b ds)
      else none := by
  induction ds generalizing v with
  | nil => simp [accumulate, numeral_nil, hv]
  | cons d ds ih =>
    have htotal : v * b ^ (d :: ds).length + numeral b (d :: ds) =
        (v * b + d) * b ^ ds.length + numeral b ds := by
      rw [numeral_cons, List.length_cons, pow_succ', Nat.add_mul, Nat.mul_assoc, Nat.add_assoc]
    rw [accumulate, htotal]
    by_cases hstep : v * b + d < bound
    · rw [if_pos hstep, ih hstep]
    · -- what is read later only adds to it
      have hle : v * b + d ≤ (v * b + d) * b ^ ds.length :=
        Nat.le_mul_of_pos_right _ (Nat.pow_pos hb)
      rw [if_neg hstep, if_neg (by omega)]

theorem accumulate_zero (hb : 0 < b) (hbound : 0 < bound) (ds : List ℕ) :
    accumulate b bound ds 0 = if numeral b ds < bound then some (numeral b ds) else none := by
  rw [accumulate_eq hb ds hbound, Nat.zero_mul, Nat.zero_add]

end Bbench.Lib
