import Mathlib.Analysis.SpecialFunctions.Pow.Real
import Mathlib.Tactic.FieldSimp
import Mathlib.Tactic.Ring

/-! Newton's iteration for a square root. One step squares the quotient of the
distances to the two roots, so the quotient after `k` steps is the first one to the
power `2 ^ k`. Started at the radicand itself, a fixed number of steps reaches a
given relative accuracy exactly on an interval around one. -/

namespace Bbench.Lib

section Field
variable {K : Type*} [Field K]

def newtonStep (x r : K) : K := 1 / 2 * (r + x / r)

/-- The quotient of the distances of `r` to `y` and to `-y`. -/
def distRatio (y r : K) : K := (r - y) / (r + y)

theorem distRatio_self_mul {y : K} (hy : y ≠ 0) (s : K) : distRatio y (s * y) = distRatio 1 s := by
  rw [distRatio, distRatio, ← sub_one_mul, ← add_one_mul, mul_div_mul_right _ _ hy]

variable [LinearOrder K] [IsStrictOrderedRing K] {x y r : K}

theorem newtonStep_pos (hx : 0 < x) (hr : 0 < r) : 0 < newtonStep x r := by
  unfold newtonStep
  positivity

theorem half_le_newtonStep (hx : 0 < x) (hr : 0 < r) : 1 / 2 * r ≤ newtonStep x r := by
  unfold newtonStep
  have hdiv := div_pos hx hr
  linarith

theorem iterate_newtonStep_pos (hx : 0 < x) (hr : 0 < r) (k : ℕ) :
    0 < (newtonStep x)^[k] r := by
  induction k with
  | zero => exact hr
  | succ k ih =>
    rw [Function.iterate_succ_apply']
    exact newtonStep_pos hx ih

/-- A step at most halves. -/
theorem iterate_newtonStep_ge (hx : 0 < x) (hr : 0 < r) (k : ℕ) :
    r / 2 ^ k ≤ (newtonStep x)^[k] r := by
  induction k with
  | zero => simp
  | succ k ih =>
    rw [Function.iterate_succ_apply']
    calc r / 2 ^ (k + 1) = 1 / 2 * (r / 2 ^ k) := by rw [pow_succ]; field_simp
      _ ≤ 1 / 2 * (newtonStep x)^[k] r := by linarith
      _ ≤ newtonStep x ((newtonStep x)^[k] r) :=
        half_le_newtonStep hx (iterate_newtonStep_pos hx hr k)

theorem distRatio_newtonStep (y : K) (hr : 0 < r) :
    distRatio y (newtonStep (y ^ 2) r) = distRatio y r ^ 2 := by
  have hsub : newtonStep (y ^ 2) r - y = (r - y) ^ 2 / (2 * r) := by
    unfold newtonStep
    field_simp
    ring
  have hadd : newtonStep (y ^ 2) r + y = (r + y) ^ 2 / (2 * r) := by
    unfold newtonStep
    field_simp
    ring
  have h2r : 2 * r ≠ 0 := by positivity
  rw [distRatio, hsub, hadd, div_div_div_cancel_right₀ h2r, distRatio, div_pow]

theorem distRatio_iterate (hy : 0 < y) (hr : 0 < r) (k : ℕ) :
    distRatio y ((newtonStep (y ^ 2))^[k] r) = distRatio y r ^ 2 ^ k := by
  induction k with
  | zero => simp
  | succ k ih =>
    have hpos := iterate_newtonStep_pos (pow_pos hy 2) hr k
    rw [Function.iterate_succ_apply', distRatio_newtonStep y hpos, ih, ← pow_mul, pow_succ]

theorem distRatio_le_iff {r' : K} (hy : 0 < y) (hr : 0 < r) (hr' : 0 < r') :
    distRatio y r ≤ distRatio y r' ↔ r ≤ r' := by
  rw [distRatio, distRatio, div_le_div_iff₀ (by positivity) (by positivity)]
  constructor <;> intro h <;> nlinarith

/-- After a step the iterate is above the root. -/
theorem root_le_iterate (hy : 0 < y) (hr : 0 < r) {k : ℕ} (hk : 0 < k) :
    y ≤ (newtonStep (y ^ 2))^[k] r := by
  have heven : Even (2 ^ k) := (Nat.even_pow.mpr ⟨even_two, hk.ne'⟩)
  rw [← distRatio_le_iff hy hy (iterate_newtonStep_pos (pow_pos hy 2) hr k),
    distRatio_iterate hy hr, distRatio, sub_self, zero_div]
  exact heven.pow_nonneg _

end Field

/-- The iteration in the rationals is the iteration in the reals. -/
theorem cast_iterate_newtonStep (x r : ℚ) (k : ℕ) :
    (((newtonStep x)^[k] r : ℚ) : ℝ) = (newtonStep (x : ℝ))^[k] r := by
  induction k with
  | zero => rfl
  | succ k ih =>
    rw [Function.iterate_succ_apply', Function.iterate_succ_apply', ← ih]
    simp [newtonStep]

/-- A bound on the quotient is an interval for the square. -/
theorem distRatio_mem_iff {y τ : ℝ} (hy : 0 < y) (hτ : 0 < τ) (hτ1 : τ < 1) :
    -τ ≤ distRatio 1 y ∧ distRatio 1 y ≤ τ ↔
      (((1 + τ) / (1 - τ)) ^ 2)⁻¹ ≤ y ^ 2 ∧ y ^ 2 ≤ ((1 + τ) / (1 - τ)) ^ 2 := by
  have hsub : 0 < 1 - τ := by linarith
  have hpos : 0 < (1 + τ) / (1 - τ) := by positivity
  rw [← inv_pow, pow_le_pow_iff_left₀ (inv_pos.mpr hpos).le hy.le two_ne_zero,
    pow_le_pow_iff_left₀ hy.le hpos.le two_ne_zero, inv_div, distRatio,
    le_div_iff₀ (by linarith), div_le_iff₀ (by linarith), le_div_iff₀ hsub,
    div_le_iff₀ (by linarith)]
  constructor <;> rintro ⟨hl, hu⟩ <;> constructor <;> linarith

/-! ### Where the accuracy is reached -/

/-- The largest first quotient from which `k` steps reach relative accuracy `ε` in the
square. -/
noncomputable def newtonRatio (k : ℕ) (ε : ℝ) : ℝ :=
  distRatio 1 √(1 + ε) ^ ((2 ^ k : ℕ) : ℝ)⁻¹

/-- The ends of the interval are this number and its inverse. -/
noncomputable def newtonRange (k : ℕ) (ε : ℝ) : ℝ :=
  ((1 + newtonRatio k ε) / (1 - newtonRatio k ε)) ^ 2

section Range
variable {ε : ℝ} (hε : 0 < ε) (k : ℕ)
include hε

theorem one_lt_sqrt : 1 < √(1 + ε) := by
  rw [Real.lt_sqrt one_pos.le, one_pow]
  linarith

theorem newtonRatio_pow : newtonRatio k ε ^ 2 ^ k = distRatio 1 √(1 + ε) := by
  have hs := one_lt_sqrt hε
  have hpos : 0 ≤ distRatio 1 √(1 + ε) := by
    unfold distRatio
    exact div_nonneg (by linarith) (by linarith)
  exact Real.rpow_inv_natCast_pow hpos (pow_ne_zero k two_ne_zero)

theorem newtonRatio_pos : 0 < newtonRatio k ε := by
  have hs := one_lt_sqrt hε
  unfold newtonRatio distRatio
  exact Real.rpow_pos_of_pos (div_pos (by linarith) (by linarith)) _

theorem newtonRatio_lt_one : newtonRatio k ε < 1 := by
  have hs := one_lt_sqrt hε
  have hlt : newtonRatio k ε ^ 2 ^ k < 1 := by
    rw [newtonRatio_pow hε, distRatio, div_lt_one (by linarith)]
    linarith
  exact (pow_lt_one_iff_of_nonneg (newtonRatio_pos hε k).le (pow_ne_zero k two_ne_zero)).mp hlt

/-- The range is an interval around one. -/
theorem one_le_newtonRange : 1 ≤ newtonRange k ε := by
  have hτ := newtonRatio_pos hε k
  have hτ1 := newtonRatio_lt_one hε k
  refine one_le_pow₀ ?_
  rw [le_div_iff₀ (by linarith)]
  linarith

/-- `k` steps from the radicand reach the accuracy exactly inside the range. -/
theorem iterate_newtonStep_accurate_iff {V : ℝ} (hV : 0 < V) (hk : 0 < k) :
    |(newtonStep V)^[k] V ^ 2 - V| ≤ ε * V ↔
      (newtonRange k ε)⁻¹ ≤ V ∧ V ≤ newtonRange k ε := by
  obtain ⟨y, hy, rfl⟩ : ∃ y, 0 < y ∧ y ^ 2 = V :=
    ⟨√V, Real.sqrt_pos.mpr hV, Real.sq_sqrt hV.le⟩
  have hs := one_lt_sqrt hε
  have hτ := newtonRatio_pos hε k
  have hτ1 := newtonRatio_lt_one hε k
  have hr := iterate_newtonStep_pos hV hV k
  have hroot := root_le_iterate hy hV hk
  have hsq : √(1 + ε) ^ 2 = 1 + ε := Real.sq_sqrt (by linarith)
  -- the error in the square, as a bound on the iterate
  have habove : |(newtonStep (y ^ 2))^[k] (y ^ 2) ^ 2 - y ^ 2| ≤ ε * y ^ 2 ↔
      (newtonStep (y ^ 2))^[k] (y ^ 2) ≤ √(1 + ε) * y := by
    rw [abs_of_nonneg (sub_nonneg.mpr (pow_le_pow_left₀ hy.le hroot 2)),
      ← pow_le_pow_iff_left₀ hr.le (by positivity) two_ne_zero, mul_pow, hsq]
    constructor <;> intro h <;> linarith
  -- and as a bound on the first quotient
  have hfirst : distRatio y (y ^ 2) = distRatio 1 y := by
    rw [pow_two, distRatio_self_mul hy.ne']
  have hratio : (newtonStep (y ^ 2))^[k] (y ^ 2) ≤ √(1 + ε) * y ↔
      |distRatio 1 y| ≤ newtonRatio k ε := by
    have heven : Even (2 ^ k) := Nat.even_pow.mpr ⟨even_two, hk.ne'⟩
    rw [← distRatio_le_iff hy hr (by positivity), distRatio_iterate hy hV, hfirst,
      distRatio_self_mul hy.ne', ← newtonRatio_pow hε k, ← heven.pow_abs]
    exact pow_le_pow_iff_left₀ (abs_nonneg _) hτ.le (pow_ne_zero k two_ne_zero)
  rw [habove, hratio, abs_le]
  exact distRatio_mem_iff hy hτ hτ1

end Range

end Bbench.Lib
