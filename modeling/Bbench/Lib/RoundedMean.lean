import Mathlib.Algebra.Order.BigOperators.Group.List
import Mathlib.Data.Rat.Lemmas
import Mathlib.Tactic.FieldSimp
import Mathlib.Tactic.Linarith
import Mathlib.Tactic.Positivity
import Mathlib.Tactic.Ring

/-! Means in rounded arithmetic. The summands are added in their order and the sum is
divided, and the result of each operation goes through a function `fl`. When no result
changes there, the mean is exact; when each is changed by at most a share `u` of itself,
the relative errors of the operations multiply. -/

namespace Bbench.Lib

section Defs
variable {α : Type*} [DivisionRing α] (fl : α → α)

/-- A running sum, rounded after each addition. -/
def roundedSum (l : List α) : α := l.foldl (fun sum x => fl (sum + x)) 0

/-- And divided. -/
def roundedMean (l : List α) : α := fl (roundedSum fl l / l.length)

/-- No operation of the mean rounds. -/
structure Unrounded (l : List α) : Prop where
  sum : ∀ k ≤ l.length, fl (l.take k).sum = (l.take k).sum
  mean : fl (l.sum / l.length) = l.sum / l.length

variable {fl}

theorem roundedSum_append_singleton (l : List α) (x : α) :
    roundedSum fl (l ++ [x]) = fl (roundedSum fl l + x) := by
  rw [roundedSum, List.foldl_append]
  rfl

/-- The running sums are exact as long as none of them rounds. -/
theorem roundedSum_of_unrounded {l : List α}
    (h : ∀ k ≤ l.length, fl (l.take k).sum = (l.take k).sum) : roundedSum fl l = l.sum := by
  induction l using List.reverseRecOn with
  | nil => rfl
  | append_singleton l x ih =>
    have hprev : roundedSum fl l = l.sum := ih fun k hk => by
      have htake := h k (by rw [List.length_append]; omega)
      rwa [List.take_append_of_le_length hk] at htake
    have hall := h (l ++ [x]).length le_rfl
    rw [List.take_length] at hall
    have hsum : (l ++ [x]).sum = l.sum + x := by simp
    rw [roundedSum_append_singleton, hprev, ← hsum, hall]

theorem Unrounded.roundedMean_eq {l : List α} (h : Unrounded fl l) :
    roundedMean fl l = l.sum / l.length := by
  rw [roundedMean, roundedSum_of_unrounded h.sum, h.mean]

end Defs

section Error
variable {α : Type*} [Field α] [LinearOrder α] [IsStrictOrderedRing α] {fl : α → α} {u : α}

/-- A result is changed by at most the share `u` of itself. -/
def RoundsWithin (u : α) (fl : α → α) : Prop := ∀ x, |fl x - x| ≤ u * |x|

/-- One more operation: an error of `e - 1` before it is one of `(1 + u) * e - 1` after it. -/
theorem RoundsWithin.abs_sub_le (hu : 0 ≤ u) (h : RoundsWithin u fl) {x y a e : α}
    (hy : |y| ≤ a) (hx : |x - y| ≤ (e - 1) * a) : |fl x - y| ≤ ((1 + u) * e - 1) * a := by
  have hsize : |x| ≤ e * a := by
    have hsplit : |x| ≤ |x - y| + |y| := by
      calc |x| = |x - y + y| := by rw [sub_add_cancel]
        _ ≤ |x - y| + |y| := abs_add_le _ _
    linarith
  have hround : |fl x - x| ≤ u * (e * a) :=
    (h x).trans (mul_le_mul_of_nonneg_left hsize hu)
  calc |fl x - y| = |(fl x - x) + (x - y)| := by rw [sub_add_sub_cancel]
    _ ≤ |fl x - x| + |x - y| := abs_add_le _ _
    _ ≤ u * (e * a) + (e - 1) * a := add_le_add hround hx
    _ = ((1 + u) * e - 1) * a := by ring

theorem abs_sum_le (l : List α) : |l.sum| ≤ (l.map abs).sum := by
  induction l with
  | nil => simp
  | cons x l ih =>
    rw [List.sum_cons, List.map_cons, List.sum_cons]
    exact (abs_add_le _ _).trans (by linarith)

/-- Each addition rounds once more. -/
theorem abs_roundedSum_sub_le (hu : 0 ≤ u) (h : RoundsWithin u fl) (l : List α) :
    |roundedSum fl l - l.sum| ≤ ((1 + u) ^ l.length - 1) * (l.map abs).sum := by
  induction l using List.reverseRecOn with
  | nil => simp [roundedSum]
  | append_singleton l x ih =>
    have hone : 0 ≤ (1 + u) ^ l.length - 1 := sub_nonneg.mpr (one_le_pow₀ (by linarith))
    have hsum : (l ++ [x]).sum = l.sum + x := by simp
    have habs : ((l ++ [x]).map abs).sum = (l.map abs).sum + |x| := by simp
    have hlength : (1 + u) ^ (l ++ [x]).length = (1 + u) * (1 + u) ^ l.length := by
      rw [List.length_append, List.length_singleton, pow_succ']
    rw [roundedSum_append_singleton, hsum, habs, hlength]
    refine h.abs_sub_le hu ?_ ?_
    · exact (abs_add_le _ _).trans (by linarith [abs_sum_le l])
    · rw [add_sub_add_right_eq_sub]
      have hx : 0 ≤ ((1 + u) ^ l.length - 1) * |x| := mul_nonneg hone (abs_nonneg x)
      linarith

/-- And the division does. -/
theorem abs_roundedMean_sub_le (hu : 0 ≤ u) (h : RoundsWithin u fl) {l : List α} (hl : l ≠ []) :
    |roundedMean fl l - l.sum / l.length| ≤
      ((1 + u) ^ (l.length + 1) - 1) * ((l.map abs).sum / l.length) := by
  have hpos : (0 : α) < l.length := by exact_mod_cast List.length_pos_iff.mpr hl
  rw [pow_succ']
  refine h.abs_sub_le hu ?_ ?_
  · rw [abs_div, abs_of_pos hpos]
    exact div_le_div_of_nonneg_right (abs_sum_le l) hpos.le
  · rw [← sub_div, abs_div, abs_of_pos hpos, ← mul_div_assoc]
    exact div_le_div_of_nonneg_right (abs_roundedSum_sub_le hu h l) hpos.le

end Error

end Bbench.Lib
