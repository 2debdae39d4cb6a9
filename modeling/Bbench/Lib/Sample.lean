import Mathlib.Algebra.Order.Field.Basic
import Mathlib.Algebra.Order.BigOperators.Group.List
import Mathlib.Algebra.BigOperators.Ring.List
import Mathlib.Data.Rat.Defs
import Mathlib.Order.Bounds.Basic
import Mathlib.Tactic.FieldSimp
import Mathlib.Tactic.Ring
import Mathlib.Tactic.Linarith

/-! Summaries of a finite sample: the mean, the squared deviations from it, the
sample variance, and the ends of its range. -/

namespace Bbench.Lib

variable {K : Type*} [Field K]

def mean (l : List K) : K := l.sum / l.length

/-- The squared deviations from a centre. -/
def sqDev (c : K) (l : List K) : K := (l.map fun v => (v - c) ^ 2).sum

/-- The squared deviations from the mean over one less than the number of samples. -/
def sampleVariance (l : List K) : K := sqDev (mean l) l / (l.length - 1 : ℕ)

theorem sqDev_nil (c : K) : sqDev c [] = 0 := rfl

theorem sqDev_cons (c v : K) (l : List K) : sqDev c (v :: l) = (v - c) ^ 2 + sqDev c l := rfl

/-! ### Rearranged and shifted samples -/

theorem mean_perm {l l' : List K} (h : l.Perm l') : mean l = mean l' := by
  rw [mean, mean, h.sum_eq, h.length_eq]

theorem sampleVariance_perm {l l' : List K} (h : l.Perm l') :
    sampleVariance l = sampleVariance l' := by
  rw [sampleVariance, sampleVariance, mean_perm h, h.length_eq, sqDev, sqDev,
    (h.map _).sum_eq]

theorem sum_map_add (c : K) (l : List K) :
    (l.map fun v => v + c).sum = l.sum + l.length * c := by
  induction l with
  | nil => simp
  | cons v l ih =>
    rw [List.map_cons, List.sum_cons, ih, List.sum_cons, List.length_cons]
    push_cast
    ring

theorem sqDev_map_add (c m : K) (l : List K) :
    sqDev (m + c) (l.map fun v => v + c) = sqDev m l := by
  simp only [sqDev, List.map_map, Function.comp_def, add_sub_add_right_eq_sub]

variable [LinearOrder K] [IsStrictOrderedRing K]

theorem length_cast_pos {l : List K} (hl : l ≠ []) : (0 : K) < l.length :=
  Nat.cast_pos.mpr (List.length_pos_iff.mpr hl)

/-- The deviations from the mean cancel out. -/
theorem sum_sub_mean {l : List K} (hl : l ≠ []) : (l.map fun v => v - mean l).sum = 0 := by
  have hne := (length_cast_pos hl).ne'
  simp only [sub_eq_add_neg]
  rw [sum_map_add, mul_neg, mean, mul_div_cancel₀ _ hne, add_neg_cancel]

theorem mean_map_add (c : K) {l : List K} (hl : l ≠ []) :
    mean (l.map fun v => v + c) = mean l + c := by
  have hne := (length_cast_pos hl).ne'
  rw [mean, mean, sum_map_add, List.length_map, add_div, mul_div_cancel_left₀ c hne]

theorem sampleVariance_map_add (c : K) {l : List K} (hl : l ≠ []) :
    sampleVariance (l.map fun v => v + c) = sampleVariance l := by
  rw [sampleVariance, mean_map_add c hl, sqDev_map_add, List.length_map, sampleVariance]

/-! ### The mean between bounds -/

theorem mean_le {l : List K} (hl : l ≠ []) {b : K} (h : ∀ v ∈ l, v ≤ b) : mean l ≤ b := by
  rw [mean, div_le_iff₀ (length_cast_pos hl), mul_comm, ← nsmul_eq_mul]
  exact List.sum_le_card_nsmul l b h

theorem le_mean {l : List K} (hl : l ≠ []) {b : K} (h : ∀ v ∈ l, b ≤ v) : b ≤ mean l := by
  rw [mean, le_div_iff₀ (length_cast_pos hl), mul_comm, ← nsmul_eq_mul]
  exact List.card_nsmul_le_sum l b h

/-! ### The variance -/

theorem sqDev_nonneg (c : K) (l : List K) : 0 ≤ sqDev c l :=
  List.sum_nonneg (List.forall_mem_map.mpr fun _ _ => sq_nonneg _)

theorem sqDev_eq_zero_iff {c : K} {l : List K} : sqDev c l = 0 ↔ ∀ v ∈ l, v = c := by
  induction l with
  | nil => simp [sqDev_nil]
  | cons v l ih =>
    rw [sqDev_cons, add_eq_zero_iff_of_nonneg (sq_nonneg _) (sqDev_nonneg c l), ih,
      List.forall_mem_cons, sq_eq_zero_iff, sub_eq_zero]

theorem sampleVariance_nonneg (l : List K) : 0 ≤ sampleVariance l :=
  div_nonneg (sqDev_nonneg _ l) (Nat.cast_nonneg _)

/-- The variance of two or more samples vanishes when they are all the same. -/
theorem sampleVariance_eq_zero_iff {l : List K} (hl : 2 ≤ l.length) :
    sampleVariance l = 0 ↔ ∀ v ∈ l, ∀ v' ∈ l, v = v' := by
  have hne : l ≠ [] := List.length_pos_iff.mp (by omega)
  have hden : ((l.length - 1 : ℕ) : K) ≠ 0 := Nat.cast_ne_zero.mpr (by omega)
  rw [sampleVariance, div_eq_zero_iff, or_iff_left hden, sqDev_eq_zero_iff]
  refine ⟨fun h v hv v' hv' => (h v hv).trans (h v' hv').symm, fun h v hv => ?_⟩
  exact le_antisymm (le_mean hne fun v' hv' => (h v hv v' hv').le)
    (mean_le hne fun v' hv' => (h v' hv' v hv).le)

/-- No centre has smaller squared deviations than the mean. -/
theorem sqDev_mean_le {l : List K} (hl : l ≠ []) (c : K) : sqDev (mean l) l ≤ sqDev c l := by
  have hexpand : ∀ (c m : K) (l : List K),
      sqDev c l = sqDev m l + 2 * (m - c) * (l.sum - l.length * m) + l.length * (m - c) ^ 2 := by
    intro c m l
    induction l with
    | nil => simp [sqDev_nil]
    | cons v l ih =>
      rw [sqDev_cons, sqDev_cons, ih, List.sum_cons, List.length_cons]
      push_cast
      ring
  have hcentre : l.sum - l.length * mean l = 0 := by
    rw [mean, mul_div_cancel₀ _ (length_cast_pos hl).ne', sub_self]
  rw [hexpand c (mean l) l, hcentre, mul_zero, add_zero]
  exact le_add_of_nonneg_right (mul_nonneg (Nat.cast_nonneg _) (sq_nonneg _))

/-- The deviations from the middle of a range are at most half its width. -/
theorem sqDev_mid_le {lo hi : K} {l : List K} (h : ∀ v ∈ l, lo ≤ v ∧ v ≤ hi) :
    sqDev ((lo + hi) / 2) l ≤ l.length * ((hi - lo) / 2) ^ 2 := by
  rw [← nsmul_eq_mul, sqDev, ← List.length_map (f := fun v => (v - (lo + hi) / 2) ^ 2)]
  refine List.sum_le_card_nsmul _ _ (List.forall_mem_map.mpr fun v hv => ?_)
  obtain ⟨hlo, hhi⟩ := h v hv
  exact sq_le_sq' (by linarith) (by linarith)

/-- The variance of samples in a range is at most half the square of its width. -/
theorem sampleVariance_le {lo hi : K} {l : List K} (hl : 2 ≤ l.length)
    (h : ∀ v ∈ l, lo ≤ v ∧ v ≤ hi) : sampleVariance l ≤ (hi - lo) ^ 2 / 2 := by
  have hne : l ≠ [] := List.length_pos_iff.mp (by omega)
  have hden : (0 : K) < (l.length - 1 : ℕ) := Nat.cast_pos.mpr (by omega)
  have hcast : ((l.length - 1 : ℕ) : K) = l.length - 1 := by
    rw [Nat.cast_sub (by omega), Nat.cast_one]
  have htwo : (2 : K) ≤ l.length := by exact_mod_cast hl
  rw [sampleVariance, div_le_iff₀ hden]
  calc sqDev (mean l) l ≤ sqDev ((lo + hi) / 2) l := sqDev_mean_le hne _
    _ ≤ l.length * ((hi - lo) / 2) ^ 2 := sqDev_mid_le h
    _ ≤ (hi - lo) ^ 2 / 2 * (l.length - 1 : ℕ) := by
      rw [hcast]
      nlinarith [sq_nonneg (hi - lo)]

/-! ### The ends of the range -/

section Ends
variable {α : Type*} [LinearOrder α]

/-- A running minimum ends at the least of its first value and the samples. -/
theorem isLeast_foldl_min (l : List α) (a : α) :
    IsLeast {v | v ∈ a :: l} (l.foldl (fun m v => min v m) a) := by
  induction l generalizing a with
  | nil => simp [IsLeast, lowerBounds]
  | cons v l ih =>
    obtain ⟨hmem, hlow⟩ := ih (min v a)
    have hle : l.foldl (fun m v => min v m) (min v a) ≤ min v a := hlow List.mem_cons_self
    refine ⟨?_, fun w hw => ?_⟩
    · rcases List.mem_cons.mp hmem with heq | hin
      · rw [List.foldl_cons, heq]
        rcases min_choice v a with h | h <;> simp [h]
      · exact List.mem_cons_of_mem _ (List.mem_cons_of_mem _ hin)
    · rcases List.mem_cons.mp hw with rfl | hw
      · exact hle.trans (min_le_right v w)
      rcases List.mem_cons.mp hw with rfl | hw
      · exact hle.trans (min_le_left w a)
      · exact hlow (List.mem_cons_of_mem _ hw)

/-- And a running maximum at the greatest. -/
theorem isGreatest_foldl_max (l : List α) (a : α) :
    IsGreatest {v | v ∈ a :: l} (l.foldl (fun m v => max v m) a) :=
  isLeast_foldl_min (α := αᵒᵈ) l a

end Ends

end Bbench.Lib
