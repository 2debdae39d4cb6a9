import Mathlib.Algebra.Order.BigOperators.Group.List
import Mathlib.Algebra.Order.Ring.Int
import Mathlib.Data.Int.Init
import Mathlib.Tactic.Linarith

/-! Means of integers as a machine computes them: the sum is kept in a word, and the
quotient is truncated. When the exact sum is in the range of the word, what the word
ends with is the exact sum, and the quotient lies between the least and the greatest
summand. -/

namespace Bbench.Lib

variable {w : ℕ}

/-- The range of a signed word. -/
def FitsWord (w : ℕ) (x : ℤ) : Prop := -2 ^ (w - 1) ≤ x ∧ x < 2 ^ (w - 1)

instance (w : ℕ) (x : ℤ) : Decidable (FitsWord w x) :=
  inferInstanceAs (Decidable (-2 ^ (w - 1) ≤ x ∧ x < 2 ^ (w - 1)))

/-- A running sum in a word. -/
def wordSum (w : ℕ) (l : List ℤ) : BitVec w := l.foldl (fun sum x => sum + BitVec.ofInt w x) 0

theorem foldl_ofInt (l : List ℤ) (a : ℤ) :
    l.foldl (fun sum x => sum + BitVec.ofInt w x) (BitVec.ofInt w a) =
      BitVec.ofInt w (a + l.sum) := by
  induction l generalizing a with
  | nil => simp
  | cons x l ih =>
    rw [List.foldl_cons, ← BitVec.ofInt_add, ih, List.sum_cons, add_assoc]

theorem wordSum_eq (l : List ℤ) : wordSum w l = BitVec.ofInt w l.sum := by
  have h := foldl_ofInt (w := w) l 0
  rwa [zero_add] at h

/-- A number in range goes through the word unchanged. -/
theorem toInt_ofInt (hw : 0 < w) {x : ℤ} (h : FitsWord w x) : (BitVec.ofInt w x).toInt = x := by
  obtain ⟨m, rfl⟩ : ∃ m, w = m + 1 := ⟨w - 1, by omega⟩
  obtain ⟨hlow, hhigh⟩ := h
  rw [Nat.add_sub_cancel] at hlow hhigh
  have hpow : ((2 ^ (m + 1) : ℕ) : ℤ) = 2 * 2 ^ m := by
    push_cast
    exact pow_succ' 2 m
  rw [BitVec.toInt_ofInt]
  apply Int.bmod_eq_of_le <;> omega

/-- Only the exact sum has to fit. -/
theorem toInt_wordSum (hw : 0 < w) {l : List ℤ} (h : FitsWord w l.sum) :
    (wordSum w l).toInt = l.sum := by
  rw [wordSum_eq, toInt_ofInt hw h]

/-- The running sums of non-negative summands are in range with the last of them. -/
theorem fitsWord_take {l : List ℤ} (hpos : ∀ x ∈ l, 0 ≤ x) (h : FitsWord w l.sum) (k : ℕ) :
    FitsWord w (l.take k).sum := by
  have hsplit : (l.take k).sum + (l.drop k).sum = l.sum := by
    rw [← List.sum_append, List.take_append_drop]
  have htake : 0 ≤ (l.take k).sum :=
    List.sum_nonneg fun x hx => hpos x (List.mem_of_mem_take hx)
  have hdrop : 0 ≤ (l.drop k).sum :=
    List.sum_nonneg fun x hx => hpos x (List.mem_of_mem_drop hx)
  have hpow : (0 : ℤ) ≤ 2 ^ (w - 1) := by positivity
  constructor
  · linarith
  · linarith [h.2]

/-! ### The truncated quotient -/

theorem le_tdiv {lo s n : ℤ} (hn : 0 < n) (h : lo * n ≤ s) : lo ≤ s.tdiv n := by
  rcases le_or_gt 0 s with hs | hs
  · rw [Int.tdiv_eq_ediv_of_nonneg hs]
    exact (Int.le_ediv_iff_mul_le hn).mpr h
  · have hneg : (-s) / n ≤ -lo := by
      have hle : -s ≤ -lo * n := by linarith
      calc (-s) / n ≤ (-lo * n) / n := Int.ediv_le_ediv hn hle
        _ = -lo := Int.mul_ediv_cancel _ (ne_of_gt hn)
    have heq : s.tdiv n = -((-s) / n) := by
      rw [← Int.tdiv_eq_ediv_of_nonneg (by omega), Int.neg_tdiv, neg_neg]
    omega

theorem tdiv_le {hi s n : ℤ} (hn : 0 < n) (h : s ≤ hi * n) : s.tdiv n ≤ hi := by
  have hle : -hi * n ≤ -s := by linarith
  have hneg := le_tdiv hn hle
  rw [Int.neg_tdiv] at hneg
  omega

section Mean
variable {l : List ℤ}

theorem length_pos_int (hl : l ≠ []) : (0 : ℤ) < l.length := by
  exact_mod_cast List.length_pos_iff.mpr hl

/-- Some summand is at most the mean. -/
theorem exists_le_tdiv (hl : l ≠ []) : ∃ x ∈ l, x ≤ l.sum.tdiv l.length := by
  by_contra hnone
  push Not at hnone
  have hsum := List.card_nsmul_le_sum l (l.sum.tdiv l.length + 1) fun x hx => hnone x hx
  rw [nsmul_eq_mul, mul_comm] at hsum
  have hle := le_tdiv (length_pos_int hl) hsum
  omega

/-- And some is at least the mean. -/
theorem exists_ge_tdiv (hl : l ≠ []) : ∃ x ∈ l, l.sum.tdiv l.length ≤ x := by
  by_contra hnone
  push Not at hnone
  have hsum := List.sum_le_card_nsmul l (l.sum.tdiv l.length - 1) fun x hx => by
    have hlt := hnone x hx
    omega
  rw [nsmul_eq_mul, mul_comm] at hsum
  have hle := tdiv_le (length_pos_int hl) hsum
  omega

end Mean

/-- Equal summands are their own mean. -/
theorem tdiv_replicate (k : ℕ) (x : ℤ) :
    (List.replicate (k + 1) x).sum.tdiv ((k + 1 : ℕ) : ℤ) = x := by
  rw [List.sum_replicate, nsmul_eq_mul, mul_comm]
  exact Int.mul_tdiv_cancel x (by omega)

end Bbench.Lib
