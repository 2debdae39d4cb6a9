import Bbench.Perf.Attr
import Mathlib.Data.Rat.Floor
import Mathlib.Tactic.Positivity

/-! What a counter reports. Three read paths turn the kernel's triple into a
number: `kernel_clock::read`, `dynamic_event::retrieve` and
`__td_event::retrieve_scaled`. Each scales a multiplexed value by the share of
time the counter ran, in `double` arithmetic: the exact result of each operation
is rounded by a function `fl`, which is the identity when the arithmetic is taken
to be exact. None of the paths looks at the options. -/

namespace Bbench.Perf

/-- `read_result`: three 64-bit words. -/
structure Reading where
  value : BitVec 64
  timeEnabled : BitVec 64
  timeRunning : BitVec 64
  deriving DecidableEq, Repr

/-- What the kernel does with one `perf_event_open`: an errno, or a descriptor
that will deliver this reading. -/
inductive Outcome
  | failed (errno : ℕ)
  | opened (r : Reading)
  deriving DecidableEq, Repr

/-- Rounding toward zero. -/
def truncate (q : ℚ) : ℤ := q.num.tdiv q.den

/-- `static_cast<long long>` of a floating value. Outside the range C++ promises
nothing; the conversion instruction then delivers the least integer. -/
def toLongLong (q : ℚ) : ℤ :=
  if -2 ^ 63 ≤ truncate q ∧ truncate q < 2 ^ 63 then truncate q else -2 ^ 63

section Paths
variable (fl : ℚ → ℚ)

/-- The common tail of the read paths. The cast of an unscaled value to
`long long` reads the same 64 bits as a signed number. -/
def scaledCount (r : Reading) : ℤ :=
  if r.timeRunning = 0 then 0
  else if r.timeRunning = r.timeEnabled then r.value.toInt
  else
    let scale := fl (fl r.timeEnabled.toNat / fl r.timeRunning.toNat)
    toLongLong (fl (fl r.value.toNat * scale))

/-- `kernel_clock::read`: a counter without a descriptor reads three zeros. -/
def kernelClockRead : Outcome → ℤ
  | .failed _ => scaledCount fl ⟨0, 0, 0⟩
  | .opened r => scaledCount fl r

/-- `dynamic_event::retrieve`: guarded by `valid`. -/
def dynamicRetrieve : Outcome → ℤ
  | .failed _ => 0
  | .opened r => scaledCount fl r

/-- `__td_event::retrieve_scaled`: guarded by the descriptor. -/
def retrieveScaled : Outcome → ℤ
  | .failed _ => 0
  | .opened r => scaledCount fl r

/-- The three paths report the same number for every outcome. -/
theorem dynamicRetrieve_eq (o : Outcome) : dynamicRetrieve fl o = kernelClockRead fl o := by
  cases o <;> rfl

theorem retrieveScaled_eq (o : Outcome) : retrieveScaled fl o = kernelClockRead fl o := by
  cases o <;> rfl

end Paths

/-- `last_errno` after the open. -/
def Outcome.errno : Outcome → ℕ
  | .failed e => e
  | .opened _ => 0

/-! ### Exact arithmetic -/

/-- What a reported count means under the `--no-scale` option. -/
def CountMeans (opts : BenchmarkOpts) (r : Reading) (n : ℤ) : Prop :=
  (opts.scale = false ∨ r.timeRunning = r.timeEnabled → n = r.value.toNat) ∧
  (opts.scale = true → r.timeRunning = 0 → n = 0) ∧
  (opts.scale = true → r.timeRunning ≠ 0 → r.timeRunning ≠ r.timeEnabled →
    n = ⌊(r.value.toNat : ℚ) * r.timeEnabled.toNat / r.timeRunning.toNat⌋)

/-- The readings that come out as they should: the scaled value fits in
`long long`, and with `--no-scale` scaling would not have changed it. -/
def Faithful (opts : BenchmarkOpts) (r : Reading) : Prop :=
  if r.timeRunning = 0 then (opts.scale = false ∨ r.timeEnabled = 0 → r.value = 0)
  else r.value.toNat * r.timeEnabled.toNat < 2 ^ 63 * r.timeRunning.toNat ∧
    (opts.scale = false →
      r.value.toNat * (r.timeEnabled.toNat - r.timeRunning.toNat) < r.timeRunning.toNat)

instance (opts : BenchmarkOpts) (r : Reading) : Decidable (Faithful opts r) := by
  unfold Faithful; infer_instance

theorem truncate_natDiv (a b : ℕ) : truncate ((a : ℚ) / b) = ((a / b : ℕ) : ℤ) := by
  have hnum : 0 ≤ ((a : ℚ) / b).num := Rat.num_nonneg.mpr (by positivity)
  rw [truncate, Int.tdiv_eq_ediv_of_nonneg hnum, ← Rat.floor_def', Rat.floor_natCast_div_natCast]
  rfl

theorem toLongLong_natDiv (a b : ℕ) :
    toLongLong ((a : ℚ) / b) = if a / b < 2 ^ 63 then ((a / b : ℕ) : ℤ) else -2 ^ 63 := by
  simp only [toLongLong, truncate_natDiv]
  generalize a / b = q
  split_ifs <;> omega

/-- The scaled value, as an integer division. -/
theorem scaledCount_scaled {r : Reading} (h0 : r.timeRunning ≠ 0)
    (he : r.timeRunning ≠ r.timeEnabled) :
    scaledCount id r = if r.value.toNat * r.timeEnabled.toNat / r.timeRunning.toNat < 2 ^ 63 then
      ((r.value.toNat * r.timeEnabled.toNat / r.timeRunning.toNat : ℕ) : ℤ) else -2 ^ 63 := by
  simp only [scaledCount, if_neg h0, if_neg he, id_eq]
  rw [← mul_div_assoc, ← Nat.cast_mul, toLongLong_natDiv]

theorem toInt_eq_toNat_iff (v : BitVec 64) : v.toInt = v.toNat ↔ v.toNat < 2 ^ 63 := by
  rw [BitVec.toInt_eq_toNat_cond]
  split_ifs <;> omega

/-- Where nothing is scaled, nothing is rounded. -/
theorem scaledCount_unscaled (fl fl' : ℚ → ℚ) {r : Reading}
    (h : r.timeRunning = 0 ∨ r.timeRunning = r.timeEnabled) :
    scaledCount fl r = scaledCount fl' r := by
  unfold scaledCount
  split_ifs with h0 he
  · rfl
  · rfl
  · exact absurd h (not_or.mpr ⟨h0, he⟩)

/-- A counter that was never multiplexed reports its raw value. -/
theorem scaledCount_of_eq {r : Reading} (h0 : r.timeRunning ≠ 0)
    (he : r.timeRunning = r.timeEnabled) : scaledCount id r = r.value.toInt := by
  rw [scaledCount, if_neg h0, if_pos he]

theorem toNat_ne_zero {v : BitVec 64} (h : v ≠ 0) : 0 < v.toNat := by
  have : v.toNat ≠ 0 := fun h0 => h (BitVec.eq_of_toNat_eq (by simpa using h0))
  omega

/-- Scaling leaves a value alone exactly when the time missed is small against it. -/
theorem mul_div_eq_self_iff {v e t : ℕ} (ht : 0 < t) (hte : t ≤ e) :
    v * e / t = v ↔ v * (e - t) < t := by
  have hsub : v * (e - t) = v * e - v * t := Nat.mul_sub v e t
  have hle : v * t ≤ v * e := Nat.mul_le_mul_left v hte
  have hsucc : (v + 1) * t = v * t + t := Nat.succ_mul v t
  rw [Nat.div_eq_iff ht]
  omega

section Means
variable {opts : BenchmarkOpts} {r : Reading}

/-- A counter that never ran reports 0. -/
theorem means_of_unread (h0 : r.timeRunning = 0) :
    CountMeans opts r (scaledCount id r) ↔ Faithful opts r := by
  have hv : (0 : ℤ) = r.value.toNat ↔ r.value = 0 := by
    rw [← BitVec.toNat_inj]
    simp only [BitVec.ofNat_eq_ofNat, BitVec.toNat_ofNat]
    omega
  have hs : scaledCount id r = 0 := if_pos h0
  simp only [CountMeans, Faithful, hs, hv, h0, if_true, ne_eq, not_true_eq_false,
    false_implies, implies_true, and_true, eq_comm (a := (0 : BitVec 64))]

/-- A counter that ran all the time it was enabled reports its raw value. -/
theorem means_of_unscaled (h0 : r.timeRunning ≠ 0) (he : r.timeRunning = r.timeEnabled) :
    CountMeans opts r (scaledCount id r) ↔ Faithful opts r := by
  have hpos := toNat_ne_zero h0
  have hmul : r.value.toNat * r.timeEnabled.toNat < 2 ^ 63 * r.timeRunning.toNat ↔
      r.value.toNat < 2 ^ 63 := by
    rw [he]
    exact Nat.mul_lt_mul_right (he ▸ hpos)
  have hsub : r.value.toNat * (r.timeEnabled.toNat - r.timeRunning.toNat) <
      r.timeRunning.toNat := by
    rw [he, Nat.sub_self, mul_zero]
    exact he ▸ hpos
  rw [CountMeans, Faithful, if_neg h0, hmul, scaledCount_of_eq h0 he, toInt_eq_toNat_iff]
  constructor
  · rintro ⟨hraw, -, -⟩
    exact ⟨hraw (.inr he), fun _ => hsub⟩
  · rintro ⟨hraw, -⟩
    exact ⟨fun _ => hraw, fun _ hz => absurd hz h0, fun _ _ hne => absurd he hne⟩

/-- A multiplexed counter reports its scaled value. -/
theorem means_of_scaled (h0 : r.timeRunning ≠ 0) (he : r.timeRunning ≠ r.timeEnabled)
    (hle : r.timeRunning.toNat ≤ r.timeEnabled.toNat) :
    CountMeans opts r (scaledCount id r) ↔ Faithful opts r := by
  have hpos := toNat_ne_zero h0
  have hfloor : ⌊(r.value.toNat : ℚ) * r.timeEnabled.toNat / r.timeRunning.toNat⌋ =
      ((r.value.toNat * r.timeEnabled.toNat / r.timeRunning.toNat : ℕ) : ℤ) := by
    rw [← Nat.cast_mul, Rat.floor_natCast_div_natCast]; rfl
  have hlt : r.value.toNat * r.timeEnabled.toNat < 2 ^ 63 * r.timeRunning.toNat ↔
      r.value.toNat * r.timeEnabled.toNat / r.timeRunning.toNat < 2 ^ 63 :=
    (Nat.div_lt_iff_lt_mul hpos).symm
  rw [CountMeans, Faithful, if_neg h0, scaledCount_scaled h0 he, hfloor, hlt,
    ← mul_div_eq_self_iff hpos hle]
  generalize r.value.toNat * r.timeEnabled.toNat / r.timeRunning.toNat = q
  cases opts.scale
  · simp only [he, or_false, true_implies, Bool.false_eq_true, false_implies, and_true]
    split_ifs <;> omega
  · simp only [he, h0, or_false, Bool.true_eq_false, false_implies, implies_true, true_implies,
      ne_eq, not_false_eq_true, true_and, and_true]
    split_ifs <;> omega

/-- A reading comes out as it should exactly when it is `Faithful`. -/
theorem scaledCount_means_iff (h : r.timeRunning ≤ r.timeEnabled) :
    CountMeans opts r (scaledCount id r) ↔ Faithful opts r := by
  by_cases h0 : r.timeRunning = 0
  · exact means_of_unread h0
  by_cases he : r.timeRunning = r.timeEnabled
  · exact means_of_unscaled h0 he
  · exact means_of_scaled h0 he h

end Means

end Bbench.Perf
