import Bbench.Lib.Newton
import Bbench.Lib.Sample

/-! `compute_stats`: mean, standard deviation and range over repeated runs, in exact
rational arithmetic. The square root is twelve Newton steps started at the variance,
which is a good root for variances near one and a poor one far from it. -/

namespace Bbench.Report

open Lib

structure StatsT where
  mean : ℚ
  stddev : ℚ
  mn : ℚ
  mx : ℚ
  deriving DecidableEq, Repr

/-- What the second half makes of the variance it has just stored in `stddev`. -/
def stddevOf (variance : ℚ) : ℚ :=
  let x := if 0 < variance then variance else 0
  if 0 < x then (newtonStep x)^[12] x else variance

section Compute
variable {α : Type*}

/-- The body of the first loop, on `sum`, `mn` and `mx`. -/
def statsStep (f : α → ℚ) : ℚ × ℚ × ℚ → α → ℚ × ℚ × ℚ
  | (sum, mn, mx), r => (sum + f r, if f r < mn then f r else mn, if mx < f r then f r else mx)

def computeStats (runs : List α) (f : α → ℚ) : StatsT :=
  match runs with
  | [] => ⟨0, 0, 0, 0⟩
  | first :: _ =>
    let (sum, mn, mx) := runs.foldl (statsStep f) (0, f first, f first)
    let mean := sum / runs.length
    let sq := runs.foldl (fun sq r => sq + (f r - mean) * (f r - mean)) 0
    ⟨mean, if 1 < runs.length then stddevOf (sq / (runs.length - 1 : ℕ)) else 0, mn, mx⟩

theorem foldl_statsStep (f : α → ℚ) (runs : List α) (sum mn mx : ℚ) :
    runs.foldl (statsStep f) (sum, mn, mx) = (sum + (runs.map f).sum,
      (runs.map f).foldl (fun m v => min v m) mn, (runs.map f).foldl (fun m v => max v m) mx) := by
  induction runs generalizing sum mn mx with
  | nil => simp
  | cons r runs ih =>
    rw [List.foldl_cons, statsStep, ih, List.map_cons, List.sum_cons, List.foldl_cons,
      List.foldl_cons, min_def_lt, max_comm (f r) mx, max_def_lt, add_assoc]

theorem foldl_sq (f : α → ℚ) (runs : List α) (c sq : ℚ) :
    runs.foldl (fun sq r => sq + (f r - c) * (f r - c)) sq = sq + sqDev c (runs.map f) := by
  induction runs generalizing sq with
  | nil => simp [sqDev_nil]
  | cons r runs ih => rw [List.foldl_cons, ih, List.map_cons, sqDev_cons, add_assoc, pow_two]

/-- The four results in terms of the samples. -/
theorem computeStats_spec {runs : List α} (hruns : runs ≠ []) (f : α → ℚ) :
    (computeStats runs f).mean = mean (runs.map f) ∧
    (computeStats runs f).stddev =
      (if 1 < runs.length then stddevOf (sampleVariance (runs.map f)) else 0) ∧
    IsLeast {v | v ∈ runs.map f} (computeStats runs f).mn ∧
    IsGreatest {v | v ∈ runs.map f} (computeStats runs f).mx := by
  obtain ⟨first, rest, rfl⟩ := List.exists_cons_of_ne_nil hruns
  have hends : ∀ v, v ∈ f first :: (first :: rest).map f ↔ v ∈ (first :: rest).map f := by
    simp
  have hleast := isLeast_foldl_min ((first :: rest).map f) (f first)
  have hgreatest := isGreatest_foldl_max ((first :: rest).map f) (f first)
  simp only [hends] at hleast hgreatest
  simp only [computeStats, foldl_statsStep, foldl_sq, zero_add, mean, sampleVariance,
    List.length_map]
  exact ⟨trivial, trivial, hleast, hgreatest⟩

/-! ### The laws of a summary -/

theorem stddevOf_zero : stddevOf 0 = 0 := by simp [stddevOf]

theorem stddevOf_of_pos {x : ℚ} (hx : 0 < x) : stddevOf x = (newtonStep x)^[12] x := by
  simp only [stddevOf, hx, if_true]

/-- A standard deviation is positive when its variance is. -/
theorem stddevOf_sign {x : ℚ} (hx : 0 ≤ x) : 0 ≤ stddevOf x ∧ (stddevOf x = 0 ↔ x = 0) := by
  rcases hx.eq_or_lt with rfl | hpos
  · simp [stddevOf_zero]
  · have hroot := iterate_newtonStep_pos hpos hpos 12
    rw [stddevOf_of_pos hpos]
    exact ⟨hroot.le, iff_of_false hroot.ne' hpos.ne'⟩

/-- The results are determined by what they are of the samples. -/
theorem computeStats_unique {runs : List α} (hruns : runs ≠ []) {f : α → ℚ} {s : StatsT}
    (hmean : mean (runs.map f) = s.mean)
    (hstddev : (if 1 < runs.length then stddevOf (sampleVariance (runs.map f)) else 0) = s.stddev)
    (hmn : IsLeast {v | v ∈ runs.map f} s.mn) (hmx : IsGreatest {v | v ∈ runs.map f} s.mx) :
    computeStats runs f = s := by
  obtain ⟨hmean', hstddev', hmn', hmx'⟩ := computeStats_spec hruns f
  cases s
  exact StatsT.mk.injEq .. ▸ ⟨hmean'.trans hmean, hstddev'.trans hstddev, hmn'.unique hmn,
    hmx'.unique hmx⟩

theorem computeStats_ends {runs : List α} (hruns : runs ≠ []) (f : α → ℚ) :
    (∃ r ∈ runs, f r = (computeStats runs f).mn) ∧ (∃ r ∈ runs, f r = (computeStats runs f).mx) ∧
      ∀ r ∈ runs, (computeStats runs f).mn ≤ f r ∧ f r ≤ (computeStats runs f).mx := by
  obtain ⟨-, -, hmn, hmx⟩ := computeStats_spec hruns f
  exact ⟨List.mem_map.mp hmn.1, List.mem_map.mp hmx.1, fun r hr =>
    ⟨hmn.2 (List.mem_map_of_mem hr), hmx.2 (List.mem_map_of_mem hr)⟩⟩

theorem computeStats_mean_mem {runs : List α} (hruns : runs ≠ []) (f : α → ℚ) :
    (computeStats runs f).mn ≤ (computeStats runs f).mean ∧
      (computeStats runs f).mean ≤ (computeStats runs f).mx := by
  obtain ⟨hmean, -, hmn, hmx⟩ := computeStats_spec hruns f
  have hne : runs.map f ≠ [] := fun h => hruns (List.map_eq_nil_iff.mp h)
  rw [hmean]
  exact ⟨le_mean hne fun v hv => hmn.2 hv, mean_le hne fun v hv => hmx.2 hv⟩

theorem computeStats_perm {runs runs' : List α} (hruns : runs ≠ []) (f : α → ℚ)
    (h : runs'.Perm runs) : computeStats runs' f = computeStats runs f := by
  obtain ⟨hmean, hstddev, hmn, hmx⟩ := computeStats_spec hruns f
  have hne : runs' ≠ [] := fun h' => hruns (h' ▸ h).nil_eq.symm
  have hmap : (runs'.map f).Perm (runs.map f) := h.map f
  have hmem : ∀ v, v ∈ runs'.map f ↔ v ∈ runs.map f := fun v => hmap.mem_iff
  refine computeStats_unique hne ((mean_perm hmap).trans hmean.symm) ?_ ?_ ?_
  · rw [hstddev, h.length_eq, sampleVariance_perm hmap]
  · simpa only [hmem] using hmn
  · simpa only [hmem] using hmx

theorem computeStats_shift {runs : List α} (hruns : runs ≠ []) (f : α → ℚ) (c : ℚ) :
    let s := computeStats runs f
    computeStats runs (fun r => f r + c) = ⟨s.mean + c, s.stddev, s.mn + c, s.mx + c⟩ := by
  obtain ⟨hmean, hstddev, hmn, hmx⟩ := computeStats_spec hruns f
  have hne : runs.map f ≠ [] := fun h => hruns (List.map_eq_nil_iff.mp h)
  have hmap : runs.map (fun r => f r + c) = (runs.map f).map fun v => v + c := by
    rw [List.map_map]; rfl
  refine computeStats_unique hruns ?_ ?_ ?_ ?_
  · rw [hmap, mean_map_add c hne, hmean]
  · rw [hmap, sampleVariance_map_add c hne, hstddev]
  · rw [hmap]
    exact ⟨List.mem_map.mpr ⟨_, hmn.1, rfl⟩, List.forall_mem_map.mpr fun v hv =>
      add_le_add_left (hmn.2 hv) c⟩
  · rw [hmap]
    exact ⟨List.mem_map.mpr ⟨_, hmx.1, rfl⟩, List.forall_mem_map.mpr fun v hv =>
      add_le_add_left (hmx.2 hv) c⟩

theorem computeStats_stddev {runs : List α} (hlen : 2 ≤ runs.length) (f : α → ℚ) :
    (computeStats runs f).stddev = stddevOf (sampleVariance (runs.map f)) := by
  have hruns : runs ≠ [] := List.length_pos_iff.mp (by omega)
  exact (computeStats_spec hruns f).2.1.trans (if_pos hlen)

/-- Means, ends and deviation of any runs: the order of the runs is immaterial; the ends
are attained and bound the samples and their mean; a shift moves all but the deviation;
the deviation vanishes on equal samples only, and no step of its iteration divides by
zero. -/
theorem computeStats_laws {runs : List α} (hruns : runs ≠ []) (f : α → ℚ) :
    (∀ runs', runs'.Perm runs → computeStats runs' f = computeStats runs f) ∧
    let s := computeStats runs f
    (s.mn ≤ s.mean ∧ s.mean ≤ s.mx) ∧
    ((∃ r ∈ runs, f r = s.mn) ∧ (∃ r ∈ runs, f r = s.mx) ∧ ∀ r ∈ runs, s.mn ≤ f r ∧ f r ≤ s.mx) ∧
    (∀ c, computeStats runs (fun r => f r + c) = ⟨s.mean + c, s.stddev, s.mn + c, s.mx + c⟩) ∧
    (2 ≤ runs.length →
      (0 ≤ s.stddev ∧ (s.stddev = 0 ↔ ∀ r ∈ runs, ∀ r' ∈ runs, f r = f r')) ∧
      let x := sampleVariance (runs.map f)
      0 < x → ∀ k, (newtonStep x)^[k] x ≠ 0) := by
  refine ⟨fun runs' => computeStats_perm hruns f, computeStats_mean_mem hruns f,
    computeStats_ends hruns f, computeStats_shift hruns f, fun hlen => ⟨?_, ?_⟩⟩
  · have hlen' : 2 ≤ (runs.map f).length := by rwa [List.length_map]
    obtain ⟨hnonneg, hzero⟩ := stddevOf_sign (sampleVariance_nonneg (runs.map f))
    rw [computeStats_stddev hlen, hzero, sampleVariance_eq_zero_iff hlen']
    exact ⟨hnonneg, by simp only [List.forall_mem_map]⟩
  · exact fun hx k => (iterate_newtonStep_pos hx hx k).ne'

/-- Three runs. -/
theorem computeStats_laws_three :
    (computeStats [3, 1, 2] fun v : ℚ => v) = computeStats [1, 2, 3] fun v : ℚ => v :=
  (computeStats_laws (List.cons_ne_nil 1 [2, 3]) fun v : ℚ => v).1 [3, 1, 2] (by decide)

/-! ### The accuracy of the deviation -/

/-- A root as accurate as asked for is inside the range of the samples. -/
theorem le_range_of_accurate {v sd w : ℚ} (hw : 0 ≤ w) (hv : v ≤ w ^ 2 / 2)
    (h : |sd ^ 2 - v| ≤ 1 / 10 ^ 6 * v) : sd ≤ w := by
  have habs := (abs_le.mp h).2
  refine le_of_sq_le_sq ?_ hw
  nlinarith

/-- For samples with variance `v`: the deviation is its root to one part in a million, and
inside the range of the samples. -/
def StatsT.Accurate (s : StatsT) (v : ℚ) : Prop :=
  |s.stddev ^ 2 - v| ≤ 1 / 10 ^ 6 * v ∧ s.stddev ≤ s.mx - s.mn

/-- The deviation is accurate exactly when the variance is zero or in the range of twelve
Newton steps. -/
theorem computeStats_accurate_iff {runs : List α} (hlen : 2 ≤ runs.length) (f : α → ℚ) :
    (computeStats runs f).Accurate (sampleVariance (runs.map f)) ↔
      sampleVariance (runs.map f) = 0 ∨
        (newtonRange 12 (1 / 10 ^ 6))⁻¹ ≤ ((sampleVariance (runs.map f) : ℚ) : ℝ) ∧
          ((sampleVariance (runs.map f) : ℚ) : ℝ) ≤ newtonRange 12 (1 / 10 ^ 6) := by
  set s := computeStats runs f
  set v := sampleVariance (runs.map f)
  have hruns : runs ≠ [] := List.length_pos_iff.mp (by omega)
  have hlen' : 2 ≤ (runs.map f).length := by rwa [List.length_map]
  have hv : 0 ≤ v := sampleVariance_nonneg _
  have hsd : s.stddev = stddevOf v := computeStats_stddev hlen f
  have hwidth : 0 ≤ s.mx - s.mn := by
    obtain ⟨hmn, hmx⟩ := computeStats_mean_mem hruns f
    exact sub_nonneg.mpr (hmn.trans hmx)
  rcases hv.eq_or_lt with hzero | hpos
  · rw [StatsT.Accurate, hsd, ← hzero, stddevOf_zero]
    simpa using hwidth
  have hhalf : v ≤ (s.mx - s.mn) ^ 2 / 2 :=
    sampleVariance_le hlen' (List.forall_mem_map.mpr (computeStats_ends hruns f).2.2)
  have hcast : |s.stddev ^ 2 - v| ≤ 1 / 10 ^ 6 * v ↔
      |(newtonStep (v : ℝ))^[12] v ^ 2 - v| ≤ 1 / 10 ^ 6 * v := by
    rw [hsd, stddevOf_of_pos hpos, ← cast_iterate_newtonStep, ← Rat.cast_le (K := ℝ)]
    push_cast
    rfl
  rw [StatsT.Accurate, and_iff_left_of_imp (le_range_of_accurate hwidth hhalf),
    or_iff_right hpos.ne', hcast]
  exact iterate_newtonStep_accurate_iff (by norm_num) 12 (by exact_mod_cast hpos) (by decide)

/-- The variance of the three runs is one. -/
theorem computeStats_accurate_iff_three :
    (computeStats [0, 1, 2] fun v : ℚ => v).Accurate (sampleVariance [0, 1, 2]) := by
  have hone : sampleVariance ([0, 1, 2].map fun v : ℚ => v) = 1 := by decide +kernel
  have hrange := one_le_newtonRange (ε := 1 / 10 ^ 6) (by norm_num) 12
  have hlen : 2 ≤ [(0 : ℚ), 1, 2].length := by decide
  refine (computeStats_accurate_iff hlen fun v : ℚ => v).mpr (.inr ?_)
  rw [hone, Rat.cast_one]
  exact ⟨inv_le_one_of_one_le₀ hrange, hrange⟩

/-- Two runs two seconds apart: the deviation is over four hundred seconds. -/
theorem not_computeStats_accurate :
    let s := computeStats [0, 2000000] fun v : ℚ => v
    let v := sampleVariance [(0 : ℚ), 2000000]
    ¬ |s.stddev ^ 2 - v| ≤ 1 / 10 ^ 6 * v ∧ ¬ s.stddev ≤ s.mx - s.mn := by
  intro s v
  have hv : v = 2000000000000 := by decide +kernel
  have hmn : s.mn = 0 := by decide +kernel
  have hmx : s.mx = 2000000 := by decide +kernel
  have hpos : 0 < v := by rw [hv]; norm_num
  have hsd : v / 2 ^ 12 ≤ s.stddev := by
    have hlen : 2 ≤ [(0 : ℚ), 2000000].length := by decide
    have hroot : s.stddev = stddevOf v := computeStats_stddev hlen _
    rw [hroot, stddevOf_of_pos hpos]
    exact iterate_newtonStep_ge hpos hpos 12
  rw [hv] at hsd ⊢
  norm_num at hsd
  constructor
  · intro h
    nlinarith [(abs_le.mp h).2]
  · rw [hmn, hmx]
    linarith

end Compute

end Bbench.Report
