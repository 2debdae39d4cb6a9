import Bbench.Report.Columns
import Mathlib.Data.Int.Log
import Mathlib.Data.Rat.Floor

/-! The average over the runs of one path. `collapse_runs` pairs each counter with
itself: the columns of the highest detail level are all the counters `collect` fills,
and under each of them stands the truncated mean of that counter over the runs. The time
is their mean as far as `double` arithmetic goes: three runs of a tenth of a microsecond
take a little more than that on average. -/

namespace Bbench.Report

open Perf

section Mean
variable {α : Type*} {v : List α}

theorem truncMean_perm {v' : List α} (h : v'.Perm v) (f : α → ℤ) :
    truncMean v' f = truncMean v f := by
  rw [truncMean, truncMean, (h.map f).sum_eq, h.length_eq]

theorem exactMean_perm {v' : List α} (h : v'.Perm v) (f : α → ℚ) :
    exactMean v' f = exactMean v f := by
  rw [exactMean, exactMean, (h.map f).sum_eq, h.length_eq]

theorem truncMean_replicate (k : ℕ) (b : α) (f : α → ℤ) :
    truncMean (List.replicate (k + 1) b) f = f b := by
  rw [truncMean, List.map_replicate, List.length_replicate]
  exact Lib.tdiv_replicate k (f b)

theorem exactMean_replicate (k : ℕ) (b : α) (f : α → ℚ) :
    exactMean (List.replicate (k + 1) b) f = f b := by
  have hne : ((k + 1 : ℕ) : ℚ) ≠ 0 := by positivity
  rw [exactMean, List.map_replicate, List.length_replicate, List.sum_replicate,
    nsmul_eq_mul, mul_div_cancel_left₀ _ hne]

/-- Some run has at most the mean, and some at least. -/
theorem truncMean_between (hv : v ≠ []) (f : α → ℤ) :
    (∃ b ∈ v, f b ≤ truncMean v f) ∧ ∃ b ∈ v, truncMean v f ≤ f b := by
  have hne : v.map f ≠ [] := by simpa using hv
  have hlow := Lib.exists_le_tdiv hne
  have hhigh := Lib.exists_ge_tdiv hne
  rw [List.length_map] at hlow hhigh
  rw [truncMean]
  constructor
  · obtain ⟨x, hx, hle⟩ := hlow
    obtain ⟨b, hb, rfl⟩ := List.mem_map.mp hx
    exact ⟨b, hb, hle⟩
  · obtain ⟨x, hx, hle⟩ := hhigh
    obtain ⟨b, hb, rfl⟩ := List.mem_map.mp hx
    exact ⟨b, hb, hle⟩

end Mean

section Collapse
variable {ft : ℚ → ℚ} {runs : List BenchmarkT}

/-- The times of the runs, averaged without rounding. -/
theorem time_collapseRuns_of_unrounded (hruns : runs ≠ [])
    (h : Lib.Unrounded ft (runs.map BenchmarkT.time)) :
    (collapseRuns ft runs).time = exactMean runs BenchmarkT.time := by
  rw [time_collapseRuns ft hruns, avgDouble_of_unrounded h]

/-- The counters of the runs, with sums in range. -/
theorem column_collapseRuns_of_fits (ft : ℚ → ℚ) (hruns : runs ≠ []) {c : Column}
    (hc : c ∈ columns 3) (hfit : Lib.FitsWord 64 (runs.map c.field).sum) :
    c.field (collapseRuns ft runs) = truncMean runs c.field := by
  rw [columns_collapseRuns ft hruns c hc, avgInt_eq runs hfit]

/-- A result has no counter outside the columns. -/
theorem BenchmarkT.ext_columns {a b : BenchmarkT} (hname : a.name = b.name)
    (htime : a.time = b.time) (h : ∀ c ∈ columns 3, c.field a = c.field b) : a = b := by
  cases a
  cases b
  simp only [columns, columnsD1, columnsD2, columnsD3, List.cons_append, List.nil_append,
    List.forall_mem_cons, List.not_mem_nil, false_imp_iff, implies_true, and_true] at h hname htime
  simp only [BenchmarkT.mk.injEq]
  grind

/-- Copies of one run have its name and its counters, and its time when nothing rounds. -/
theorem collapseRuns_replicate (ft : ℚ → ℚ) (k : ℕ) {b : BenchmarkT}
    (hfit : ∀ c ∈ columns 3,
      Lib.FitsWord 64 ((List.replicate (k + 1) b).map c.field).sum) :
    (collapseRuns ft (List.replicate (k + 1) b)).name = b.name ∧
    (∀ c ∈ columns 3, c.field (collapseRuns ft (List.replicate (k + 1) b)) = c.field b) ∧
    (Lib.Unrounded ft ((List.replicate (k + 1) b).map BenchmarkT.time) →
      collapseRuns ft (List.replicate (k + 1) b) = b) := by
  have hne : List.replicate (k + 1) b ≠ [] := by simp
  have hcolumn (c : Column) (hc : c ∈ columns 3) :
      c.field (collapseRuns ft (List.replicate (k + 1) b)) = c.field b := by
    rw [column_collapseRuns_of_fits ft hne hc (hfit c hc), truncMean_replicate]
  refine ⟨rfl, hcolumn, fun hexact => BenchmarkT.ext_columns rfl ?_ hcolumn⟩
  rw [time_collapseRuns_of_unrounded hne hexact, exactMean_replicate]

/-- The average over the runs of one path, when no sum of counts leaves `long long`. Every
counter that `collect` fills is the truncated mean of itself over the runs, whatever their
order. The time is their mean up to rounding: exact when no operation rounds, and otherwise
off by no more than the errors of one operation for each run and of the division. Copies of
one run have its counters, and are that run again when no operation rounds. -/
theorem collapseRuns_mean (ft : ℚ → ℚ) (hruns : runs ≠ [])
    (hfit : ∀ c ∈ columns 3, Lib.FitsWord 64 (runs.map c.field).sum) :
    (∀ c ∈ columns 3,
      c.field (collapseRuns ft runs) = (runs.map c.field).sum.tdiv runs.length ∧
      (∃ b ∈ runs, c.field b ≤ c.field (collapseRuns ft runs)) ∧
      (∃ b ∈ runs, c.field (collapseRuns ft runs) ≤ c.field b) ∧
      ((∀ b ∈ runs, 0 ≤ c.field b) → ∀ k, Lib.FitsWord 64 ((runs.map c.field).take k).sum)) ∧
    (Lib.Unrounded ft (runs.map BenchmarkT.time) →
      (collapseRuns ft runs).time = (runs.map BenchmarkT.time).sum / runs.length) ∧
    (∀ u, 0 ≤ u → Lib.RoundsWithin u ft →
      |(collapseRuns ft runs).time - (runs.map BenchmarkT.time).sum / runs.length| ≤
        ((1 + u) ^ (runs.length + 1) - 1) * ((runs.map fun b => |b.time|).sum / runs.length)) ∧
    (∀ runs' : List BenchmarkT, runs'.Perm runs →
      (∀ c ∈ columns 3, c.field (collapseRuns ft runs') = c.field (collapseRuns ft runs)) ∧
      (Lib.Unrounded ft (runs.map BenchmarkT.time) →
        Lib.Unrounded ft (runs'.map BenchmarkT.time) →
        (collapseRuns ft runs').time = (collapseRuns ft runs).time)) ∧
    ∀ fl kernel name time gr,
      runs = List.replicate runs.length (collect fl kernel name time gr) →
      (collapseRuns ft runs).name = name ∧
      (∀ c ∈ columns 3,
        c.field (collapseRuns ft runs) = c.field (collect fl kernel name time gr)) ∧
      (Lib.Unrounded ft (runs.map BenchmarkT.time) →
        collapseRuns ft runs = collect fl kernel name time gr) := by
  have hmean (c : Column) (hc : c ∈ columns 3) :=
    column_collapseRuns_of_fits ft hruns hc (hfit c hc)
  refine ⟨fun c hc => ?_, time_collapseRuns_of_unrounded hruns, fun u hu hround => ?_,
    fun runs' hperm => ?_, fun fl kernel name time gr hcopies => ?_⟩
  · have hbetween := truncMean_between hruns c.field
    rw [← hmean c hc] at hbetween
    refine ⟨hmean c hc, hbetween.1, hbetween.2, fun hpos k => ?_⟩
    refine Lib.fitsWord_take ?_ (hfit c hc) k
    simpa using hpos
  · have hne : runs.map BenchmarkT.time ≠ [] := by simpa using hruns
    have herror := Lib.abs_roundedMean_sub_le hu hround hne
    rw [List.length_map, List.map_map] at herror
    rw [time_collapseRuns ft hruns, avgDouble_eq]
    exact herror
  · have hruns' : runs' ≠ [] := by
      rintro rfl
      exact hruns hperm.nil_eq.symm
    constructor
    · intro c hc
      have hfit' : Lib.FitsWord 64 (runs'.map c.field).sum := by
        rw [(hperm.map c.field).sum_eq]
        exact hfit c hc
      rw [hmean c hc, column_collapseRuns_of_fits ft hruns' hc hfit', truncMean_perm hperm]
    · intro hexact hexact'
      rw [time_collapseRuns_of_unrounded hruns hexact,
        time_collapseRuns_of_unrounded hruns' hexact', exactMean_perm hperm]
  · obtain ⟨k, hk⟩ := Nat.exists_eq_succ_of_ne_zero fun h => hruns (List.length_eq_zero_iff.mp h)
    rw [hk] at hcopies
    rw [hcopies] at hfit ⊢
    exact collapseRuns_replicate ft k hfit

end Collapse

/-- Two runs of three and of four cycles, in exact arithmetic. -/
theorem collapseRuns_mean_two :
    let runs : List BenchmarkT := [{ cycles := 3, time := 1 }, { cycles := 4, time := 2 }]
    (collapseRuns id runs).cycles = (3 + (4 + 0) : ℤ).tdiv 2 ∧
      (collapseRuns id runs).time = (1 + (2 + 0)) / 2 := by
  intro runs
  have hruns : runs ≠ [] := by simp [runs]
  obtain ⟨hcolumn, htime, -⟩ := collapseRuns_mean id hruns (by decide +kernel)
  have hcycles := hcolumn ⟨"cycles", "cycles", hardwareCycles, BenchmarkT.cycles⟩
    (by simp [columns, columnsD1])
  exact ⟨hcycles.1, htime ⟨fun _ _ => rfl, rfl⟩⟩

/-- The nearest integer, the even one of two. -/
def roundHalfEven (q : ℚ) : ℤ :=
  if q - ⌊q⌋ < 1 / 2 then ⌊q⌋
  else if 1 / 2 < q - ⌊q⌋ then ⌊q⌋ + 1
  else if ⌊q⌋ % 2 = 0 then ⌊q⌋ else ⌊q⌋ + 1

/-- The nearest `double` of a number in the normal range, with 53 significant bits. -/
def roundDouble (q : ℚ) : ℚ :=
  let ulp : ℚ := 2 ^ (Int.log 2 |q| - 52)
  roundHalfEven (q / ulp) * ulp

/-- A run of so many tenths of a microsecond, as a `double` has them. -/
def tenths (n : ℕ) : BenchmarkT :=
  collect id (fun _ => .failed 2) "./a" (roundDouble (n / 10)) []

/-- In `double` arithmetic three runs of a tenth of a microsecond are not that run again, nor
is their time the exact mean; and one, two and three tenths are averaged otherwise backwards. -/
theorem not_collapseRuns_mean :
    let runs := [tenths 1, tenths 1, tenths 1]
    (∀ c ∈ columns 3, Lib.FitsWord 64 (runs.map c.field).sum) ∧
    (∀ n ∈ [1, 2, 3], roundDouble (tenths n).time = (tenths n).time) ∧
    (collapseRuns roundDouble runs).time ≠ (runs.map BenchmarkT.time).sum / 3 ∧
    collapseRuns roundDouble runs ≠ tenths 1 ∧
    (collapseRuns roundDouble [tenths 1, tenths 2, tenths 3]).time ≠
      (collapseRuns roundDouble [tenths 3, tenths 2, tenths 1]).time := by
  intro runs
  refine ⟨by decide +kernel, by decide +kernel, by decide +kernel, fun hcopy => ?_,
    by decide +kernel⟩
  have htime : (collapseRuns roundDouble runs).time = (tenths 1).time := congrArg _ hcopy
  exact absurd htime (by decide +kernel)

end Bbench.Report
