import Bbench.Lib.SelectionSort
import Bbench.Report.Benchmark

/-! The order of the paths in a report. `main` keeps one vector of runs for each path
and sorts them by the mean time of their runs. The vectors are moved, never copied. -/

namespace Bbench.Report

variable {β : Type*} [LinearOrder β]

/-- The loops of `sort_results` with the times in any order: `time` is
`collapse_runs(..).time`, and `husk` is what a move leaves in the vector moved from. -/
def sortResultsBy (time : List BenchmarkT → β) (husk : List BenchmarkT → List BenchmarkT)
    (v : List (List BenchmarkT)) : List (List BenchmarkT) :=
  Lib.selectionSort time husk v

/-- `sort_results`, with the means that `collapse_runs` computes. -/
def sortResults (ft : ℚ → ℚ) (husk : List BenchmarkT → List BenchmarkT)
    (v : List (List BenchmarkT)) : List (List BenchmarkT) :=
  sortResultsBy (fun runs => (collapseRuns ft runs).time) husk v

/-- Sorting keeps every vector of runs intact and orders them by their times, whatever
totally ordered values the times are. -/
theorem sortResults_sorted (ft : ℚ → ℚ) (time : List BenchmarkT → β)
    (husk : List BenchmarkT → List BenchmarkT) (v : List (List BenchmarkT)) :
    ((sortResults ft husk v).Perm v ∧ (sortResults ft husk v).Pairwise fun runs runs' =>
      (collapseRuns ft runs).time ≤ (collapseRuns ft runs').time) ∧
    (sortResultsBy time husk v).Perm v ∧
      (sortResultsBy time husk v).Pairwise fun runs runs' => time runs ≤ time runs' := by
  refine ⟨⟨?_, ?_⟩, ?_, ?_⟩
  · exact Lib.selectionSort_perm _ husk v
  · exact Lib.selectionSort_pairwise _ husk v
  · exact Lib.selectionSort_perm time husk v
  · exact Lib.selectionSort_pairwise time husk v

end Bbench.Report
