import Bbench.Perf.Events
import Bbench.Report.Emit

/-! Measurements with `-e`. `benchmark_bin_dynamic` reports one row for each event
of the list, in its order; `main` repeats it and prints a block for each path. -/

namespace Bbench.Report

open Perf

/-- An entry of `dynamic_result_t`. -/
structure Row where
  name : String
  value : ℤ
  err : ℕ
  deriving DecidableEq, Repr

structure DynamicResult where
  name : String := ""
  time : ℚ := 0
  rows : List Row := []
  deriving DecidableEq, Repr

/-- What the outside world decides about one run: how the kernel answers the open
of each counter, and the elapsed time. -/
structure RunEnv where
  answer : ℕ → PerfEventAttr → Outcome
  time : ℚ

section Bench
variable (fl : ℚ → ℚ)

/-- `benchmark_bin_dynamic`: member `i` is opened with the `i`-th prepared
attributes and read after the run. -/
def benchmarkBinDynamic (env : RunEnv) (s : String) (defs : List EventDef)
    (opts : BenchmarkOpts) : DynamicResult where
  name := s
  time := env.time
  rows := defs.mapIdx fun i d =>
    let o := env.answer i (d.prepared opts)
    ⟨d.name, dynamicRetrieve fl o, o.errno⟩

theorem rows_getElem? (env : RunEnv) (s : String) (defs : List EventDef) (opts : BenchmarkOpts)
    (i : ℕ) : (benchmarkBinDynamic fl env s defs opts).rows[i]? = defs[i]?.map fun d =>
      ⟨d.name, dynamicRetrieve fl (env.answer i (d.prepared opts)),
        (env.answer i (d.prepared opts)).errno⟩ := by
  simp only [benchmarkBinDynamic, List.getElem?_mapIdx]

end Bench

/-- The loop over the runs in `main`: each result is assigned over the one before. -/
def repeatRuns (nRuns : ℕ) (bench : ℕ → DynamicResult) : DynamicResult :=
  (List.range nRuns).foldl (fun _ r => bench r) {}

/-- The calls `main` makes for one row, up to the newline. -/
def rowLine (verbose : Bool) (row : Row) : List Emit :=
  [.str "  ", .str row.name, .str ": ", .int row.value] ++
    (if verbose && row.err ≠ 0 then
      [.str "  [open failed: errno=", .int row.err, .str "]"] else [])

/-- The lines `main` prints for one path. -/
def emitDynamic (verbose : Bool) (path : String) (res : DynamicResult) : List Emit :=
  [.str path, .str ": time(us)=", .double res.time, newline] ++
    res.rows.flatMap fun row => rowLine verbose row ++ [newline]

/-- After at least one run, only the last one is left. -/
theorem repeatRuns_succ (n : ℕ) (bench : ℕ → DynamicResult) :
    repeatRuns (n + 1) bench = bench n := by
  simp [repeatRuns, List.range_succ]

/-! ### Reading the report back -/

/-- The lines of a report. -/
def lines (report : List Emit) : List (List Emit) := report.splitOn newline

/-- The number printed after `time(us)=`. -/
def printedTime (report : List Emit) : Option ℚ :=
  match lines report with
  | [_, _, .double t] :: _ => some t
  | _ => none

/-- The number printed on a row's line. -/
def lineValue : List Emit → Option ℤ
  | _ :: _ :: _ :: .int v :: _ => some v
  | _ => none

/-- The numbers printed on the event rows, from the second line on. -/
def printedValues (report : List Emit) : List ℤ := (lines report).tail.filterMap lineValue

theorem newline_notMem_rowLine (verbose : Bool) (row : Row) : newline ∉ rowLine verbose row := by
  unfold rowLine newline
  split <;> simp

theorem lines_rows (verbose : Bool) (rows : List Row) :
    lines (rows.flatMap fun row => rowLine verbose row ++ [newline]) =
      rows.map (rowLine verbose) ++ [[]] := by
  induction rows with
  | nil => rfl
  | cons row rows ih =>
    rw [List.flatMap_cons, List.append_assoc, List.singleton_append, lines,
      List.splitOn_append_cons_self_of_not_mem (newline_notMem_rowLine verbose row)]
    exact congrArg (rowLine verbose row :: ·) ih

theorem lines_emitDynamic (verbose : Bool) (path : String) (res : DynamicResult) :
    lines (emitDynamic verbose path res) =
      [.str path, .str ": time(us)=", .double res.time] ::
        (res.rows.map (rowLine verbose) ++ [[]]) := by
  have hhead : newline ∉ [Emit.str path, .str ": time(us)=", .double res.time] := by
    simp [newline]
  rw [← lines_rows]
  exact List.splitOn_append_cons_self_of_not_mem hhead _

/-- The report shows the time of the result it was given. -/
theorem printedTime_emitDynamic (verbose : Bool) (path : String) (res : DynamicResult) :
    printedTime (emitDynamic verbose path res) = some res.time := by
  rw [printedTime, lines_emitDynamic]

/-- And one number a row, in order. -/
theorem printedValues_emitDynamic (verbose : Bool) (path : String) (res : DynamicResult) :
    printedValues (emitDynamic verbose path res) = res.rows.map Row.value := by
  have hrow : lineValue ∘ rowLine verbose = some ∘ Row.value := funext fun row => rfl
  rw [printedValues, lines_emitDynamic, List.tail_cons, List.filterMap_append,
    List.filterMap_map, hrow, List.filterMap_eq_map]
  simp [lineValue]

end Bbench.Report
