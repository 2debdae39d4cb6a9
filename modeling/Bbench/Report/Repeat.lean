import Bbench.Cli.Accepted
import Bbench.Report.Benchmark
import Bbench.Report.Dynamic

/-! Repetition with `-e`. The ordinary path averages its runs; the loop of the `-e`
branch assigns each result over the one before, so what it prints is the last run.
That is the mean of the runs for every outcome only when there is one run. -/

namespace Bbench.Report

open Perf Cli

variable (fl : ℚ → ℚ) (cli : CliOpts) (events : List EventDef) (path : String) (env : ℕ → RunEnv)

/-- The results of the runs of one path. -/
def runResults : List DynamicResult :=
  (List.range cli.nRuns).map fun r => benchmarkBinDynamic fl (env r) path events cli.benchOpts

/-- What the `-e` branch of `main` prints for one path. -/
def pathReport : List Emit :=
  emitDynamic cli.verbose path
    (repeatRuns cli.nRuns fun r => benchmarkBinDynamic fl (env r) path events cli.benchOpts)

/-- The `-e` branch of `main`, one block of output for each path; run `r` of path
number `p` finds `env p r`. Without `-e` the branch is not taken. -/
def mainDynamic (env : ℕ → ℕ → RunEnv) : List (List Emit) :=
  match cli.benchOpts.eventCsv with
  | some csv => cli.paths.mapIdx fun p path =>
    pathReport fl cli (parseEventList csv []).2 path (env p)
  | none => []

/-- The value of row `i`. -/
def DynamicResult.valueAt (i : ℕ) (res : DynamicResult) : ℤ := (res.rows[i]?.map Row.value).getD 0

/-- A report shows the means of the results, as `collapse_runs` should average them. -/
def PrintsMean (n : ℕ) (report : List Emit) (results : List DynamicResult) : Prop :=
  printedTime report = some (exactMean results DynamicResult.time) ∧
  printedValues report = (List.range n).map fun i => truncMean results (DynamicResult.valueAt i)

/-- A result that is the mean of the results. -/
def IsMean (n : ℕ) (res : DynamicResult) (results : List DynamicResult) : Prop :=
  res.time = exactMean results DynamicResult.time ∧
  ∀ i < n, res.valueAt i = truncMean results (DynamicResult.valueAt i)

variable {fl cli events path env}

theorem values_eq (events : List EventDef) (env : RunEnv) (opts : BenchmarkOpts) :
    (benchmarkBinDynamic fl env path events opts).rows.map Row.value =
      (List.range events.length).map fun i =>
        (benchmarkBinDynamic fl env path events opts).valueAt i := by
  apply List.ext_getElem?
  intro i
  by_cases hi : i < events.length
  · simp [rows_getElem?, DynamicResult.valueAt, hi]
  · simp [rows_getElem?, hi]

/-- The report shows the last run. -/
theorem printsMean_iff_last {n : ℕ} (hn : cli.nRuns = n + 1) :
    PrintsMean events.length (pathReport fl cli events path env)
      (runResults fl cli events path env) ↔
    IsMean events.length (benchmarkBinDynamic fl (env n) path events cli.benchOpts)
      (runResults fl cli events path env) := by
  have hlast : pathReport fl cli events path env = emitDynamic cli.verbose path
      (benchmarkBinDynamic fl (env n) path events cli.benchOpts) := by
    rw [pathReport, hn, repeatRuns_succ]
  rw [PrintsMean, IsMean, hlast, printedTime_emitDynamic, printedValues_emitDynamic, values_eq,
    Option.some.injEq, List.map_inj_left]
  simp only [List.mem_range]

theorem isMean_singleton (n : ℕ) (res : DynamicResult) : IsMean n res [res] :=
  ⟨by simp [exactMean], fun _ _ => by simp [truncMean]⟩

/-- Only the last of several runs takes time, so the last time is not the mean. -/
theorem exists_not_isMean (fl : ℚ → ℚ) (events : List EventDef) (path : String) {n : ℕ}
    (hn : cli.nRuns = n + 2) : ∃ env : ℕ → RunEnv,
      ¬ IsMean events.length (benchmarkBinDynamic fl (env (n + 1)) path events cli.benchOpts)
        (runResults fl cli events path env) := by
  refine ⟨fun r => ⟨fun _ _ => .failed 0, if r = n + 1 then 1 else 0⟩, fun h => ?_⟩
  have htime := h.1
  have hzero : ((List.range (n + 1)).map fun r => if r = n + 1 then (1 : ℚ) else 0).sum = 0 := by
    refine List.sum_eq_zero fun x hx => ?_
    obtain ⟨r, hr, rfl⟩ := List.mem_map.mp hx
    exact if_neg (Nat.ne_of_lt (List.mem_range.mp hr))
  have hsum : ((runResults fl cli events path fun r =>
      ⟨fun _ _ => .failed 0, if r = n + 1 then 1 else 0⟩).map DynamicResult.time).sum = 1 := by
    rw [runResults, hn, List.map_map, List.range_succ, List.map_append, List.sum_append]
    simpa [Function.comp_def, benchmarkBinDynamic] using hzero
  have hlength : (runResults fl cli events path fun r =>
      ⟨fun _ _ => .failed 0, if r = n + 1 then 1 else 0⟩).length = n + 2 := by
    simp [runResults, hn]
  have hlast : (benchmarkBinDynamic fl ⟨fun _ _ => .failed 0, if n + 1 = n + 1 then 1 else 0⟩ path
      events cli.benchOpts).time = 1 := if_pos rfl
  rw [exactMean, hsum, hlength, hlast, eq_comm, div_eq_one_iff_eq (by positivity)] at htime
  have hone : 1 = n + 2 := by exact_mod_cast htime
  omega

theorem mainDynamic_getElem? (fl : ℚ → ℚ) {csv : String} (hcsv : cli.benchOpts.eventCsv = some csv)
    (env : ℕ → ℕ → RunEnv) {p : ℕ} {path : String} (hpath : cli.paths[p]? = some path) :
    (mainDynamic fl cli env)[p]? =
      some (pathReport fl cli (parseEventList csv []).2 path (env p)) := by
  simp [mainDynamic, hcsv, hpath]

/-- When repetition with `-e` prints means. For an accepted command line with `-e`,
the runs of a path are reported by their means exactly when the last run is the
mean, and that holds for all outcomes of the runs exactly when there is one run. -/
theorem dynamic_mean_iff (fl : ℚ → ℚ) (argv : List String) (cli : CliOpts)
    (hargv : parseArgv argv = .ok cli) (csv : String) (hcsv : cli.benchOpts.eventCsv = some csv) :
    let events := (parseEventList csv []).2
    (∀ (env : ℕ → ℕ → RunEnv) p path report, cli.paths[p]? = some path →
      (mainDynamic fl cli env)[p]? = some report →
      (PrintsMean events.length report (runResults fl cli events path (env p)) ↔
        IsMean events.length
          (benchmarkBinDynamic fl (env p (cli.nRuns - 1)) path events cli.benchOpts)
          (runResults fl cli events path (env p)))) ∧
    ((∀ (env : ℕ → ℕ → RunEnv) p path report, cli.paths[p]? = some path →
      (mainDynamic fl cli env)[p]? = some report →
      PrintsMean events.length report (runResults fl cli events path (env p))) ↔
      cli.nRuns = 1) := by
  intro events
  have hpos := nRuns_pos hargv
  obtain ⟨n, hn⟩ : ∃ n, cli.nRuns = n + 1 := ⟨cli.nRuns - 1, by omega⟩
  have hiff (env : ℕ → ℕ → RunEnv) (p : ℕ) (path : String) (report : List Emit)
      (hpath : cli.paths[p]? = some path) (hreport : (mainDynamic fl cli env)[p]? = some report) :
      PrintsMean events.length report (runResults fl cli events path (env p)) ↔
        IsMean events.length
          (benchmarkBinDynamic fl (env p (cli.nRuns - 1)) path events cli.benchOpts)
          (runResults fl cli events path (env p)) := by
    rw [mainDynamic_getElem? fl hcsv env hpath, Option.some.injEq] at hreport
    rw [← hreport, printsMean_iff_last hn, hn, Nat.add_sub_cancel]
  refine ⟨hiff, fun h => ?_, fun hone env p path report hpath hreport => ?_⟩
  · by_contra hne
    obtain ⟨m, rfl⟩ : ∃ m, n = m + 1 := ⟨n - 1, by omega⟩
    obtain ⟨path, paths, hpaths⟩ := List.exists_cons_of_ne_nil (paths_ne_nil hargv)
    have hpath : cli.paths[0]? = some path := by rw [hpaths]; rfl
    obtain ⟨env, henv⟩ := exists_not_isMean fl events path hn
    have hreport := mainDynamic_getElem? fl hcsv (fun _ => env) hpath
    refine henv ?_
    have hlast : cli.nRuns - 1 = m + 1 := by omega
    rw [← hlast]
    exact (hiff (fun _ => env) 0 path _ hpath hreport).mp (h _ 0 path _ hpath hreport)
  · have hresults : runResults fl cli events path (env p) =
        [benchmarkBinDynamic fl (env p 0) path events cli.benchOpts] := by
      simp [runResults, hone]
    rw [hiff env p path report hpath hreport, hresults, hone]
    exact isMean_singleton _ _

/-- `-e cycles ls`, and the same with `-n 2`. -/
def once : CliOpts := { benchOpts := { eventCsv := some "cycles" }, paths := ["ls"] }
def twice : CliOpts := { once with nRuns := 2 }

/-- One run; and two runs of which the second counts and takes as much as the first. -/
theorem dynamic_mean_once :
    parseArgv ["bbench", "-e", "cycles", "ls"] = .ok once ∧
    parseArgv ["bbench", "-e", "cycles", "-n", "2", "ls"] = .ok twice ∧
    (∀ (env : ℕ → ℕ → RunEnv) p path report,
      ["ls"][p]? = some path → (mainDynamic id once env)[p]? = some report →
      PrintsMean (parseEventList "cycles" []).2.length report
        (runResults id once (parseEventList "cycles" []).2 path (env p))) ∧
    let env : ℕ → ℕ → RunEnv := fun _ _ => ⟨fun _ _ => .opened ⟨7, 1, 1⟩, 3⟩
    ∀ report, (mainDynamic id twice env)[0]? = some report →
      PrintsMean 1 report (runResults id twice (parseEventList "cycles" []).2 "ls" (env 0)) := by
  have hargv : parseArgv ["bbench", "-e", "cycles", "ls"] = .ok once := by decide
  have htwice : parseArgv ["bbench", "-e", "cycles", "-n", "2", "ls"] = .ok twice := by decide
  refine ⟨hargv, htwice, (dynamic_mean_iff id _ once hargv "cycles" rfl).2.mpr rfl, ?_⟩
  intro env report hreport
  have hiff := (dynamic_mean_iff id _ twice htwice "cycles" rfl).1 env 0 "ls" report rfl hreport
  refine hiff.mpr ?_
  unfold IsMean
  decide +kernel

/-- With `-n 2` the time of the second run is printed. -/
theorem not_dynamic_mean : ¬ ∀ (fl : ℚ → ℚ) argv cli csv, parseArgv argv = .ok cli →
    cli.benchOpts.eventCsv = some csv → ∀ (env : ℕ → ℕ → RunEnv) p path report,
    cli.paths[p]? = some path → (mainDynamic fl cli env)[p]? = some report →
    PrintsMean (parseEventList csv []).2.length report
      (runResults fl cli (parseEventList csv []).2 path (env p)) := by
  intro h
  have hargv : parseArgv ["bbench", "-e", "cycles", "-n", "2", "ls"] = .ok twice := by decide
  have hcsv : twice.benchOpts.eventCsv = some "cycles" := rfl
  have hpath : twice.paths[0]? = some "ls" := rfl
  have hruns : twice.nRuns = 0 + 2 := rfl
  obtain ⟨env, henv⟩ := exists_not_isMean id (parseEventList "cycles" []).2 "ls" hruns
  have hreport := mainDynamic_getElem? id hcsv (fun _ => env) hpath
  exact henv ((printsMean_iff_last hruns).mp
    (h id _ twice "cycles" hargv hcsv (fun _ => env) 0 "ls" _ hpath hreport))

end Bbench.Report
