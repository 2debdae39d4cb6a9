import Bbench.Cli.Argv
import Bbench.Lib.Separated
import Bbench.Report.Columns
import Bbench.Report.Metrics

/-! The operands of the derived metrics. A metric divides two members of the average
over the runs. Each member is filled from a counter when the group of the detail
level has it and stays zero otherwise, so that a metric is the quotient of two
measured averages exactly when the group has both of its counters. All that is for runs
whose counts can be summed: where a sum leaves `long long` no average is promised at all. -/

namespace Bbench.Report

open Perf Cli

/-- A counter of the static groups with the member of `benchmark_t` that it fills. -/
structure Counter where
  event : Event
  field : BenchmarkT → ℤ
  collect_field : ∀ fl kernel name time gr,
    field (collect fl kernel name time gr) = collected fl kernel gr event := by intros; rfl
  collapse_field : ∀ ft b bs, field (collapseRuns ft (b :: bs)) = avgInt (b :: bs) field := by
    intros; rfl

namespace Counter

def cycles : Counter := { event := hardwareCycles, field := BenchmarkT.cycles }
def instructions : Counter := { event := hardwareInstructions, field := BenchmarkT.instructions }
def branchMisses : Counter := { event := Perf.branchMisses, field := BenchmarkT.branchMisses }
def totalBranches : Counter := { event := branches, field := BenchmarkT.totalBranches }
def cacheMisses : Counter := { event := Perf.cacheMisses, field := BenchmarkT.cacheMisses }
def l1Cache : Counter := { event := level1d, field := BenchmarkT.l1Cache }
def stalledFront : Counter := { event := Perf.stalledFront, field := BenchmarkT.stalledFront }
def stalledBack : Counter := { event := Perf.stalledBack, field := BenchmarkT.stalledBack }
def l1dMiss : Counter := { event := level1dMiss, field := BenchmarkT.l1dMiss }
def l1tMiss : Counter := { event := level1tMiss, field := BenchmarkT.l1tMiss }
def l1tCache : Counter := { event := level1t, field := BenchmarkT.l1tCache }
def llcacheMiss : Counter := { event := Perf.llcacheMiss, field := BenchmarkT.llcacheMiss }
def llCache : Counter := { event := llcache, field := BenchmarkT.llCache }
def dtlbMiss : Counter := { event := Perf.dtlbMiss, field := BenchmarkT.dtlbMiss }
def dtlbAccess : Counter := { event := Perf.dtlbAccess, field := BenchmarkT.dtlbAccess }
def itlbMiss : Counter := { event := Perf.itlbMiss, field := BenchmarkT.itlbMiss }
def itlbAccess : Counter := { event := Perf.itlbAccess, field := BenchmarkT.itlbAccess }

end Counter

/-- What a metric divides. -/
inductive Operand
  | counter (c : Counter)
  /-- The elapsed time, in whole nanoseconds. -/
  | elapsed

/-- The number an operand has in a result. -/
def Operand.value (b : BenchmarkT) : Operand → ℤ
  | counter c => c.field b
  | elapsed => toLongLong (b.time * 1000)

/-- The operand is measured at this level of detail. -/
def Operand.CollectedAt (detail : ℕ) : Operand → Prop
  | counter c => c.event ∈ eventGroup detail
  | elapsed => True

instance (detail : ℕ) : (o : Operand) → Decidable (o.CollectedAt detail)
  | .counter c => inferInstanceAs (Decidable (c.event ∈ eventGroup detail))
  | .elapsed => inferInstanceAs (Decidable True)

structure MetricOperands where
  name : String
  num : Operand
  den : Operand

def metricOperands : List MetricOperands :=
  [⟨"ipc", .counter .instructions, .counter .cycles⟩,
    ⟨"cpi", .counter .cycles, .counter .instructions⟩,
    ⟨"branch-miss-rate", .counter .branchMisses, .counter .totalBranches⟩,
    ⟨"cache-miss-rate", .counter .cacheMisses, .counter .l1Cache⟩,
    ⟨"frontend-stall-rate", .counter .stalledFront, .counter .cycles⟩,
    ⟨"backend-stall-rate", .counter .stalledBack, .counter .cycles⟩,
    ⟨"l1d-miss-rate", .counter .l1dMiss, .counter .l1Cache⟩,
    ⟨"l1i-miss-rate", .counter .l1tMiss, .counter .l1tCache⟩,
    ⟨"llc-miss-rate", .counter .llcacheMiss, .counter .llCache⟩,
    ⟨"dtlb-miss-rate", .counter .dtlbMiss, .counter .dtlbAccess⟩,
    ⟨"itlb-miss-rate", .counter .itlbMiss, .counter .itlbAccess⟩,
    ⟨"ghz", .counter .cycles, .elapsed⟩]

def operandsOf (name : String) : Option MetricOperands :=
  metricOperands.find? fun o => o.name = name

/-- The table of metrics divides these operands. -/
theorem knownMetrics_eq : knownMetrics =
    metricOperands.map fun o => ⟨o.name, fun b => safeDiv (o.num.value b) (o.den.value b)⟩ := rfl

theorem lookupMetric_eq (name : String) : lookupMetric name = (operandsOf name).map fun o =>
    ⟨o.name, fun b => safeDiv (o.num.value b) (o.den.value b)⟩ := by
  rw [lookupMetric, knownMetrics_eq, List.find?_map]
  rfl

/-- At the highest level every metric is measured. -/
theorem metricOperands_collectedAt_three :
    ∀ o ∈ metricOperands, o.num.CollectedAt 3 ∧ o.den.CollectedAt 3 := by decide

/-- What a metric divides is a counter. -/
theorem metricOperands_num : ∀ o ∈ metricOperands, ∃ c, o.num = .counter c := by
  simp [metricOperands]

/-- What it divides by the time is measured at every level. -/
theorem metricOperands_elapsed : ∀ o ∈ metricOperands, o.den = .elapsed →
    ∀ detail, o.num.CollectedAt detail := by
  have hcycles : ∀ detail, (Operand.counter .cycles).CollectedAt detail := by
    intro detail
    show hardwareCycles ∈ eventGroup detail
    unfold eventGroup
    split <;> decide
  simpa [metricOperands] using hcycles

/-! ### Averages over the runs -/

theorem truncMean_map {α β : Type*} (g : α → β) (l : List α) (f : β → ℤ) :
    truncMean (l.map g) f = truncMean l fun a => f (g a) := by
  rw [truncMean, truncMean, List.map_map, List.length_map]
  rfl

theorem avgDouble_map {α β : Type*} (ft : ℚ → ℚ) (g : α → β) (l : List α) (f : β → ℚ) :
    avgDouble ft (l.map g) f = avgDouble ft l fun a => f (g a) := by
  rw [avgDouble, avgDouble, List.foldl_map, List.length_map]

/-- A member that is zero in every run stays zero. -/
theorem avgInt_eq_zero {α : Type*} {l : List α} {f : α → ℤ} (h : ∀ a ∈ l, f a = 0) :
    avgInt l f = 0 := by
  have hsum : (l.map f).sum = 0 := List.sum_eq_zero (by simpa using h)
  rw [avgInt_eq l (hsum ▸ by decide), truncMean, hsum, Int.zero_tdiv]

/-- A counter outside the group leaves its member at zero. -/
theorem collected_of_notMem (fl : ℚ → ℚ) (kernel : PerfEventAttr → Outcome)
    (opts : BenchmarkOpts) {G : List Event} {e : Event} (he : e ∉ G) :
    collected fl kernel (preparedGroup opts G) e = 0 := by
  have hhas : groupHas (preparedGroup opts G) e = false := by
    rw [groupHas, List.any_eq_false, preparedGroup_eq]
    refine List.forall_mem_map.mpr fun e' he' => ?_
    simpa using fun h : e' = e => he (h ▸ he')
  simp [collected, hhas]

section Runs
variable (fl ft : ℚ → ℚ) (cli : CliOpts) (kernel : ℕ → PerfEventAttr → Outcome) (time : ℕ → ℚ)
  (path : String)

/-- The runs of one path in `main`: run `r` finds `kernel r` and takes `time r`. -/
def mainRuns : List BenchmarkT :=
  (List.range cli.nRuns).map fun r => benchmarkBin fl (kernel r) (time r) path cli.benchOpts

/-- The average over the runs of what an operand stands for. -/
def Operand.average : Operand → ℤ
  | counter c => truncMean (List.range cli.nRuns) fun r =>
    kernelClockRead fl (kernel r (c.event.prepared cli.benchOpts))
  | elapsed => toLongLong (avgDouble ft (List.range cli.nRuns) time * 1000)

/-- No addition of `collapse_runs` leaves `long long`. -/
def SumsFit (runs : List BenchmarkT) : Prop :=
  ∀ c ∈ columns 3, ∀ k ≤ runs.length, Lib.FitsWord 64 ((runs.map c.field).take k).sum

/-- No counter of the group counts that much in the runs, up to any of them. -/
def CountsFit : Prop := ∀ e ∈ eventGroup cli.benchOpts.detail, ∀ k ≤ cli.nRuns,
  Lib.FitsWord 64 ((List.range k).map fun r =>
    kernelClockRead fl (kernel r (e.prepared cli.benchOpts))).sum

variable {fl ft cli kernel time path}

theorem mainRuns_ne_nil (hn : cli.nRuns ≠ 0) :
    ∃ b bs, mainRuns fl cli kernel time path = b :: bs := by
  refine List.exists_cons_of_ne_nil fun h => hn ?_
  simpa [mainRuns] using h

/-- Every counter of a group has a column. -/
theorem exists_column {detail : ℕ} {e : Event} (he : e ∈ eventGroup detail) :
    ∃ c ∈ columns 3, c.event = e := by
  have hall : ∀ e ∈ eventGroup detail, e ∈ (columns 3).map Column.event := by
    unfold eventGroup
    split <;> decide
  exact List.mem_map.mp (hall e he)

/-- The sum of a column over the first runs. -/
theorem sum_take_mainRuns (f : BenchmarkT → ℤ) {k : ℕ} (hk : k ≤ cli.nRuns) :
    (((mainRuns fl cli kernel time path).map f).take k).sum = ((List.range k).map fun r =>
      f (benchmarkBin fl (kernel r) (time r) path cli.benchOpts)).sum := by
  rw [mainRuns, List.map_map, ← List.map_take, List.take_range, min_eq_left hk]
  rfl

/-- What is summed are the counts of the group. -/
theorem sumsFit_mainRuns_iff :
    SumsFit (mainRuns fl cli kernel time path) ↔ CountsFit fl cli kernel := by
  have hfield (c : Column) (hc : c ∈ columns 3) (r : ℕ) :
      c.field (benchmarkBin fl (kernel r) (time r) path cli.benchOpts) =
        collected fl (kernel r) (preparedGroup cli.benchOpts (eventGroup cli.benchOpts.detail))
          c.event :=
    columns_field (.inr (.inr rfl)) fl (kernel r) path (time r) _ c hc
  have hlength : (mainRuns fl cli kernel time path).length = cli.nRuns := by simp [mainRuns]
  unfold SumsFit CountsFit
  rw [hlength]
  constructor
  · intro h e he k hk
    obtain ⟨c, hc, rfl⟩ := exists_column he
    have hsum := h c hc k hk
    rw [sum_take_mainRuns c.field hk] at hsum
    simpa only [hfield c hc, collected_preparedGroup fl _ _ he] using hsum
  · intro h c hc k hk
    rw [sum_take_mainRuns c.field hk]
    simp only [hfield c hc]
    by_cases he : c.event ∈ eventGroup cli.benchOpts.detail
    · simpa only [collected_preparedGroup fl _ _ he] using h c.event he k hk
    · have hzero : ((List.range k).map fun r => collected fl (kernel r)
          (preparedGroup cli.benchOpts (eventGroup cli.benchOpts.detail)) c.event).sum = 0 := by
        simp [collected_of_notMem fl _ _ he]
      rw [hzero]
      decide

/-- The counts of all runs can be summed. -/
theorem CountsFit.all (h : CountsFit fl cli kernel) {e : Event}
    (he : e ∈ eventGroup cli.benchOpts.detail) :
    Lib.FitsWord 64 ((List.range cli.nRuns).map fun r =>
      kernelClockRead fl (kernel r (e.prepared cli.benchOpts))).sum := h e he cli.nRuns le_rfl

/-- An operand that is measured has its average in the collapsed result. -/
theorem value_of_collected (hn : cli.nRuns ≠ 0) (hfit : CountsFit fl cli kernel) {o : Operand}
    (ho : o.CollectedAt cli.benchOpts.detail) :
    o.value (collapseRuns ft (mainRuns fl cli kernel time path)) =
      o.average fl ft cli kernel time := by
  obtain ⟨b, bs, hruns⟩ : ∃ b bs, mainRuns fl cli kernel time path = b :: bs :=
    mainRuns_ne_nil hn
  cases o with
  | counter c =>
    have hfield : ∀ r, c.field (benchmarkBin fl (kernel r) (time r) path cli.benchOpts) =
        kernelClockRead fl (kernel r (c.event.prepared cli.benchOpts)) := fun r => by
      rw [benchmarkBin, c.collect_field, collected_preparedGroup fl _ _ ho]
    have hsum : Lib.FitsWord 64 ((mainRuns fl cli kernel time path).map c.field).sum := by
      rw [mainRuns, List.map_map]
      simp only [Function.comp_def, hfield]
      exact hfit.all ho
    rw [Operand.value, hruns, c.collapse_field, ← hruns, avgInt_eq _ hsum, mainRuns, truncMean_map]
    simp only [hfield]
    rfl
  | elapsed =>
    have htime : (collapseRuns ft (b :: bs)).time = avgDouble ft (b :: bs) BenchmarkT.time := rfl
    rw [Operand.value, hruns, htime, ← hruns, mainRuns, avgDouble_map]
    rfl

/-- One that is not is zero there. -/
theorem value_of_not_collected (hn : cli.nRuns ≠ 0) {o : Operand}
    (ho : ¬ o.CollectedAt cli.benchOpts.detail) :
    o.value (collapseRuns ft (mainRuns fl cli kernel time path)) = 0 := by
  obtain ⟨b, bs, hruns⟩ : ∃ b bs, mainRuns fl cli kernel time path = b :: bs :=
    mainRuns_ne_nil hn
  cases o with
  | counter c =>
    have hfield : ∀ r, c.field (benchmarkBin fl (kernel r) (time r) path cli.benchOpts) = 0 :=
      fun r => by rw [benchmarkBin, c.collect_field, collected_of_notMem fl _ _ ho]
    rw [Operand.value, hruns, c.collapse_field, ← hruns]
    refine avgInt_eq_zero fun b hb => ?_
    obtain ⟨r, -, rfl⟩ := List.mem_map.mp hb
    exact hfield r
  | elapsed => exact absurd trivial ho

/-- A quotient of measured members is the quotient of the averages. -/
theorem safeDiv_value_of_collected (hn : cli.nRuns ≠ 0) (hfit : CountsFit fl cli kernel)
    {num den : Operand} (hnum : num.CollectedAt cli.benchOpts.detail)
    (hden : den.CollectedAt cli.benchOpts.detail) :
    let agg := collapseRuns ft (mainRuns fl cli kernel time path)
    safeDiv (num.value agg) (den.value agg) =
      (num.average fl ft cli kernel time : ℚ) / den.average fl ft cli kernel time := by
  intro agg
  rw [value_of_collected hn hfit hnum, value_of_collected hn hfit hden, safeDiv]
  split
  · rename_i hzero
    rw [hzero, Int.cast_zero, div_zero]
  · rfl

/-- It is zero when one of them is not measured. -/
theorem safeDiv_value_of_not_collected (hn : cli.nRuns ≠ 0) {num den : Operand}
    (hout : ¬ (num.CollectedAt cli.benchOpts.detail ∧ den.CollectedAt cli.benchOpts.detail)) :
    let agg := collapseRuns ft (mainRuns fl cli kernel time path)
    safeDiv (num.value agg) (den.value agg) = 0 := by
  intro agg
  rcases not_and_or.mp hout with hnum | hden
  · rw [value_of_not_collected hn hnum, safeDiv, Int.cast_zero, zero_div, ite_self]
  · rw [value_of_not_collected hn hden, safeDiv, if_pos rfl]

variable (fl ft cli kernel time)

/-- The line of a token with its metric as the quotient of two averages. -/
def ratioLine (color : Bool) (t : List Char) : List Emit :=
  if t = [] then []
  else match operandsOf (String.ofList t) with
    | some o => ifColor color blue ++ [.str o.name, .str ": "] ++ ifColor color plain ++
        [.double (o.num.average fl ft cli kernel time / o.den.average fl ft cli kernel time),
          newline]
    | none => [.str "metric '", .str (String.ofList t), .str "' not known\n"]

/-- The metrics a list asks for are measured at the detail level of the options. -/
def MetricsCollected (csv : String) : Prop :=
  ∀ t ∈ metricTokens csv, ∀ o, operandsOf (String.ofList t) = some o →
    o.num.CollectedAt cli.benchOpts.detail ∧ o.den.CollectedAt cli.benchOpts.detail

variable {fl ft cli kernel time}

/-- A counter has an average other than zero; nothing is asked of the elapsed time. -/
def Operand.Counted (fl ft : ℚ → ℚ) (cli : CliOpts) (kernel : ℕ → PerfEventAttr → Outcome)
    (time : ℕ → ℚ) : Operand → Prop
  | counter c => (counter c).average fl ft cli kernel time ≠ 0
  | elapsed => True

instance (o : Operand) : Decidable (o.Counted fl ft cli kernel time) :=
  match o with
  | .counter c => inferInstanceAs
      (Decidable ((Operand.counter c).average fl ft cli kernel time ≠ 0))
  | .elapsed => inferInstanceAs (Decidable True)

/-- Every counter opens, and counts, in the runs. -/
def AllCounted (fl ft : ℚ → ℚ) (cli : CliOpts) (kernel : ℕ → PerfEventAttr → Outcome)
    (time : ℕ → ℚ) : Prop :=
  ∀ o ∈ metricOperands, o.num.Counted fl ft cli kernel time ∧ o.den.Counted fl ft cli kernel time

theorem AllCounted.nRuns_ne_zero (h : AllCounted fl ft cli kernel time) : cli.nRuns ≠ 0 := by
  intro hn
  refine (h _ List.mem_cons_self).1 ?_
  simp [Operand.average, hn, truncMean]

/-- With one of the operands not measured, both averages are other than zero. -/
theorem AllCounted.average_ne_zero (h : AllCounted fl ft cli kernel time) {o : MetricOperands}
    (ho : o ∈ metricOperands) {detail : ℕ}
    (hout : ¬ (o.num.CollectedAt detail ∧ o.den.CollectedAt detail)) :
    o.num.average fl ft cli kernel time ≠ 0 ∧ o.den.average fl ft cli kernel time ≠ 0 := by
  obtain ⟨hnum, hden⟩ := h o ho
  obtain ⟨c, hc⟩ := metricOperands_num o ho
  rw [hc] at hnum ⊢
  refine ⟨hnum, ?_⟩
  cases hd : o.den with
  | counter c' => rwa [hd] at hden
  | elapsed =>
    exact absurd ⟨metricOperands_elapsed o ho hd detail, hd ▸ trivial⟩ hout

theorem flushMetric_eq_ratioLine_iff (h : AllCounted fl ft cli kernel time)
    (hfit : CountsFit fl cli kernel) (color : Bool) (t : List Char) :
    flushMetric (collapseRuns ft (mainRuns fl cli kernel time path)) color t =
        ratioLine fl ft cli kernel time color t ↔
      ∀ o, operandsOf (String.ofList t) = some o →
        o.num.CollectedAt cli.benchOpts.detail ∧ o.den.CollectedAt cli.benchOpts.detail := by
  by_cases ht : t = []
  · have hnone : operandsOf (String.ofList []) = none := by decide
    simp [flushMetric, ratioLine, ht, hnone]
  rw [flushMetric, ratioLine, if_neg ht, if_neg ht, lookupMetric_eq]
  cases ho : operandsOf (String.ofList t) with
  | none => simp
  | some o =>
    simp only [Option.map_some, Option.some.injEq, forall_eq', List.append_cancel_left_eq,
      List.cons.injEq, Emit.double.injEq, and_true]
    have hn := h.nRuns_ne_zero
    by_cases hin : o.num.CollectedAt cli.benchOpts.detail ∧ o.den.CollectedAt cli.benchOpts.detail
    · exact iff_of_true (safeDiv_value_of_collected hn hfit hin.1 hin.2) hin
    · obtain ⟨hnum, hden⟩ := h.average_ne_zero (List.mem_of_find?_eq_some ho) hin
      rw [safeDiv_value_of_not_collected hn hin]
      refine iff_of_false (Ne.symm ?_) hin
      exact div_ne_zero (Int.cast_ne_zero.mpr hnum) (Int.cast_ne_zero.mpr hden)

theorem length_flushMetric (b : BenchmarkT) (color : Bool) (t : List Char) :
    (flushMetric b color t).length = (ratioLine fl ft cli kernel time color t).length := by
  unfold flushMetric ratioLine
  split
  · rfl
  rw [lookupMetric_eq]
  cases operandsOf (String.ofList t) with
  | none => rfl
  | some o => simp

/-- No sum leaves `long long` and `main` prints the quotients of the averages exactly when no
counter counts that much and every metric asked for has both of its counters in the group of
the detail level. -/
theorem emitMetrics_measured_iff {csv : String} (hcsv : cli.metricsCsv = some csv)
    (h : AllCounted fl ft cli kernel time) (color : Bool) :
    (SumsFit (mainRuns fl cli kernel time path) ∧
      emitMetrics (collapseRuns ft (mainRuns fl cli kernel time path)) cli.metricsCsv color =
        (metricTokens csv).flatMap (ratioLine fl ft cli kernel time color)) ↔
      CountsFit fl cli kernel ∧ MetricsCollected cli csv := by
  rw [sumsFit_mainRuns_iff, hcsv, emitMetrics_some,
    Lib.flatMap_eq_flatMap_iff (length_flushMetric _ color)]
  refine and_congr_right fun hfit => ?_
  exact forall₂_congr fun t _ => flushMetric_eq_ratioLine_iff h hfit color t

end Runs

/-- Two runs at the second level. -/
theorem emitMetrics_measured_iff_two :
    let cli : CliOpts :=
      { metricsCsv := some "frontend-stall-rate", nRuns := 2, benchOpts := { detail := 2 } }
    let kernel : ℕ → PerfEventAttr → Outcome := fun r _ => .opened ⟨6 + BitVec.ofNat 64 r, 1, 1⟩
    let runs := mainRuns id cli kernel (fun _ => 5) "./a"
    AllCounted id id cli kernel (fun _ => 5) ∧ SumsFit runs ∧
      emitMetrics (collapseRuns id runs) cli.metricsCsv false =
        (metricTokens "frontend-stall-rate").flatMap
          (ratioLine id id cli kernel (fun _ => 5) false) := by
  intro cli kernel runs
  have hcounted : AllCounted id id cli kernel fun _ => 5 := by
    unfold AllCounted
    decide +kernel
  have hfit : CountsFit id cli kernel := by
    unfold CountsFit
    decide +kernel
  have hcollected : MetricsCollected cli "frontend-stall-rate" := by
    intro t ht o ho
    obtain rfl : t = "frontend-stall-rate".toList := List.mem_singleton.mp ht
    obtain rfl := Option.some.inj ho
    exact ⟨by decide, by decide⟩
  exact ⟨hcounted, (emitMetrics_measured_iff rfl hcounted false).mpr ⟨hfit, hcollected⟩⟩

/-- The same metric at the default level: the report says zero, though all sums fit. -/
theorem not_emitMetrics_measured :
    let cli : CliOpts := { metricsCsv := some "frontend-stall-rate", paths := ["./a"] }
    let kernel : ℕ → PerfEventAttr → Outcome := fun _ _ => .opened ⟨6, 1, 1⟩
    let runs := mainRuns id cli kernel (fun _ => 5) "./a"
    let report := emitMetrics (collapseRuns id runs) cli.metricsCsv false
    parseArgv ["bbench", "-M", "frontend-stall-rate", "./a"] = .ok cli ∧
      AllCounted id id cli kernel (fun _ => 5) ∧ SumsFit runs ∧
      report = [.str "frontend-stall-rate", .str ": ", .double 0, newline] ∧
      report ≠ (metricTokens "frontend-stall-rate").flatMap
        (ratioLine id id cli kernel (fun _ => 5) false) := by
  intro cli kernel runs report
  refine ⟨by decide +kernel, ?_, sumsFit_mainRuns_iff.mpr ?_, by decide +kernel, by decide +kernel⟩
  · unfold AllCounted
    decide +kernel
  · unfold CountsFit
    decide +kernel

end Bbench.Report
