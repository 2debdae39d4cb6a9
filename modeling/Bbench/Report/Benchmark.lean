import Bbench.Lib.MachineMean
import Bbench.Lib.RoundedMean
import Bbench.Perf.Reading

/-! The result of a measurement. `collect` copies each counter the group has into
its own field and leaves the others at zero; `collapse_runs` averages every field
over repeated runs. The counters are summed in a word of 64 bits and divided with
truncation, the times are summed and divided in `double` arithmetic. -/

namespace Bbench.Report

open Perf

/-- `benchmark_t`, without the two multiplex fields that nothing sets. -/
structure BenchmarkT where
  name : String := ""
  time : ℚ := 0
  cycles : ℤ := 0
  instructions : ℤ := 0
  cacheMisses : ℤ := 0
  totalBranches : ℤ := 0
  branchMisses : ℤ := 0
  totalCycles : ℤ := 0
  cpuTime : ℤ := 0
  contextSwitches : ℤ := 0
  migrations : ℤ := 0
  l1Cache : ℤ := 0
  l1tCache : ℤ := 0
  llCache : ℤ := 0
  access : ℤ := 0
  bpu : ℤ := 0
  pageFaults : ℤ := 0
  minorFaults : ℤ := 0
  majorFaults : ℤ := 0
  busCycles : ℤ := 0
  stalledFront : ℤ := 0
  stalledBack : ℤ := 0
  alignmentFaults : ℤ := 0
  emulationFaults : ℤ := 0
  dtlbAccess : ℤ := 0
  dtlbMiss : ℤ := 0
  itlbAccess : ℤ := 0
  itlbMiss : ℤ := 0
  l1dMiss : ℤ := 0
  l1tMiss : ℤ := 0
  llcacheMiss : ℤ := 0
  l1dPrefetch : ℤ := 0
  l1dPrefetchMiss : ℤ := 0
  deriving DecidableEq, Repr

/-! ### `collect` -/

section Collect
variable (fl : ℚ → ℚ)

/-- `group_has_v`. -/
def groupHas (gr : List Member) (e : Event) : Bool := gr.any fun m => m.event = e

/-- `gr.get<E>().retrieve()` after the counters were opened by `kernel`. -/
def retrieve (kernel : PerfEventAttr → Outcome) (gr : List Member) (e : Event) : ℤ :=
  match EventGroup.get gr e with
  | some m => kernelClockRead fl (kernel m.attr)
  | none => 0

/-- What one `if constexpr` line of `collect` leaves in its field. -/
def collected (kernel : PerfEventAttr → Outcome) (gr : List Member) (e : Event) : ℤ :=
  if groupHas gr e then retrieve fl kernel gr e else 0

def collect (kernel : PerfEventAttr → Outcome) (name : String) (time : ℚ) (gr : List Member) :
    BenchmarkT where
  name := name
  time := time
  cycles := collected fl kernel gr hardwareCycles
  instructions := collected fl kernel gr hardwareInstructions
  cacheMisses := collected fl kernel gr Perf.cacheMisses
  totalBranches := collected fl kernel gr branches
  branchMisses := collected fl kernel gr Perf.branchMisses
  totalCycles := collected fl kernel gr Perf.totalCycles
  cpuTime := collected fl kernel gr Perf.cpuTime
  contextSwitches := collected fl kernel gr Perf.contextSwitches
  migrations := collected fl kernel gr procMigrations
  l1Cache := collected fl kernel gr level1d
  l1tCache := collected fl kernel gr level1t
  llCache := collected fl kernel gr llcache
  access := collected fl kernel gr cacheNodeEvent
  bpu := collected fl kernel gr Perf.bpu
  pageFaults := collected fl kernel gr Perf.pageFaults
  busCycles := collected fl kernel gr busCyclesE
  stalledFront := collected fl kernel gr Perf.stalledFront
  stalledBack := collected fl kernel gr Perf.stalledBack
  dtlbAccess := collected fl kernel gr Perf.dtlbAccess
  dtlbMiss := collected fl kernel gr Perf.dtlbMiss
  itlbAccess := collected fl kernel gr Perf.itlbAccess
  itlbMiss := collected fl kernel gr Perf.itlbMiss
  l1dMiss := collected fl kernel gr level1dMiss
  l1tMiss := collected fl kernel gr level1tMiss
  llcacheMiss := collected fl kernel gr Perf.llcacheMiss
  l1dPrefetch := collected fl kernel gr Perf.l1dPrefetch
  l1dPrefetchMiss := collected fl kernel gr Perf.l1dPrefetchMiss
  minorFaults := collected fl kernel gr Perf.minorFaults
  majorFaults := collected fl kernel gr Perf.majorFaults
  alignmentFaults := collected fl kernel gr Perf.alignmentFaults
  emulationFaults := collected fl kernel gr Perf.emulationFaults

/-- `benchmark_bin(path, opts)` as a function of the kernel's answers and of the
elapsed time: the group of the detail level, prepared and collected. -/
def benchmarkBin (kernel : PerfEventAttr → Outcome) (time : ℚ) (s : String)
    (opts : BenchmarkOpts) : BenchmarkT :=
  collect fl kernel s time (preparedGroup opts (eventGroup opts.detail))

/-- A measured event is reported with the number its own counter reads. -/
theorem collected_preparedGroup (kernel : PerfEventAttr → Outcome) (opts : BenchmarkOpts)
    {G : List Event} {e : Event} (he : e ∈ G) :
    collected fl kernel (preparedGroup opts G) e =
      kernelClockRead fl (kernel (e.prepared opts)) := by
  have hget := get_preparedGroup opts he
  have hhas : groupHas (preparedGroup opts G) e = true := by
    rw [groupHas, List.any_eq_true]
    exact ⟨_, List.mem_of_find?_eq_some hget, decide_eq_true rfl⟩
  simp only [collected, hhas, if_true, retrieve, hget]

/-- A reading is a `long long`. -/
theorem fitsWord_kernelClockRead (o : Outcome) : Lib.FitsWord 64 (kernelClockRead fl o) := by
  have hzero : Lib.FitsWord 64 0 := by decide
  have hcast (q : ℚ) : Lib.FitsWord 64 (toLongLong q) := by
    rw [toLongLong]
    split
    · assumption
    · decide
  have hcount (r : Reading) : Lib.FitsWord 64 (scaledCount fl r) := by
    rw [scaledCount]
    split_ifs
    · exact hzero
    · exact ⟨r.value.le_toInt, r.value.toInt_lt⟩
    · exact hcast _
  cases o with
  | failed _ => exact hcount _
  | opened r => exact hcount r

end Collect

/-! ### Averages -/

section Averages
variable {α : Type*}

/-- `avg_int` over the runs of one path. Where the sum leaves `long long`, C++ promises
nothing; the word then wraps around. -/
def avgInt (v : List α) (f : α → ℤ) : ℤ :=
  (v.foldl (fun sum b => sum + BitVec.ofInt 64 (f b)) 0).toInt.tdiv v.length

/-- `avg_double`; `fl` rounds the result of each operation. -/
def avgDouble (fl : ℚ → ℚ) (v : List α) (f : α → ℚ) : ℚ :=
  fl (v.foldl (fun sum b => fl (sum + f b)) 0 / v.length)

/-- The exact mean of integers, truncated. -/
def truncMean (v : List α) (f : α → ℤ) : ℤ := (v.map f).sum.tdiv v.length

/-- The exact mean of rationals. -/
def exactMean (v : List α) (f : α → ℚ) : ℚ := (v.map f).sum / v.length

/-- A sum in range is averaged exactly. -/
theorem avgInt_eq (v : List α) {f : α → ℤ} (h : Lib.FitsWord 64 (v.map f).sum) :
    avgInt v f = truncMean v f := by
  have hsum : (v.foldl (fun sum b => sum + BitVec.ofInt 64 (f b)) 0) =
      Lib.wordSum 64 (v.map f) := by
    rw [Lib.wordSum, List.foldl_map]
  rw [avgInt, truncMean, hsum, Lib.toInt_wordSum (by omega) h]

theorem avgDouble_eq (fl : ℚ → ℚ) (v : List α) (f : α → ℚ) :
    avgDouble fl v f = Lib.roundedMean fl (v.map f) := by
  rw [avgDouble, Lib.roundedMean, Lib.roundedSum, List.foldl_map, List.length_map]

/-- So are times that no operation rounds. -/
theorem avgDouble_of_unrounded {fl : ℚ → ℚ} {v : List α} {f : α → ℚ}
    (h : Lib.Unrounded fl (v.map f)) : avgDouble fl v f = exactMean v f := by
  rw [avgDouble_eq, h.roundedMean_eq, List.length_map, exactMean]

theorem avgDouble_id (v : List α) (f : α → ℚ) : avgDouble id v f = exactMean v f :=
  avgDouble_of_unrounded ⟨fun _ _ => rfl, rfl⟩

end Averages

def collapseRuns (fl : ℚ → ℚ) (runs : List BenchmarkT) : BenchmarkT :=
  match runs with
  | [] => {}
  | b :: _ =>
    { name := b.name
      time := avgDouble fl runs BenchmarkT.time
      cycles := avgInt runs BenchmarkT.cycles
      instructions := avgInt runs BenchmarkT.instructions
      cacheMisses := avgInt runs BenchmarkT.cacheMisses
      totalBranches := avgInt runs BenchmarkT.totalBranches
      branchMisses := avgInt runs BenchmarkT.branchMisses
      totalCycles := avgInt runs BenchmarkT.totalCycles
      cpuTime := avgInt runs BenchmarkT.cpuTime
      contextSwitches := avgInt runs BenchmarkT.contextSwitches
      migrations := avgInt runs BenchmarkT.migrations
      l1Cache := avgInt runs BenchmarkT.l1Cache
      l1tCache := avgInt runs BenchmarkT.l1tCache
      llCache := avgInt runs BenchmarkT.llCache
      access := avgInt runs BenchmarkT.access
      bpu := avgInt runs BenchmarkT.bpu
      pageFaults := avgInt runs BenchmarkT.pageFaults
      busCycles := avgInt runs BenchmarkT.busCycles
      stalledFront := avgInt runs BenchmarkT.stalledFront
      stalledBack := avgInt runs BenchmarkT.stalledBack
      dtlbAccess := avgInt runs BenchmarkT.dtlbAccess
      dtlbMiss := avgInt runs BenchmarkT.dtlbMiss
      itlbAccess := avgInt runs BenchmarkT.itlbAccess
      itlbMiss := avgInt runs BenchmarkT.itlbMiss
      l1dMiss := avgInt runs BenchmarkT.l1dMiss
      l1tMiss := avgInt runs BenchmarkT.l1tMiss
      llcacheMiss := avgInt runs BenchmarkT.llcacheMiss
      l1dPrefetch := avgInt runs BenchmarkT.l1dPrefetch
      l1dPrefetchMiss := avgInt runs BenchmarkT.l1dPrefetchMiss
      minorFaults := avgInt runs BenchmarkT.minorFaults
      majorFaults := avgInt runs BenchmarkT.majorFaults
      alignmentFaults := avgInt runs BenchmarkT.alignmentFaults
      emulationFaults := avgInt runs BenchmarkT.emulationFaults }

end Bbench.Report
