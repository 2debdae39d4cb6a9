import Bbench.Report.Metrics
import Bbench.Report.Stats
import Bbench.Report.Topdown

/-! The human format, as the calls each emitter makes on the sink. -/

namespace Bbench.Report

/-- `__emit_row`. -/
def emitRow (label : String) (v : ℤ) (color : Bool) : List Emit :=
  ifColor color blue ++ [.str label] ++ ifColor color plain ++ [.int v, newline]

def emitHumanOne (b : BenchmarkT) (detail : ℕ) (color : Bool) (nRuns : ℕ) : List Emit :=
  ifColor color blue ++ [.str "Attempted ", .int nRuns, .str " runs"] ++ ifColor color plain ++
    [newline] ++
  ifColor color blue ++ [.str "Results for: "] ++ ifColor color plain ++ [.str b.name, newline] ++
  ifColor color blue ++ [.str "Total time elapsed:   "] ++ ifColor color plain ++
    [.double b.time, .str " microseconds", newline] ++
  emitRow "Cycles Spent:         " b.cycles color ++
  emitRow "Total Instructions:   " b.instructions color ++
  emitRow "Total Branches:       " b.totalBranches color ++
  emitRow "Branch Misses:        " b.branchMisses color ++
  emitRow "Total CPU Cycles:     " b.totalCycles color ++
  emitRow "Total CPU Time Spent: " b.cpuTime color ++
  emitRow "Context Switches:     " b.contextSwitches color ++
  emitRow "Core Migrations:      " b.migrations color ++
  emitRow "Cache Misses:         " b.cacheMisses color ++
  emitRow "L1 Cache:             " b.l1Cache color ++
  emitRow "L1T Cache:            " b.l1tCache color ++
  emitRow "Last Level Cache:     " b.llCache color ++
  emitRow "Cache Accesses:       " b.access color ++
  emitRow "Branch Predictions:   " b.bpu color ++
  (if 2 ≤ detail then
    emitRow "Page Faults:          " b.pageFaults color ++
    emitRow "Bus Cycles:           " b.busCycles color ++
    emitRow "Stalled Frontend:     " b.stalledFront color ++
    emitRow "Stalled Backend:      " b.stalledBack color ++
    emitRow "dTLB Loads:           " b.dtlbAccess color ++
    emitRow "dTLB Load Misses:     " b.dtlbMiss color ++
    emitRow "iTLB Loads:           " b.itlbAccess color ++
    emitRow "iTLB Load Misses:     " b.itlbMiss color ++
    emitRow "L1d Load Misses:      " b.l1dMiss color ++
    emitRow "LLC Load Misses:      " b.llcacheMiss color else []) ++
  (if 3 ≤ detail then
    emitRow "L1i Load Misses:      " b.l1tMiss color ++
    emitRow "L1d Prefetches:       " b.l1dPrefetch color ++
    emitRow "L1d Prefetch Misses:  " b.l1dPrefetchMiss color ++
    emitRow "Minor Faults:         " b.minorFaults color ++
    emitRow "Major Faults:         " b.majorFaults color ++
    emitRow "Alignment Faults:     " b.alignmentFaults color ++
    emitRow "Emulation Faults:     " b.emulationFaults color else [])

def emitStats (runs : List BenchmarkT) (color : Bool) : List Emit :=
  let sTime := computeStats runs BenchmarkT.time
  let sCyc := computeStats runs fun b => (b.cycles : ℚ)
  let sIns := computeStats runs fun b => (b.instructions : ℚ)
  ifColor color blue ++ [.str "time (us):     mean="] ++ ifColor color plain ++
    [.double sTime.mean, .str "  stddev=", .double sTime.stddev, .str "  min=", .double sTime.mn,
      .str "  max=", .double sTime.mx, newline] ++
  ifColor color blue ++ [.str "cycles:        mean="] ++ ifColor color plain ++
    [.double sCyc.mean, .str "  stddev=", .double sCyc.stddev, newline] ++
  ifColor color blue ++ [.str "instructions:  mean="] ++ ifColor color plain ++
    [.double sIns.mean, .str "  stddev=", .double sIns.stddev, newline]

def emitTopdown (td : TopdownT) (color : Bool) : List Emit :=
  if td.supported then
    (if color then [.bytes "\x1b[34mtopdown:\x1b[0m\n" 21] else [.bytes "topdown:\n" 9]) ++
    [.str "  retiring:    ", .double td.retiring, newline,
      .str "  bad-spec:    ", .double td.badSpec, newline,
      .str "  fe-bound:    ", .double td.frontend, newline,
      .str "  be-bound:    ", .double td.backend, newline]
  else [.str "topdown: not supported on this CPU/kernel (Intel Icelake+ required)\n"]

end Bbench.Report
