import Bbench.Report.Benchmark

/-! The calls made on a sink, in the order they are made. A report is a list of
such calls; how a number is spelled is left to the sink. -/

namespace Bbench.Report

inductive Emit
  /-- `emit(s)`. -/
  | str (s : String)
  /-- `emit(s, n)`. -/
  | bytes (s : String) (n : ℕ)
  /-- `emit_int`. -/
  | int (v : ℤ)
  /-- `emit_double`. -/
  | double (v : ℚ)
  deriving DecidableEq, Repr

def newline : Emit := .bytes "\n" 1

/-! ### CSV -/

/-- The two-byte buffer a separator character is emitted from. -/
def sepString (sep : Char) : String := if sep.toNat = 0 then "" else sep.toString

def emitCsvHeader (detail : ℕ) (sep : Char) : List Emit :=
  let s := Emit.str (sepString sep)
  [.str "name", s, .str "time_us", s, .str "cycles", s, .str "instructions", s, .str "branches", s,
    .str "branch_misses", s, .str "total_cycles", s, .str "cpu_time", s, .str "context_switches", s,
    .str "migrations", s, .str "cache_misses", s, .str "l1_cache", s, .str "l1t_cache", s,
    .str "ll_cache", s, .str "cache_node", s, .str "bpu"] ++
  (if 2 ≤ detail then
    [s, .str "page_faults", s, .str "bus_cycles", s, .str "stalled_front", s, .str "stalled_back",
      s, .str "dtlb_access", s, .str "dtlb_miss", s, .str "itlb_access", s, .str "itlb_miss",
      s, .str "l1d_miss", s, .str "llcache_miss"] else []) ++
  (if 3 ≤ detail then
    [s, .str "l1t_miss", s, .str "l1d_prefetch", s, .str "l1d_prefetch_miss", s,
      .str "minor_faults", s, .str "major_faults", s, .str "alignment_faults", s,
      .str "emulation_faults"] else []) ++
  [newline]

def emitCsvOne (b : BenchmarkT) (detail : ℕ) (sep : Char) : List Emit :=
  let s := Emit.str (sepString sep)
  [.str b.name, s, .double b.time, s, .int b.cycles, s, .int b.instructions, s,
    .int b.totalBranches, s, .int b.branchMisses, s, .int b.totalCycles, s, .int b.cpuTime, s,
    .int b.contextSwitches, s, .int b.migrations, s, .int b.cacheMisses, s, .int b.l1Cache, s,
    .int b.l1tCache, s, .int b.llCache, s, .int b.access, s, .int b.bpu] ++
  (if 2 ≤ detail then
    [s, .int b.pageFaults, s, .int b.busCycles, s, .int b.stalledFront, s, .int b.stalledBack,
      s, .int b.dtlbAccess, s, .int b.dtlbMiss, s, .int b.itlbAccess, s, .int b.itlbMiss,
      s, .int b.l1dMiss, s, .int b.llcacheMiss] else []) ++
  (if 3 ≤ detail then
    [s, .int b.l1tMiss, s, .int b.l1dPrefetch, s, .int b.l1dPrefetchMiss, s,
      .int b.minorFaults, s, .int b.majorFaults, s, .int b.alignmentFaults, s,
      .int b.emulationFaults] else []) ++
  [newline]

/-- The fields of a line: every second call, the others being separators and the
line's end. -/
def cells : List Emit → List Emit
  | [] => []
  | [c] => [c]
  | c :: _ :: rest => c :: cells rest

end Bbench.Report
