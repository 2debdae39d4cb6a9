import Bbench.Report.Dynamic

/-! Two encodings of the same events. A column of the CSV report is counted by a
member of the static group, whose attributes come from the enumerations of
`perf.hpp`; the `-e` event of the same meaning comes from the table of
`events.hpp`. A row of the table below ties a column to both and to the field of
`benchmark_t` it prints. -/

namespace Bbench.Report

open Perf

structure Column where
  header : String
  eventName : String
  event : Event
  field : BenchmarkT → ℤ

def columnsD1 : List Column :=
  [⟨"cycles", "cycles", hardwareCycles, BenchmarkT.cycles⟩,
    ⟨"instructions", "instructions", hardwareInstructions, BenchmarkT.instructions⟩,
    ⟨"branches", "branches", branches, BenchmarkT.totalBranches⟩,
    ⟨"branch_misses", "branch-misses", Perf.branchMisses, BenchmarkT.branchMisses⟩,
    ⟨"total_cycles", "ref-cycles", Perf.totalCycles, BenchmarkT.totalCycles⟩,
    ⟨"cpu_time", "cpu-clock", Perf.cpuTime, BenchmarkT.cpuTime⟩,
    ⟨"context_switches", "context-switches", Perf.contextSwitches, BenchmarkT.contextSwitches⟩,
    ⟨"migrations", "cpu-migrations", procMigrations, BenchmarkT.migrations⟩,
    ⟨"cache_misses", "cache-misses", Perf.cacheMisses, BenchmarkT.cacheMisses⟩,
    ⟨"l1_cache", "L1-dcache-loads", level1d, BenchmarkT.l1Cache⟩,
    ⟨"l1t_cache", "L1-icache-loads", level1t, BenchmarkT.l1tCache⟩,
    ⟨"ll_cache", "LLC-loads", llcache, BenchmarkT.llCache⟩,
    ⟨"cache_node", "node-loads", cacheNodeEvent, BenchmarkT.access⟩,
    ⟨"bpu", "branch-loads", Perf.bpu, BenchmarkT.bpu⟩]

def columnsD2 : List Column :=
  [⟨"page_faults", "page-faults", Perf.pageFaults, BenchmarkT.pageFaults⟩,
    ⟨"bus_cycles", "bus-cycles", busCyclesE, BenchmarkT.busCycles⟩,
    ⟨"stalled_front", "stalled-cycles-frontend", Perf.stalledFront, BenchmarkT.stalledFront⟩,
    ⟨"stalled_back", "stalled-cycles-backend", Perf.stalledBack, BenchmarkT.stalledBack⟩,
    ⟨"dtlb_access", "dTLB-loads", Perf.dtlbAccess, BenchmarkT.dtlbAccess⟩,
    ⟨"dtlb_miss", "dTLB-load-misses", Perf.dtlbMiss, BenchmarkT.dtlbMiss⟩,
    ⟨"itlb_access", "iTLB-loads", Perf.itlbAccess, BenchmarkT.itlbAccess⟩,
    ⟨"itlb_miss", "iTLB-load-misses", Perf.itlbMiss, BenchmarkT.itlbMiss⟩,
    ⟨"l1d_miss", "L1-dcache-load-misses", level1dMiss, BenchmarkT.l1dMiss⟩,
    ⟨"llcache_miss", "LLC-load-misses", Perf.llcacheMiss, BenchmarkT.llcacheMiss⟩]

def columnsD3 : List Column :=
  [⟨"l1t_miss", "L1-icache-load-misses", level1tMiss, BenchmarkT.l1tMiss⟩,
    ⟨"l1d_prefetch", "L1-dcache-prefetches", Perf.l1dPrefetch, BenchmarkT.l1dPrefetch⟩,
    ⟨"l1d_prefetch_miss", "L1-dcache-prefetch-misses", Perf.l1dPrefetchMiss,
      BenchmarkT.l1dPrefetchMiss⟩,
    ⟨"minor_faults", "minor-faults", Perf.minorFaults, BenchmarkT.minorFaults⟩,
    ⟨"major_faults", "major-faults", Perf.majorFaults, BenchmarkT.majorFaults⟩,
    ⟨"alignment_faults", "alignment-faults", Perf.alignmentFaults, BenchmarkT.alignmentFaults⟩,
    ⟨"emulation_faults", "emulation-faults", Perf.emulationFaults, BenchmarkT.emulationFaults⟩]

/-- The counter columns of a detail level, in the order they are printed. -/
def columns (detail : ℕ) : List Column :=
  match detail with
  | 2 => columnsD1 ++ columnsD2
  | 3 => columnsD1 ++ columnsD2 ++ columnsD3
  | _ => columnsD1

/-! ### The two emission sequences -/

section Layout
variable {detail : ℕ} (hd : detail = 1 ∨ detail = 2 ∨ detail = 3)
include hd

theorem cells_emitCsvHeader (sep : Char) : cells (emitCsvHeader detail sep) =
    .str "name" :: .str "time_us" :: (columns detail).map fun c => .str c.header := by
  rcases hd with rfl | rfl | rfl <;> rfl

theorem cells_emitCsvOne (b : BenchmarkT) (sep : Char) : cells (emitCsvOne b detail sep) =
    .str b.name :: .double b.time :: (columns detail).map fun c => .int (c.field b) := by
  rcases hd with rfl | rfl | rfl <;> rfl

/-- Every column is measured by the group of its detail level. -/
theorem columns_event_mem : ∀ c ∈ columns detail, c.event ∈ eventGroup detail := by
  rcases hd with rfl | rfl | rfl <;> decide

/-- A column prints the field that `collect` fills from the column's event. -/
theorem columns_field (fl : ℚ → ℚ) (kernel : PerfEventAttr → Outcome) (name : String) (time : ℚ)
    (gr : List Member) : ∀ c ∈ columns detail,
      c.field (collect fl kernel name time gr) = collected fl kernel gr c.event := by
  rcases hd with rfl | rfl | rfl <;>
    simp [columns, columnsD1, columnsD2, columnsD3, collect]

/-- The table of `-e` names the column's event with the same type and configuration. -/
theorem columns_lookupEvent : ∀ c ∈ columns detail, (lookupEvent c.eventName).map
    (fun d => (d.type, d.config)) = some (c.event.attr.type, c.event.attr.config) := by
  rcases hd with rfl | rfl | rfl <;> decide

end Layout

/-! ### The columns are the counters -/

example : (columns 3).length = 31 := rfl

/-- A level shows the columns of the levels below. -/
theorem columns_subset {detail : ℕ} (hd : detail = 1 ∨ detail = 2 ∨ detail = 3) {c : Column}
    (hc : c ∈ columns detail) : c ∈ columns 3 := by
  have hsub : columnsD1 ++ columnsD2 ++ columnsD3 = columns 3 := rfl
  rw [← hsub]
  rcases hd with rfl | rfl | rfl <;> simp only [columns, List.mem_append] at hc ⊢ <;> tauto

/-- Every line of `collapse_runs` averages a column into itself. -/
theorem columns_collapseRuns (ft : ℚ → ℚ) {runs : List BenchmarkT} (hruns : runs ≠ []) :
    ∀ c ∈ columns 3, c.field (collapseRuns ft runs) = avgInt runs c.field := by
  obtain ⟨b, bs, rfl⟩ := List.exists_cons_of_ne_nil hruns
  simp [columns, columnsD1, columnsD2, columnsD3, collapseRuns]

theorem time_collapseRuns (ft : ℚ → ℚ) {runs : List BenchmarkT} (hruns : runs ≠ []) :
    (collapseRuns ft runs).time = avgDouble ft runs BenchmarkT.time := by
  obtain ⟨b, bs, rfl⟩ := List.exists_cons_of_ne_nil hruns
  rfl

/-! ### The two encodings -/

/-- With user mode only, a static member and a run-time event of one type and
configuration make the same request. -/
theorem prepared_eq {opts : BenchmarkOpts} (hk : opts.exclKernel = true) {e : Event}
    (hland : e.land = .userland) {d : EventDef}
    (h : (d.type, d.config) = (e.attr.type, e.attr.config)) :
    d.prepared opts = e.prepared opts := by
  obtain ⟨htype, hconfig⟩ := Prod.mk.inj h
  simp only [EventDef.prepared, EventDef.configure, Event.prepared, PerfEventAttr.setInherit,
    PerfEventAttr.setPinned, PerfEventAttr.setEnableOnExec, htype, hconfig, hk, Event.attr,
    kernelClock, hland, TimeLand.excludeUser, TimeLand.excludeKernel, TimeLand.excludeHv]

/-- A column's number is what the kernel answers to its prepared request. -/
theorem benchmarkBin_column (fl : ℚ → ℚ) (kernel : PerfEventAttr → Outcome) (time : ℚ) (s : String)
    {opts : BenchmarkOpts} (hd : opts.detail = 1 ∨ opts.detail = 2 ∨ opts.detail = 3) {c : Column}
    (hc : c ∈ columns opts.detail) : c.field (benchmarkBin fl kernel time s opts) =
      kernelClockRead fl (kernel (c.event.prepared opts)) := by
  rw [benchmarkBin, columns_field hd _ _ _ _ _ c hc,
    collected_preparedGroup fl kernel opts (columns_event_mem hd c hc)]

/-- One run is averaged into itself. -/
theorem collapseRuns_column (fl ft : ℚ → ℚ) (kernel : PerfEventAttr → Outcome) (time : ℚ)
    (s : String) {opts : BenchmarkOpts}
    (hd : opts.detail = 1 ∨ opts.detail = 2 ∨ opts.detail = 3) {c : Column}
    (hc : c ∈ columns opts.detail) :
    c.field (collapseRuns ft [benchmarkBin fl kernel time s opts]) =
      kernelClockRead fl (kernel (c.event.prepared opts)) := by
  have hread := benchmarkBin_column fl kernel time s hd hc
  have hsum : ([benchmarkBin fl kernel time s opts].map c.field).sum =
      kernelClockRead fl (kernel (c.event.prepared opts)) := by
    rw [List.map_singleton, List.sum_singleton, hread]
  have hfit := fitsWord_kernelClockRead fl (kernel (c.event.prepared opts))
  rw [columns_collapseRuns ft (List.cons_ne_nil _ _) c (columns_subset hd hc),
    avgInt_eq _ (hsum ▸ hfit), truncMean, hsum, List.length_singleton, Nat.cast_one, Int.tdiv_one]

/-- The request a column's counter makes is the request of its `-e` event. -/
theorem columns_prepared {opts : BenchmarkOpts} (hk : opts.exclKernel = true)
    (hd : opts.detail = 1 ∨ opts.detail = 2 ∨ opts.detail = 3) {c : Column}
    (hc : c ∈ columns opts.detail) :
    ∃ d, lookupEvent c.eventName = some d ∧ d.prepared opts = c.event.prepared opts := by
  obtain ⟨d, hlookup, hd'⟩ := Option.map_eq_some_iff.mp (columns_lookupEvent hd c hc)
  have hland := eventGroup_userland opts.detail c.event (columns_event_mem hd c hc)
  exact ⟨d, hlookup, prepared_eq hk hland hd'⟩

/-- The number under a column of the CSV report is the number of its `-e` event,
whatever the kernel answers and wherever the event stands in the list. -/
theorem csv_column_eq_dynamic (fl ft : ℚ → ℚ) (kernel : PerfEventAttr → Outcome) (time : ℚ)
    (path : String) (sep : Char) (opts : BenchmarkOpts)
    (hd : opts.detail = 1 ∨ opts.detail = 2 ∨ opts.detail = 3) (hk : opts.exclKernel = true) :
    let b := collapseRuns ft [benchmarkBin fl kernel time path opts]
    (cells (emitCsvOne b opts.detail sep)).length =
      (cells (emitCsvHeader opts.detail sep)).length ∧
    cells (emitCsvHeader opts.detail sep) =
      .str "name" :: .str "time_us" :: (columns opts.detail).map (fun c => .str c.header) ∧
    ∀ i c, (columns opts.detail)[i]? = some c →
      c.event ∈ eventGroup opts.detail ∧
      ∃ d v, lookupEvent c.eventName = some d ∧
        (cells (emitCsvOne b opts.detail sep))[i + 2]? = some (.int v) ∧
        ∀ (dynTime : ℚ) (defs : List EventDef) (j : ℕ), defs[j]? = some d →
          ((benchmarkBinDynamic fl ⟨fun _ attr => kernel attr, dynTime⟩ path defs
            opts).rows[j]?).map Row.value = some v := by
  intro b
  have hrow := cells_emitCsvOne hd b sep
  have hheader := cells_emitCsvHeader hd sep
  refine ⟨by rw [hrow, hheader]; simp, hheader, fun i c hi => ?_⟩
  have hc : c ∈ columns opts.detail := List.mem_of_getElem? hi
  obtain ⟨d, hlookup, hprep⟩ := columns_prepared hk hd hc
  refine ⟨columns_event_mem hd c hc, d, kernelClockRead fl (kernel (c.event.prepared opts)),
    hlookup, ?_, fun dynTime defs j hj => ?_⟩
  · rw [hrow, ← collapseRuns_column fl ft kernel time path hd hc]
    simp [hi, b]
  · simp [rows_getElem?, hj, hprep, dynamicRetrieve_eq]

/-- The last column at the second level, from a kernel that answers with the configuration. -/
theorem csv_column_eq_dynamic_last : ∃ d v, lookupEvent "LLC-load-misses" = some d ∧
    (cells (emitCsvOne (collapseRuns id [benchmarkBin id
      (fun attr => .opened ⟨attr.config.toBitVec, 1, 1⟩) 0 "ls" { detail := 2 }]) 2 ','))[25]? =
        some (.int v) ∧
    ((benchmarkBinDynamic id ⟨fun _ attr => .opened ⟨attr.config.toBitVec, 1, 1⟩, 0⟩ "ls" [d]
      { detail := 2 }).rows[0]?).map Row.value = some v := by
  obtain ⟨d, v, hlookup, hcell, hrow⟩ := ((csv_column_eq_dynamic id id
    (fun attr => .opened ⟨attr.config.toBitVec, 1, 1⟩) 0 "ls" ',' { detail := 2 }
    (.inr (.inl rfl)) rfl).2.2 23 _ rfl).2
  exact ⟨d, v, hlookup, hcell, hrow 0 [d] 0 rfl⟩

end Bbench.Report
