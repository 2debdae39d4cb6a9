import Bbench.Perf.Clock
import Bbench.Process.Ledger
import Bbench.Process.WallClock
import Bbench.Report.Main

/-! The report of an execution. The measurements that the two processes have made are what
`main` finds when it reads its counters and its clock, so the table of `-x` can be said in
terms of the work of the measured programs alone: the runs of a path are its own children,
and a column counts the units of work that its event sees. -/

namespace Bbench.Report

open Perf Cli Process Transition Clocks

variable {U : Type*} {sees : ℕ → U → Bool}

/-- What a counter delivers that ran whenever it was enabled. -/
structure Delivers (c : Process.Counter U) (o : Perf.Outcome) : Prop where
  refused : c.opened = false → ∃ errno, o = .failed errno
  opened : c.opened = true → ∃ r : Reading, o = .opened r ∧ r.value.toNat = c.counted.length ∧
    r.timeRunning = r.timeEnabled ∧ (r.timeRunning = 0 → c.counted = [])

/-- The units of work of a measurement that its counter `k` sees, if that is open. -/
def eventCount (sees : ℕ → U → Bool) (m : Measured U) (k : ℕ) : ℕ :=
  if (m.counters k).opened then m.units.countP (sees k) else 0

/-- From `cl.begin` to `cl.end`, in microseconds. -/
def elapsedTime (m : Measured U) : ℚ := TimeResolution.us.ofNs (m.stop - m.start : ℤ)

/-- `main` finds what the measurements have left: run `r` of path number `p` reads its own
counters, and its clock, which is as far ahead at `cl.end` as at `cl.begin`. -/
structure Finds (u : Units) (cli : CliOpts) (ms : List (Measured U)) (env : MainEnv) : Prop where
  kernel : ∀ p r m k attr, p < cli.paths.length → r < cli.nRuns →
    ms[p * cli.nRuns + r]? = some m → (staticAttrs cli.benchOpts)[k]? = some attr →
    Delivers (m.counters k) (env.kernel p r attr)
  time : ∀ p r m, p < cli.paths.length → r < cli.nRuns → ms[p * cli.nRuns + r]? = some m →
    ∃ ahead : ℤ, env.time p r =
      (timeClock ⟨m.start, m.start + ahead⟩ ⟨m.stop, m.stop + ahead⟩).elapsed u .us

/-- A reading is the number of events. -/
theorem kernelClockRead_delivers (fl : ℚ → ℚ) {c : Process.Counter U} {o : Perf.Outcome}
    (h : Delivers c o) (hlt : c.counted.length < 2 ^ 63) :
    kernelClockRead fl o = if c.opened then (c.counted.length : ℤ) else 0 := by
  cases hopened : c.opened with
  | false =>
    obtain ⟨errno, rfl⟩ := h.refused hopened
    simp [kernelClockRead, scaledCount]
  | true =>
    obtain ⟨r, rfl, hvalue, hran, hzero⟩ := h.opened hopened
    rw [if_pos rfl, kernelClockRead, scaledCount]
    by_cases hrunning : r.timeRunning = 0
    · rw [if_pos hrunning, hzero hrunning, List.length_nil, Nat.cast_zero]
    · rw [if_neg hrunning, if_pos hran, ← hvalue]
      exact (toInt_eq_toNat_iff r.value).mpr (hvalue ▸ hlt)

theorem kernelClockRead_own (fl : ℚ → ℚ) {m : Measured U} {k : ℕ} {o : Perf.Outcome}
    (h : Delivers (m.counters k) o) (hown : m.Own sees) (hk : k < m.size)
    (hfew : m.units.length < 2 ^ 63) : kernelClockRead fl o = eventCount sees m k := by
  unfold eventCount
  cases hopened : (m.counters k).opened with
  | false =>
    obtain ⟨errno, rfl⟩ := h.refused hopened
    simp [kernelClockRead, scaledCount]
  | true =>
    have hcounted := hown.counted k hk hopened
    have hlength : (m.counters k).counted.length = m.units.countP (sees k) := by
      rw [hcounted, List.countP_eq_length_filter]
    have hle : m.units.countP (sees k) ≤ m.units.length := List.countP_le_length
    rw [kernelClockRead_delivers fl h (by omega), hopened, hlength]
    rfl

/-! ### The runs of a path -/

section Runs
variable (sees) (cli : CliOpts) (ms : List (Measured U))

/-- The measurements of path number `p`. -/
def measuredOf (p : ℕ) : List (Measured U) := (ms.drop (p * cli.nRuns)).take cli.nRuns

/-- The mean of their times. -/
def meanTime (p : ℕ) : ℚ := ((measuredOf cli ms p).map elapsedTime).sum / cli.nRuns

/-- The mean of the counts of counter `k`, truncated. -/
def meanCount (p k : ℕ) : ℤ :=
  ((measuredOf cli ms p).map fun m => (eventCount sees m k : ℤ)).sum.tdiv cli.nRuns

/-- A row of the table says what the runs of path number `p` did. -/
structure RowReports (r : Rendering) (row : List (List Char)) (p : ℕ) : Prop where
  name : ∀ path, cli.paths[p]? = some path →
    fieldUnder (csvHeader cli.benchOpts.detail) row "name" = some path.toList
  time : fieldUnder (csvHeader cli.benchOpts.detail) row "time_us" =
    some (r.double (meanTime cli ms p))
  column : ∀ c ∈ columns cli.benchOpts.detail, ∃ k,
    (eventGroup cli.benchOpts.detail)[k]? = some c.event ∧
    fieldUnder (csvHeader cli.benchOpts.detail) row c.header =
      some (r.int (meanCount sees cli ms p k))

end Runs

section Path
variable {cli : CliOpts} {ms : List (Measured U)} {env : MainEnv} {p : ℕ} {path : String}

/-- With all runs measured, the runs of a path by their numbers. -/
theorem map_range_measuredOf {β : Type*} (hlen : (p + 1) * cli.nRuns ≤ ms.length) {f : ℕ → β}
    {g : Measured U → β}
    (h : ∀ r m, r < cli.nRuns → ms[p * cli.nRuns + r]? = some m → f r = g m) :
    (List.range cli.nRuns).map f = (measuredOf cli ms p).map g := by
  have hlength : (measuredOf cli ms p).length = cli.nRuns := by
    rw [Nat.succ_mul] at hlen
    rw [measuredOf, List.length_take, List.length_drop]
    omega
  refine List.ext_getElem (by rw [List.length_map, List.length_map, List.length_range, hlength]) ?_
  intro i hi hi'
  have hlt : i < cli.nRuns := by simpa using hi
  rw [List.getElem_map, List.getElem_map, List.getElem_range]
  refine h i _ hlt ?_
  rw [List.getElem?_eq_getElem (by rw [Nat.succ_mul] at hlen; omega)]
  simp [measuredOf]

/-- The `k`-th counter of a run is the one of the `k`-th event of the group. -/
theorem staticAttrs_getElem? (opts : BenchmarkOpts) (k : ℕ) :
    (staticAttrs opts)[k]? = (eventGroup opts.detail)[k]?.map (Event.prepared opts) := by
  rw [staticAttrs, preparedGroup_eq, List.map_map, List.getElem?_map]
  rfl

/-- All runs of all paths have been measured, each by its own counters. -/
structure AllMeasured (sees : ℕ → U → Bool) (cli : CliOpts) (ms : List (Measured U)) : Prop where
  own : ∀ m ∈ ms, m.Own sees
  length : cli.paths.length * cli.nRuns ≤ ms.length
  size : ∀ i m, i < cli.paths.length * cli.nRuns → ms[i]? = some m →
    m.size = (eventGroup cli.benchOpts.detail).length
  few : (ms.flatMap Measured.units).length < 2 ^ 63

theorem AllMeasured.few_of_mem (hms : AllMeasured sees cli ms) {m : Measured U} (hm : m ∈ ms) :
    m.units.length < 2 ^ 63 := by
  have hle : m.units.length ≤ (ms.flatMap Measured.units).length :=
    (List.sublist_flatten_of_mem (List.mem_map_of_mem hm)).length_le
  exact hle.trans_lt hms.few

/-- What `main` reads for an event of the group is what the counter of the event has seen. -/
theorem Finds.read {u : Units} (hfinds : Finds u cli ms env) (hms : AllMeasured sees cli ms)
    (hp : p < cli.paths.length) (fl : ℚ → ℚ) {e : Event} {k : ℕ}
    (hk : (eventGroup cli.benchOpts.detail)[k]? = some e) {r : ℕ} {m : Measured U}
    (hr : r < cli.nRuns) (hm : ms[p * cli.nRuns + r]? = some m) :
    kernelClockRead fl (env.kernel p r (e.prepared cli.benchOpts)) = eventCount sees m k := by
  have hblock : (p + 1) * cli.nRuns ≤ cli.paths.length * cli.nRuns := Nat.mul_le_mul_right _ hp
  have hattr : (staticAttrs cli.benchOpts)[k]? = some (e.prepared cli.benchOpts) := by
    rw [staticAttrs_getElem?, hk, Option.map_some]
  have hmem : m ∈ ms := List.mem_of_getElem? hm
  have hsize : k < m.size := by
    rw [hms.size _ m (by rw [Nat.succ_mul] at hblock; omega) hm]
    exact (List.getElem?_eq_some_iff.mp hk).1
  exact kernelClockRead_own fl (hfinds.kernel p r m k _ hp hr hm hattr) (hms.own m hmem) hsize
    (hms.few_of_mem hmem)

/-- A counter sees no more than the work of its measurement. -/
theorem eventCount_le (sees : ℕ → U → Bool) (m : Measured U) (k : ℕ) :
    eventCount sees m k ≤ m.units.length := by
  unfold eventCount
  split
  · exact List.countP_le_length
  · exact Nat.zero_le _

/-- And in the runs of a path no more than all the work there is. -/
theorem AllMeasured.sum_lt (hms : AllMeasured sees cli ms) (p k : ℕ) :
    ((measuredOf cli ms p).map fun m => eventCount sees m k).sum < 2 ^ 63 := by
  have hsub : (measuredOf cli ms p).Sublist ms :=
    (List.take_sublist _ _).trans (List.drop_sublist _ _)
  calc ((measuredOf cli ms p).map fun m => eventCount sees m k).sum
      ≤ ((measuredOf cli ms p).map fun m => m.units.length).sum :=
        List.sum_le_sum fun m _ => eventCount_le sees m k
    _ ≤ (ms.map fun m => m.units.length).sum := (hsub.map _).sum_le_sum (fun _ _ => Nat.zero_le _)
    _ = (ms.flatMap Measured.units).length := List.length_flatMap.symm
    _ < 2 ^ 63 := hms.few

/-- So its counts can be summed. -/
theorem Finds.countsFit {u : Units} (hfinds : Finds u cli ms env) (hms : AllMeasured sees cli ms)
    (fl : ℚ → ℚ) : AllCountsFit fl cli env := by
  intro p hp e he k hk
  obtain ⟨i, hi⟩ := List.mem_iff_getElem?.mp he
  have hlen : (p + 1) * cli.nRuns ≤ ms.length :=
    (Nat.mul_le_mul_right _ hp).trans hms.length
  have hreads : ((List.range cli.nRuns).map fun r =>
      kernelClockRead fl (env.kernel p r (e.prepared cli.benchOpts))) =
      (measuredOf cli ms p).map fun m => (eventCount sees m i : ℤ) :=
    map_range_measuredOf hlen fun r m hr hm => hfinds.read hms hp fl hi hr hm
  have hlt := hms.sum_lt p i
  have hsum : Lib.FitsWord 64 ((List.range cli.nRuns).map fun r =>
      kernelClockRead fl (env.kernel p r (e.prepared cli.benchOpts))).sum := by
    have hcast : ((measuredOf cli ms p).map fun m => (eventCount sees m i : ℤ)).sum =
        (((measuredOf cli ms p).map fun m => eventCount sees m i).sum : ℕ) := by
      rw [Nat.cast_list_sum, List.map_map]
      rfl
    rw [hreads, hcast]
    constructor <;> omega
  have hpos : ∀ x ∈ (List.range cli.nRuns).map fun r =>
      kernelClockRead fl (env.kernel p r (e.prepared cli.benchOpts)), 0 ≤ x := by
    rw [hreads]
    exact List.forall_mem_map.mpr fun m _ => Int.natCast_nonneg _
  have htake := Lib.fitsWord_take hpos hsum k
  rwa [← List.map_take, List.take_range, min_eq_left hk] at htake

/-- The average of a path is about its own runs. -/
theorem Finds.average {u : Units} (hu : u.Convert) (hfinds : Finds u cli ms env)
    (hms : AllMeasured sees cli ms) (hp : p < cli.paths.length)
    (hd : cli.benchOpts.detail = 1 ∨ cli.benchOpts.detail = 2 ∨ cli.benchOpts.detail = 3)
    {fl : ℚ → ℚ} {b : BenchmarkT} (haverage : Averages fl id cli env p path b) :
    b.time = meanTime cli ms p ∧ ∀ c ∈ columns cli.benchOpts.detail, ∃ k,
      (eventGroup cli.benchOpts.detail)[k]? = some c.event ∧
      c.field b = meanCount sees cli ms p k := by
  have hlen : (p + 1) * cli.nRuns ≤ ms.length :=
    (Nat.mul_le_mul_right _ hp).trans hms.length
  constructor
  · have htime (r : ℕ) (m : Measured U) (hr : r < cli.nRuns)
        (hm : ms[p * cli.nRuns + r]? = some m) : env.time p r = elapsedTime m := by
      obtain ⟨ahead, heq⟩ := hfinds.time p r m hp hr hm
      rw [heq, elapsed_timeClock hu, elapsedTime]
      exact congrArg _ (add_sub_add_right_eq_sub _ _ _)
    rw [haverage.time, avgDouble_id, exactMean, List.length_range, meanTime,
      map_range_measuredOf hlen htime]
  · intro c hc
    obtain ⟨k, hk⟩ := List.mem_iff_getElem?.mp (columns_event_mem hd c hc)
    refine ⟨k, hk, ?_⟩
    rw [haverage.column c hc, truncMean, List.length_range, meanCount,
      map_range_measuredOf hlen fun r m hr hm => hfinds.read hms hp fl hk hr hm]

/-- The work of all measurements is part of what has been executed. -/
theorem units_of_run {supported : Bool} {clock : Clock} {ls : List (Label U)} {w : Ledger U}
    (hrun : run (ledgerStep sees) (ledger (mainOps supported cli) clock) ls = some w)
    (hfew : w.state.executed.length < 2 ^ 63) :
    (w.results.flatMap Measured.units).length < 2 ^ 63 := by
  rw [← (kept_run (measures_mainOps supported cli) hrun).work, List.length_append] at hfew
  omega

/-- What an execution of `main` that returns has measured: every run of every path, with the
counters of a run, each measurement by its own counters. -/
theorem results_of_run {supported : Bool} {clock : Clock} {ls : List (Label U)} {w : Ledger U}
    (hrun : run (ledgerStep sees) (ledger (mainOps supported cli) clock) ls = some w)
    (hend : w.state.prog = []) (hret : w.state.raised = false)
    (hfew : w.state.executed.length < 2 ^ 63) :
    cli.paths.length * cli.nRuns ≤ w.results.length ∧
      (∀ i m, i < cli.paths.length * cli.nRuns → w.results[i]? = some m →
        m.size = (runAttrs cli).length) ∧
      ∀ m ∈ w.results, m.Own sees ∧ m.units.length < 2 ^ 63 := by
  have hkept := kept_run (measures_mainOps supported cli) hrun
  have hsizes : w.results.map Measured.size = mainSizes supported cli := by
    have hsizes := hkept.sizes hret
    rw [hend, List.filterMap_nil, List.append_nil] at hsizes
    exact hsizes.trans (stops_mainOps supported cli)
  refine ⟨?_, fun i m hi hm => ?_, fun m hm => ⟨hkept.own m hm, ?_⟩⟩
  · have hlength := congrArg List.length hsizes
    rw [List.length_map, mainSizes, List.length_append, List.length_replicate] at hlength
    omega
  · have hget : (w.results.map Measured.size)[i]? = some m.size := by
      rw [List.getElem?_map, hm, Option.map_some]
    rw [hsizes, mainSizes, List.getElem?_append_left (by rwa [List.length_replicate]),
      List.getElem?_replicate_of_lt hi] at hget
    exact (Option.some.inj hget).symm
  · have hle : m.units.length ≤ (w.results.flatMap Measured.units).length :=
      (List.sublist_flatten_of_mem (List.mem_map_of_mem hm)).length_le
    exact hle.trans_lt (units_of_run hrun hfew)

theorem allMeasured_of_run {supported : Bool} {clock : Clock} {ls : List (Label U)} {w : Ledger U}
    (hevents : cli.benchOpts.eventCsv = none)
    (hrun : run (ledgerStep sees) (ledger (mainOps supported cli) clock) ls = some w)
    (hend : w.state.prog = []) (hret : w.state.raised = false)
    (hfew : w.state.executed.length < 2 ^ 63) : AllMeasured sees cli w.results := by
  obtain ⟨hlength, hsize, hmeasured⟩ := results_of_run hrun hend hret hfew
  have hgroup : (runAttrs cli).length = (eventGroup cli.benchOpts.detail).length := by
    simp [runAttrs, hevents, staticAttrs, preparedGroup_eq]
  exact ⟨fun m hm => (hmeasured m hm).1, hlength, fun i m hi hm => (hsize i m hi hm).trans hgroup,
    units_of_run hrun hfew⟩

/-! ### What `main` may find -/

/-- The counters of a run make different requests. -/
theorem staticAttrs_nodup (opts : BenchmarkOpts) : (staticAttrs opts).Nodup := by
  have hkeys : ((eventGroup opts.detail).map fun e => (e.attr.type, e.attr.config)).Nodup := by
    unfold eventGroup
    split <;> decide
  have hattrs : (staticAttrs opts).map (fun attr => (attr.type, attr.config)) =
      (eventGroup opts.detail).map fun e => (e.attr.type, e.attr.config) := by
    rw [staticAttrs, preparedGroup_eq, List.map_map, List.map_map]
    rfl
  exact (hattrs ▸ hkeys).of_map _

/-- Counters that a run may find when it has measured all of `m`. -/
def deliver (c : Process.Counter U) : Perf.Outcome :=
  if c.opened then .opened ⟨BitVec.ofNat 64 c.counted.length, 1, 1⟩ else .failed 2

theorem delivers_deliver {c : Process.Counter U}
    (hlt : c.opened = true → c.counted.length < 2 ^ 64) : Delivers c (deliver c) where
  refused h := ⟨2, by simp [deliver, h]⟩
  opened h := by
    have hone : (1 : BitVec 64) ≠ 0 := by decide
    refine ⟨_, if_pos h, ?_, rfl, fun hzero => absurd hzero hone⟩
    rw [BitVec.toNat_ofNat, Nat.mod_eq_of_lt (hlt h)]

/-- Whatever has been measured, `main` may find it. -/
theorem exists_finds (u : Units) (hms : AllMeasured sees cli ms) : ∃ env, Finds u cli ms env := by
  let attrs := staticAttrs cli.benchOpts
  let kernel (p r : ℕ) (attr : PerfEventAttr) : Perf.Outcome :=
    match ms[p * cli.nRuns + r]? with
    | some m => deliver (m.counters (attrs.idxOf attr))
    | none => .failed 2
  let time (p r : ℕ) : ℚ :=
    match ms[p * cli.nRuns + r]? with
    | some m => (timeClock ⟨m.start, m.start⟩ ⟨m.stop, m.stop⟩).elapsed u .us
    | none => 0
  refine ⟨⟨kernel, time, fun _ => ⟨fun _ => .failed 2, .failed 2⟩, fun _ => []⟩, ?_, ?_⟩
  · intro p r m k attr hp hr hm hattr
    obtain ⟨hk, hget⟩ := List.getElem?_eq_some_iff.mp hattr
    have hidx : attrs.idxOf attr = k := by
      rw [← hget]
      exact (staticAttrs_nodup _).idxOf_getElem k hk
    have hread : kernel p r attr = deliver (m.counters k) := by
      simp only [kernel, hm, hidx]
    show Delivers (m.counters k) (kernel p r attr)
    rw [hread]
    refine delivers_deliver fun hopened => ?_
    have hsize : k < m.size := by
      have hblock : (p + 1) * cli.nRuns ≤ cli.paths.length * cli.nRuns :=
        Nat.mul_le_mul_right _ hp
      rw [hms.size _ m (by rw [Nat.succ_mul] at hblock; omega) hm]
      simpa [staticAttrs, preparedGroup_eq] using hk
    have hmem : m ∈ ms := List.mem_of_getElem? hm
    have hle := List.length_filter_le (sees k) m.units
    have hfew := hms.few_of_mem hmem
    rw [(hms.own m hmem).counted k hsize hopened]
    omega
  · intro p r m hp hr hm
    refine ⟨0, ?_⟩
    simp only [time, hm, add_zero]

end Path

/-! ### The table -/

section Table
variable {r : Rendering} {fl : ℚ → ℚ} {argv : List String} {cli : CliOpts} {supported : Bool}
  {clock : Clock} {ls : List (Label U)} {w : Ledger U} {u : Units} {env : MainEnv}

/-- `bbench -x` tells what the measured programs did. For every accepted command line whose
paths and separator can be told apart, every interleaving of `bbench` with the programs it
starts in which `main` returns, and whatever the kernel answers otherwise, the output has one
row for each path, in the order of the mean times. A row has the path, the mean time of its
own runs on the monotonic clock, and under each counter the truncated mean of how many units
of work its event saw in these runs, where a run whose counter could not be opened counts as
zero; the wall clock must not be set while a run is timed, and counters must be scheduled
whenever they are enabled. -/
theorem main_reports (hr : r.Decimal) (hargv : parseArgv argv = .ok cli)
    (hevents : cli.benchOpts.eventCsv = none)
    (hsep : r.Separates cli.benchOpts.detail cli.csvSep) (h0 : cli.csvSep ≠ Char.ofNat 0)
    (hnl : cli.csvSep ≠ '\n')
    (hpaths : ∀ p ∈ cli.paths, '\n' ∉ p.toList ∧ cli.csvSep ∉ p.toList ∧ '\x00' ∉ p.toList)
    (hrun : run (ledgerStep sees) (ledger (mainOps supported cli) clock) ls = some w)
    (hend : w.state.prog = []) (hret : w.state.raised = false)
    (hfew : w.state.executed.length < 2 ^ 63) (hu : u.Convert)
    (hfinds : Finds u cli w.results env) : ∃ order : List ℕ,
      order.Perm (List.range cli.paths.length) ∧
      order.Pairwise (fun p q => meanTime cli w.results p ≤ meanTime cli w.results q) ∧
      ∃ rows, table cli.csvSep (text r (mainStatic fl id cli env)) =
          csvHeader cli.benchOpts.detail :: rows ∧
        List.Forall₂ (RowReports sees cli w.results r) rows order := by
  have hd := detail_of_parseArgv hargv
  have hmeasured := allMeasured_of_run hevents hrun hend hret hfew
  obtain ⟨order, hsorted, hfits, htable⟩ := @table_mainStatic fl id argv cli r hr hargv hevents hsep
    h0 hnl hpaths env (hfinds.countsFit hmeasured fl)
  have hlt (p : ℕ) (hp : p ∈ order) : p < cli.paths.length :=
    List.mem_range.mp (hsorted.perm.mem_iff.mp hp)
  have hmean (p : ℕ) (hp : p ∈ order) :=
    hfinds.average hu hmeasured (hlt p hp) hd
      (hsorted.average p _ (List.getElem?_eq_getElem (hlt p hp)))
  refine ⟨order, hsorted.perm, ?_, _, htable, ?_⟩
  · refine hsorted.pairwise.imp_of_mem fun {p q} hp hq hle => ?_
    rwa [(hmean p hp).1, (hmean q hq).1] at hle
  · rw [List.forall₂_map_left_iff, List.forall₂_same]
    intro p hp
    have hdecodes := rowDecodes_csvRow hr cli.benchOpts.detail (hfits p hp).2.2
    obtain ⟨htime, hcolumn⟩ := hmean p hp
    refine ⟨fun path hpath => ?_, ?_, fun c hc => ?_⟩
    · rw [hdecodes.name, (hsorted.average p path hpath).name]
    · obtain ⟨cell, hcell, hread⟩ := hdecodes.time
      rw [hcell, (hread _).mpr htime.symm]
    · obtain ⟨k, hk, hfield⟩ := hcolumn c hc
      obtain ⟨cell, hcell, hread⟩ := hdecodes.column c (csvColumns_eq hd ▸ hc)
      exact ⟨k, hk, by rw [hcell, (hread _).mpr hfield.symm]⟩

end Table

/-- One run of `bbench -x , ./a`: fourteen counters, two units of work, a tick of the clock. -/
def tableRun : List (Label ℕ) :=
  List.replicate 19 (.parent true) ++ List.replicate 4 (.stub true) ++ [.parent true, .work 1] ++
    [.tick 5000, .work 2, .exit] ++ List.replicate 18 (.parent true)

theorem main_reports_one :
    let cli : CliOpts := { csvSep := ',', paths := ["./a"] }
    ∃ (w : Ledger ℕ) (env : MainEnv) (row : List (List Char)),
      w.results.map Measured.units = [[1, 2]] ∧
      table ',' (text decimalRendering (mainStatic id id cli env)) = [csvHeader 1, row] ∧
      RowReports (fun k u => k = u) cli w.results decimalRendering row 0 := by
  intro cli
  have hargv : parseArgv ["bbench", "-x", ",", "./a"] = .ok cli := by decide
  have hrun : (run (ledgerStep fun k u => k = u) (ledger (mainOps false cli) ⟨0, by decide⟩)
      tableRun).map (fun w : Ledger ℕ => (w.state.prog, w.state.raised, w.state.executed,
        w.results.map Measured.units)) = some ([], false, [1, 2], [[1, 2]]) := by
    decide +kernel
  obtain ⟨w, hw, heq⟩ := Option.map_eq_some_iff.mp hrun
  simp only [Prod.mk.injEq] at heq
  obtain ⟨hend, hret, hexecuted, hresults⟩ := heq
  have hfew : w.state.executed.length < 2 ^ 63 := by
    rw [hexecuted]
    decide
  obtain ⟨env, hfinds⟩ := exists_finds exactUnits (allMeasured_of_run rfl hw hend hret hfew)
  obtain ⟨order, hperm, -, rows, htable, hrows⟩ := @main_reports _ _ _ id _ cli _ _ _ _ _ env
    decimalRendering_decimal hargv rfl (decimalRendering_separates 1) (by decide) (by decide)
    (by decide) hw hend hret hfew exactUnits_convert hfinds
  obtain rfl : order = [0] := List.perm_singleton.mp hperm
  cases hrows with
  | cons hrow hnil =>
    cases hnil
    exact ⟨w, env, _, hresults, htable, hrow⟩

end Bbench.Report
