import Bbench.Report.DynamicReport
import Bbench.Report.Execution

/-! The report of `-e` for an execution. What `main` keeps of a path is its last run, so a
row says how many units of work of that run's child its event saw, and the runs before it
leave nothing in the report. -/

namespace Bbench.Report

open Perf Cli Process Transition Clocks Lib

variable {U : Type*} {sees : ℕ → U → Bool}

/-- `main` finds what the measurements have left: run `r` of path number `p` reads its own
counters, one for each event, and its clock. An open that fails has an errno. -/
structure FindsDynamic (u : Units) (cli : CliOpts) (events : List EventDef)
    (ms : List (Measured U)) (env : ℕ → ℕ → RunEnv) : Prop where
  answer : ∀ p r m k d, p < cli.paths.length → r < cli.nRuns →
    ms[p * cli.nRuns + r]? = some m → events[k]? = some d →
    Delivers (m.counters k) ((env p r).answer k (d.prepared cli.benchOpts))
  errno : ∀ p r k attr, (env p r).answer k attr ≠ .failed 0
  time : ∀ p r m, p < cli.paths.length → r < cli.nRuns → ms[p * cli.nRuns + r]? = some m →
    ∃ ahead : ℤ, (env p r).time =
      (timeClock ⟨m.start, m.start + ahead⟩ ⟨m.stop, m.stop + ahead⟩).elapsed u .us

/-- A result says what a measurement was about: its time, and for each event in order how
many units of work its counter saw, with an errno exactly where that could not be opened. -/
structure ResultReports (sees : ℕ → U → Bool) (events : List EventDef) (m : Measured U)
    (res : DynamicResult) : Prop where
  time : res.time = elapsedTime m
  names : res.rows.map Row.name = events.map EventDef.name
  value : ∀ (k : ℕ) (row : Row), res.rows[k]? = some row →
    row.value = (eventCount sees m k : ℤ)
  err : ∀ (k : ℕ) (row : Row), res.rows[k]? = some row →
    (row.err = 0 ↔ (m.counters k).opened = true)

section Result
variable {cli : CliOpts} {ms : List (Measured U)} {env : ℕ → ℕ → RunEnv} {p : ℕ} {path : String}
  {u : Units} {events : List EventDef} {m : Measured U} {r : ℕ}

/-- The errno of an open that may have failed. -/
theorem errno_delivers {c : Process.Counter U} {o : Perf.Outcome} (h : Delivers c o)
    (herrno : o ≠ .failed 0) : o.errno = 0 ↔ c.opened = true := by
  cases hopened : c.opened with
  | false =>
    obtain ⟨errno, rfl⟩ := h.refused hopened
    refine iff_of_false (fun hzero => herrno ?_) (by simp)
    exact congrArg _ hzero
  | true =>
    obtain ⟨reading, rfl, -⟩ := h.opened hopened
    exact iff_of_true rfl rfl

/-- A run reports its own measurement. -/
theorem FindsDynamic.resultReports (hu : u.Convert) (hfinds : FindsDynamic u cli events ms env)
    (fl : ℚ → ℚ) (hp : p < cli.paths.length) (hr : r < cli.nRuns)
    (hm : ms[p * cli.nRuns + r]? = some m) (hown : m.Own sees) (hsize : m.size = events.length)
    (hfew : m.units.length < 2 ^ 63) : ResultReports sees events m
      (benchmarkBinDynamic fl (env p r) path events cli.benchOpts) := by
  have hrow (k : ℕ) (row : Row)
      (h : (benchmarkBinDynamic fl (env p r) path events cli.benchOpts).rows[k]? = some row) :
      k < m.size ∧ ∃ o, Delivers (m.counters k) o ∧ o ≠ .failed 0 ∧
        row.value = dynamicRetrieve fl o ∧ row.err = o.errno := by
    rw [rows_getElem?, Option.map_eq_some_iff] at h
    obtain ⟨d, hd, rfl⟩ := h
    refine ⟨hsize ▸ (List.getElem?_eq_some_iff.mp hd).1, _, hfinds.answer p r m k d hp hr hm hd,
      hfinds.errno p r k _, rfl, rfl⟩
  refine ⟨?_, ?_, fun k row h => ?_, fun k row h => ?_⟩
  · obtain ⟨ahead, heq⟩ := hfinds.time p r m hp hr hm
    show (env p r).time = elapsedTime m
    rw [heq, elapsed_timeClock hu, elapsedTime]
    exact congrArg _ (add_sub_add_right_eq_sub _ _ _)
  · apply List.ext_getElem?
    intro k
    rw [List.getElem?_map, rows_getElem?, List.getElem?_map, Option.map_map]
    rfl
  · obtain ⟨hk, o, hdelivers, -, hvalue, -⟩ := hrow k row h
    rw [hvalue, dynamicRetrieve_eq]
    exact kernelClockRead_own fl hdelivers hown hk hfew
  · obtain ⟨-, o, hdelivers, herrno, -, herr⟩ := hrow k row h
    rw [herr]
    exact errno_delivers hdelivers herrno

/-- Whatever has been measured, `main` may find it. -/
theorem exists_findsDynamic (u : Units) (cli : CliOpts) (events : List EventDef)
    (hms : ∀ i m, i < cli.paths.length * cli.nRuns → ms[i]? = some m → m.Own sees ∧
      m.size = events.length ∧ m.units.length < 2 ^ 63) :
    ∃ env, FindsDynamic u cli events ms env := by
  let answer (p r k : ℕ) (_ : PerfEventAttr) : Perf.Outcome :=
    match ms[p * cli.nRuns + r]? with
    | some m => deliver (m.counters k)
    | none => .failed 2
  let time (p r : ℕ) : ℚ :=
    match ms[p * cli.nRuns + r]? with
    | some m => (timeClock ⟨m.start, m.start⟩ ⟨m.stop, m.stop⟩).elapsed u .us
    | none => 0
  refine ⟨fun p r => ⟨answer p r, time p r⟩, ?_, ?_, ?_⟩
  · intro p r m k d hp hr hm hd
    have hread : answer p r k (d.prepared cli.benchOpts) = deliver (m.counters k) := by
      simp only [answer, hm]
    show Delivers (m.counters k) (answer p r k (d.prepared cli.benchOpts))
    rw [hread]
    have hblock : (p + 1) * cli.nRuns ≤ cli.paths.length * cli.nRuns := Nat.mul_le_mul_right _ hp
    rw [Nat.succ_mul] at hblock
    obtain ⟨hown, hsize, hfew⟩ := hms _ m (by omega) hm
    refine delivers_deliver fun hopened => ?_
    have hk : k < m.size := hsize ▸ (List.getElem?_eq_some_iff.mp hd).1
    have hle := List.length_filter_le (sees k) m.units
    rw [hown.counted k hk hopened]
    omega
  · intro p r k attr
    simp only [answer]
    split
    · unfold deliver
      split <;> simp
    · simp
  · intro p r m hp hr hm
    refine ⟨0, ?_⟩
    simp only [time, hm, add_zero]

end Result

/-! ### The report -/

section Report
variable {r : Rendering} {fl : ℚ → ℚ} {argv : List String} {cli : CliOpts} {supported : Bool}
  {clock : Clock} {ls : List (Label U)} {w : Ledger U} {u : Units} {env : ℕ → ℕ → RunEnv}
  {csv : String}

/-- An execution of `main` with `-e` has one counter for each event of the list. -/
theorem length_runAttrs_dynamic (hcsv : cli.benchOpts.eventCsv = some csv) :
    (runAttrs cli).length = (parseEventList csv []).2.length := by
  simp [runAttrs, hcsv, dynamicGroup]

/-- `bbench -e` tells what the last runs did. For every accepted command line whose paths
stay on their lines and are not indented, every interleaving of `bbench` with the programs it
starts in which `main` returns, and whatever the kernel answers otherwise, the output has one
group for each path in order. It shows the path and the time of its last run on the monotonic
clock, and under it a row for each event of the list, in order, with how many units of work
of that run's child the event saw and, with `-v`, an errno exactly where its counter could
not be opened; the wall clock must not be set while a run is timed, and counters must be
scheduled whenever they are enabled. -/
theorem main_dynamic_reports (hr : r.Decimal) (hint : ∀ v, ' ' ∉ r.int v)
    (hdouble : ∀ t, '=' ∉ r.double t) (hargv : parseArgv argv = .ok cli)
    (hcsv : cli.benchOpts.eventCsv = some csv)
    (hpaths : ∀ p ∈ cli.paths, '\n' ∉ p.toList ∧ '\x00' ∉ p.toList ∧ isRow p.toList = false)
    (hrun : run (ledgerStep sees) (ledger (mainOps supported cli) clock) ls = some w)
    (hend : w.state.prog = []) (hret : w.state.raised = false)
    (hfew : w.state.executed.length < 2 ^ 63) (hu : u.Convert)
    (hfinds : FindsDynamic u cli (parseEventList csv []).2 w.results env) : ∃ groups,
      cutGroups isRow (cutLines '\n' (text r (mainDynamic fl cli env).flatten)) = ([], groups) ∧
      List.Forall₂ (fun group q => ∃ m res,
        w.results[q.2 * cli.nRuns + (cli.nRuns - 1)]? = some m ∧
        ResultReports sees (parseEventList csv []).2 m res ∧
        GroupShows r cli.verbose group q.1 res) groups cli.paths.zipIdx := by
  obtain ⟨hlength, hsize, hmeasured⟩ := results_of_run hrun hend hret hfew
  have hn : 1 ≤ cli.nRuns := nRuns_pos hargv
  refine ⟨_, cutGroups_mainDynamic hr hn hcsv hpaths env, ?_⟩
  rw [List.forall₂_map_left_iff, List.forall₂_same]
  intro q hq
  have hp : q.2 < cli.paths.length := by
    simpa using List.snd_lt_of_mem_zipIdx hq
  -- the last run of the path is among the measurements
  have hblock : (q.2 + 1) * cli.nRuns ≤ cli.paths.length * cli.nRuns := Nat.mul_le_mul_right _ hp
  rw [Nat.succ_mul] at hblock
  have hlt : q.2 * cli.nRuns + (cli.nRuns - 1) < w.results.length := by omega
  have hm := List.getElem?_eq_getElem hlt
  obtain ⟨hown, hunits⟩ := hmeasured _ (List.getElem_mem hlt)
  have hsize := (hsize _ _ (by omega) hm).trans (length_runAttrs_dynamic hcsv)
  refine ⟨_, lastResult fl cli (parseEventList csv []).2 env q, hm, ?_, ?_⟩
  · exact hfinds.resultReports hu fl hp (by omega) hm hown hsize hunits
  · exact groupShows hint hdouble (rowFits_lastResult (parseEventList_known csv) q) cli.verbose q.1

end Report

/-- Two runs of `bbench -e cycles,cs ./a`: the first with both counters and two units of
work, the second without the second counter and with one. -/
def eventRuns : List (Label ℕ) :=
  let one (ok : Bool) (us : List ℕ) : List (Label ℕ) :=
    List.replicate 4 (.parent true) ++ [.parent ok] ++ List.replicate 2 (.parent true) ++
      List.replicate 4 (.stub true) ++ [.parent true] ++ us.map .work ++ [.tick 5000, .exit] ++
      List.replicate 6 (.parent true)
  one true [1, 2] ++ one false [3]

theorem main_dynamic_reports_second :
    let cli : CliOpts := { benchOpts := { eventCsv := some "cycles,cs" }, nRuns := 2,
                           verbose := true, paths := ["./a"] }
    ∃ (w : Ledger ℕ) (env : ℕ → ℕ → RunEnv) (group : List Char × List (List Char))
        (m : Measured ℕ) (res : DynamicResult),
      w.results.map Measured.units = [[1, 2], [3]] ∧ w.results[1]? = some m ∧
      cutGroups isRow (cutLines '\n'
        (text decimalRendering (mainDynamic id cli env).flatten)) = ([], [group]) ∧
      ResultReports (fun _ _ => true) (parseEventList "cycles,cs" []).2 m res ∧
      GroupShows decimalRendering true group "./a" res := by
  intro cli
  have hargv : parseArgv ["bbench", "-e", "cycles,cs", "-n", "2", "-v", "./a"] = .ok cli := by
    decide
  have hrun : (run (ledgerStep fun _ _ => true) (ledger (mainOps false cli) ⟨0, by decide⟩)
      eventRuns).map (fun w : Ledger ℕ => (w.state.prog, w.state.raised, w.state.executed,
        w.results.map Measured.units)) = some ([], false, [1, 2, 3], [[1, 2], [3]]) := by
    decide +kernel
  obtain ⟨w, hw, heq⟩ := Option.map_eq_some_iff.mp hrun
  simp only [Prod.mk.injEq] at heq
  obtain ⟨hend, hret, hexecuted, hresults⟩ := heq
  have hfew : w.state.executed.length < 2 ^ 63 := by
    rw [hexecuted]
    decide
  obtain ⟨-, hsize, hmeasured⟩ := results_of_run hw hend hret hfew
  obtain ⟨env, hfinds⟩ := exists_findsDynamic exactUnits cli (parseEventList "cycles,cs" []).2
    fun i m hi hm => ⟨(hmeasured m (List.mem_of_getElem? hm)).1,
      (hsize i m hi hm).trans (length_runAttrs_dynamic rfl),
      (hmeasured m (List.mem_of_getElem? hm)).2⟩
  have hint : ∀ v, ' ' ∉ decimalRendering.int v := fun v hc =>
    absurd (mem_decimalInt hc) (by decide)
  have hdouble : ∀ t, '=' ∉ decimalRendering.double t := fun t hc =>
    absurd (mem_decimalDouble hc) (by decide)
  obtain ⟨groups, hcut, hgroups⟩ := @main_dynamic_reports _ _ decimalRendering id _ cli _ _ _ _
    exactUnits env _ decimalRendering_decimal hint hdouble hargv rfl (by decide) hw hend hret hfew
    exactUnits_convert hfinds
  cases hgroups with
  | cons hgroup hnil =>
    cases hnil
    obtain ⟨m, res, hm, hreports, hshows⟩ := hgroup
    exact ⟨w, env, _, m, res, hresults, hm, hcut, hreports, hshows⟩

end Bbench.Report
