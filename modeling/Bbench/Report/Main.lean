import Bbench.Cli.Accepted
import Bbench.Report.Collapse
import Bbench.Report.Csv
import Bbench.Report.Human
import Bbench.Report.Operands
import Bbench.Report.Sort

/-! What `main` writes without `-e`, from the options to the last call. All runs of all
paths are kept until the end; then the paths are sorted by their mean times, and each of
them is averaged and printed. With `-x` the result is one table, and its rows are the
averages of what the kernel has answered. -/

namespace Bbench.Report

open Perf Cli

/-- `emit_table`. -/
def emitTable (runs : List BenchmarkT) : List Emit :=
  if runs = [] then []
  else
    let s := computeStats runs BenchmarkT.time
    [.str "# Table of individual time measurements (us):\n"] ++
    (runs.flatMap fun b =>
      [.str "  ", .double b.time, .str "  ("] ++
        (if 0 ≤ b.time - s.mean then [.str "+"] else []) ++
        [.double (b.time - s.mean), .str ")\n"]) ++
    [.str "# Final: mean=", .double s.mean, .str " stddev=", .double s.stddev, .str " min=",
      .double s.mn, .str " max=", .double s.mx, newline]

/-! ### The loops of `main` -/

/-- What a top-down measurement finds: how the kernel answers its five opens, and what it
would answer to the probe. -/
structure TdEnv where
  kernel : TdAnswers
  probe : Outcome

/-- What the outside world decides. Run `r` of path number `p` finds `kernel p r` and takes
`time p r`; the `k`-th path of the report finds `td k` when its breakdown is measured. -/
structure MainEnv where
  kernel : ℕ → ℕ → PerfEventAttr → Outcome
  time : ℕ → ℕ → ℚ
  td : ℕ → TdEnv
  /-- What a move leaves in the vector moved from. -/
  husk : List BenchmarkT → List BenchmarkT

/-- Colour is for the terminal. -/
def colorOf (cli : CliOpts) : Bool := cli.outputFile = none && cli.csvSep = Char.ofNat 0

/-- The human report of one path. `emit_human_one` takes the number of runs in 32 bits. -/
def emitBlock (ft : ℚ → ℚ) (cli : CliOpts) (color : Bool) (runs : List BenchmarkT)
    (td : TopdownT) : List Emit :=
  let agg := collapseRuns ft runs
  emitHumanOne agg cli.benchOpts.detail color (cli.nRuns % 2 ^ 32) ++
  (if 1 < cli.nRuns then emitStats runs color else []) ++
  (if cli.table then emitTable runs else []) ++
  emitMetrics agg cli.metricsCsv color ++
  (if cli.topdownOnly then emitTopdown td color else [])

section Main
variable (fl ft : ℚ → ℚ) (cli : CliOpts)

/-- The loop over the sorted results from the `k`-th on; `cached` is what the probe for
top-down events has left behind. -/
def reportLoop (td : ℕ → TdEnv) : List (List BenchmarkT) → ℕ → Option Bool → List Emit
  | [], _, _ => []
  | runs :: rest, k, cached =>
    if cli.csvSep ≠ Char.ofNat 0 then
      emitCsvOne (collapseRuns ft runs) cli.benchOpts.detail cli.csvSep ++
        reportLoop td rest (k + 1) cached
    else
      (if k = 0 then [] else [newline]) ++
      emitBlock ft cli (colorOf cli) runs
        (measureBin fl cli.benchOpts (td k).kernel cached (td k).probe) ++
      reportLoop td rest (k + 1)
        (if cli.topdownOnly then some (tdSupported cached (td k).probe) else cached)

/-- The results of all runs, path by path. -/
def allResults (env : MainEnv) : List (List BenchmarkT) :=
  cli.paths.mapIdx fun p path => mainRuns fl cli (env.kernel p) (env.time p) path

/-- The runs of path number `p`. -/
def runsOf (env : MainEnv) (p : ℕ) : List BenchmarkT :=
  mainRuns fl cli (env.kernel p) (env.time p) (cli.paths.getD p "")

/-- And their average. -/
def resultOf (env : MainEnv) (p : ℕ) : BenchmarkT := collapseRuns ft (runsOf fl cli env p)

/-- `main` from the first measurement on, without `-e`. With `-e` it returns from another
branch, which writes none of this. `fl` rounds the scaled counts and `ft` the mean times. -/
def mainStatic (env : MainEnv) : List Emit :=
  match cli.benchOpts.eventCsv with
  | some _ => []
  | none =>
    (if cli.csvSep ≠ Char.ofNat 0 then emitCsvHeader cli.benchOpts.detail cli.csvSep else []) ++
      reportLoop fl ft cli env.td (sortResults ft env.husk (allResults fl cli env)) 0 none

/-- The average that a report shows for a path. -/
structure Averages (env : MainEnv) (p : ℕ) (path : String) (b : BenchmarkT) : Prop where
  name : b.name = path
  time : b.time = avgDouble ft (List.range cli.nRuns) (env.time p)
  column : ∀ c ∈ columns cli.benchOpts.detail, c.field b =
    truncMean (List.range cli.nRuns) fun r =>
      kernelClockRead fl (env.kernel p r (c.event.prepared cli.benchOpts))

/-- The paths of a report: each once, in the order of the mean times. -/
structure SortedByTime (env : MainEnv) (order : List ℕ) : Prop where
  perm : order.Perm (List.range cli.paths.length)
  pairwise : order.Pairwise fun p q =>
    (resultOf fl ft cli env p).time ≤ (resultOf fl ft cli env q).time
  average : ∀ p path, cli.paths[p]? = some path →
    Averages fl ft cli env p path (resultOf fl ft cli env p)

/-- The counts of every path can be summed. -/
def AllCountsFit (env : MainEnv) : Prop :=
  ∀ p < cli.paths.length, CountsFit fl cli (env.kernel p)

end Main

/-! ### The averages -/

section Averages
variable {fl ft : ℚ → ℚ} {argv : List String} {cli : CliOpts} {env : MainEnv}

/-- The detail level is one of the three. -/
theorem detail_of_parseArgv (h : parseArgv argv = .ok cli) :
    cli.benchOpts.detail = 1 ∨ cli.benchOpts.detail = 2 ∨ cli.benchOpts.detail = 3 := by
  obtain ⟨items, hd, rfl, -⟩ := parseArgv_eq_ok.mp h
  rw [(applyAll_describes hd.1).detail]
  cases hl : LastWrite.lastOf (Item.flagOf Item.detailTable) items with
  | none => exact .inl rfl
  | some n =>
    obtain ⟨it, -, hsel⟩ := LastWrite.exists_of_lastOf hl
    cases it with
    | flag f =>
      simp only [Item.flagOf, Item.detailTable, List.lookup_cons, List.lookup_nil] at hsel
      rw [Option.getD_some]
      split at hsel
      · exact .inl (Option.some.inj hsel).symm
      split at hsel
      · exact .inr (.inl (Option.some.inj hsel).symm)
      split at hsel
      · exact .inr (.inr (Option.some.inj hsel).symm)
      · cases hsel
    | str f v => cases hsel
    | int f v n => cases hsel
    | path p => cases hsel

/-- A level shows the columns of the levels below. -/
theorem csvColumns_eq {detail : ℕ} (hd : detail = 1 ∨ detail = 2 ∨ detail = 3) :
    csvColumns detail = columns detail := by
  rcases hd with rfl | rfl | rfl <;> rfl

/-- The average of the runs of one path. -/
theorem averages_collapseRuns (hd : cli.benchOpts.detail = 1 ∨ cli.benchOpts.detail = 2 ∨
    cli.benchOpts.detail = 3) (hn : 1 ≤ cli.nRuns) {p : ℕ} (hfit : CountsFit fl cli (env.kernel p))
    (path : String) : Averages fl ft cli env p path
      (collapseRuns ft (mainRuns fl cli (env.kernel p) (env.time p) path)) := by
  obtain ⟨b, bs, hruns⟩ : ∃ b bs, mainRuns fl cli (env.kernel p) (env.time p) path = b :: bs :=
    mainRuns_ne_nil (by omega)
  have hne : mainRuns fl cli (env.kernel p) (env.time p) path ≠ [] := hruns ▸ List.cons_ne_nil b bs
  refine ⟨?_, ?_, fun c hc => ?_⟩
  · have hb : b ∈ mainRuns fl cli (env.kernel p) (env.time p) path := hruns ▸ List.mem_cons_self
    obtain ⟨r, -, rfl⟩ := List.mem_map.mp hb
    rw [hruns]
    rfl
  · rw [time_collapseRuns ft hne, mainRuns, avgDouble_map]
    rfl
  · have hcell : ∀ r, c.field (benchmarkBin fl (env.kernel p r) (env.time p r) path
        cli.benchOpts) = kernelClockRead fl (env.kernel p r (c.event.prepared cli.benchOpts)) :=
      fun r => benchmarkBin_column fl _ _ _ hd hc
    have hsum : Lib.FitsWord 64
        ((mainRuns fl cli (env.kernel p) (env.time p) path).map c.field).sum := by
      rw [mainRuns, List.map_map]
      simp only [Function.comp_def, hcell]
      exact hfit.all (columns_event_mem hd c hc)
    rw [columns_collapseRuns ft hne c (columns_subset hd hc), avgInt_eq _ hsum, mainRuns,
      truncMean_map]
    simp only [hcell]

/-- The results by the numbers of their paths. -/
theorem allResults_eq : allResults fl cli env =
    (List.range cli.paths.length).map (runsOf fl cli env) := by
  refine List.ext_getElem (by simp [allResults]) fun p hp _ => ?_
  have hp' : p < cli.paths.length := by simpa [allResults] using hp
  simp [allResults, runsOf, hp']

/-- A rearrangement of images comes from a rearrangement. -/
theorem exists_perm_of_perm_map {α β : Type*} {f : α → β} {l : List β} {l' : List α}
    (h : l.Perm (l'.map f)) : ∃ order : List α, order.Perm l' ∧ l = order.map f := by
  have hsame : List.Forall₂ (fun b a => b = f a) (l'.map f) l' :=
    List.forall₂_map_left_iff.mpr (List.forall₂_same.mpr fun _ _ => rfl)
  obtain ⟨order, hmap, horder⟩ := List.perm_comp_forall₂ h hsame
  have heq : List.Forall₂ Eq l (order.map f) := List.forall₂_map_right_iff.mpr hmap
  rw [List.forall₂_eq_eq_eq] at heq
  exact ⟨order, horder, heq⟩

theorem exists_sorted (hargv : parseArgv argv = .ok cli) (hfit : AllCountsFit fl cli env) :
    ∃ order : List ℕ, SortedByTime fl ft cli env order ∧
      sortResults ft env.husk (allResults fl cli env) = order.map (runsOf fl cli env) := by
  have hperm : (sortResults ft env.husk (allResults fl cli env)).Perm (allResults fl cli env) :=
    Lib.selectionSort_perm _ _ _
  have hpair : (sortResults ft env.husk (allResults fl cli env)).Pairwise fun runs runs' =>
      (collapseRuns ft runs).time ≤ (collapseRuns ft runs').time := Lib.selectionSort_pairwise _ _ _
  rw [allResults_eq] at hperm
  obtain ⟨order, horder, hsorted⟩ := exists_perm_of_perm_map hperm
  rw [allResults_eq, hsorted, List.pairwise_map] at hpair
  refine ⟨order, ⟨horder, hpair, fun p path hpath => ?_⟩, by rw [allResults_eq, hsorted]⟩
  have hget : cli.paths.getD p "" = path := by rw [List.getD_eq_getElem?_getD, hpath]; rfl
  rw [resultOf, runsOf, hget]
  have hp : p < cli.paths.length := (List.getElem?_eq_some_iff.mp hpath).1
  exact averages_collapseRuns (detail_of_parseArgv hargv) (nRuns_pos hargv) (hfit p hp) path

/-- Every result has the name of a path. -/
theorem SortedByTime.name_mem {order : List ℕ} (h : SortedByTime fl ft cli env order) :
    ∀ p ∈ order, (resultOf fl ft cli env p).name ∈ cli.paths := by
  intro p hp
  have hlt : p < cli.paths.length := List.mem_range.mp (h.perm.mem_iff.mp hp)
  rw [(h.average p _ (List.getElem?_eq_getElem hlt)).name]
  exact List.getElem_mem hlt

end Averages

/-! ### The table -/

section Csv
variable {fl ft : ℚ → ℚ} {argv : List String} {cli : CliOpts}

/-- With `-x` the report is the header and a row for each path. -/
theorem mainStatic_csv (hevents : cli.benchOpts.eventCsv = none)
    (hsep : cli.csvSep ≠ Char.ofNat 0) (env : MainEnv) :
    mainStatic fl ft cli env = csvReport cli.benchOpts.detail cli.csvSep
      ((sortResults ft env.husk (allResults fl cli env)).map (collapseRuns ft)) := by
  have hloop : ∀ l k cached, reportLoop fl ft cli env.td l k cached =
      (l.map (collapseRuns ft)).flatMap fun b => emitCsvOne b cli.benchOpts.detail cli.csvSep := by
    intro l
    induction l with
    | nil => exact fun _ _ => rfl
    | cons runs rest ih =>
      intro k cached
      rw [reportLoop, if_pos hsep, ih, List.map_cons, List.flatMap_cons]
  rw [mainStatic, hevents]
  show (if cli.csvSep ≠ Char.ofNat 0 then _ else _) ++ _ = _
  rw [if_pos hsep, hloop, csvReport]

/-- The table has a row for the average of each path. -/
theorem table_mainStatic {r : Rendering} (hr : r.Decimal) (hargv : parseArgv argv = .ok cli)
    (hevents : cli.benchOpts.eventCsv = none)
    (hsep : r.Separates cli.benchOpts.detail cli.csvSep) (h0 : cli.csvSep ≠ Char.ofNat 0)
    (hnl : cli.csvSep ≠ '\n')
    (hpaths : ∀ p ∈ cli.paths, '\n' ∉ p.toList ∧ cli.csvSep ∉ p.toList ∧ '\x00' ∉ p.toList)
    (env : MainEnv) (hfit : AllCountsFit fl cli env) : ∃ order, SortedByTime fl ft cli env order ∧
      (∀ p ∈ order, NameFits cli.csvSep (resultOf fl ft cli env p)) ∧
      table cli.csvSep (text r (mainStatic fl ft cli env)) = csvHeader cli.benchOpts.detail ::
        order.map fun p => csvRow r cli.benchOpts.detail (resultOf fl ft cli env p) := by
  obtain ⟨order, hsorted, heq⟩ := @exists_sorted fl ft argv cli env hargv hfit
  have hfits : ∀ p ∈ order, NameFits cli.csvSep (resultOf fl ft cli env p) :=
    fun p hp => hpaths _ (hsorted.name_mem p hp)
  refine ⟨order, hsorted, hfits, ?_⟩
  rw [mainStatic_csv hevents h0, heq, List.map_map]
  have htable := table_csvReport hr hsep hnl h0 (List.forall_mem_map.mpr hfits)
  rwa [List.map_map] at htable

/-- `bbench -x` without `-e` as a whole. For every accepted command line whose paths and
separator can be told apart, and whatever the kernel and the clock answer as long as the
counts can be summed, the output can be cut into a header and one row for each path. The
rows come in the order of the mean times, and each says under every heading what it should:
the path, the mean that `double` arithmetic makes of the times of its runs, and for each
counter the truncated mean of what the kernel has answered in these runs to the request of
just this counter. -/
theorem main_csv {r : Rendering} (hr : r.Decimal) (hargv : parseArgv argv = .ok cli)
    (hevents : cli.benchOpts.eventCsv = none)
    (hsep : r.Separates cli.benchOpts.detail cli.csvSep) (h0 : cli.csvSep ≠ Char.ofNat 0)
    (hnl : cli.csvSep ≠ '\n')
    (hpaths : ∀ p ∈ cli.paths, '\n' ∉ p.toList ∧ cli.csvSep ∉ p.toList ∧ '\x00' ∉ p.toList)
    (env : MainEnv) (hfit : AllCountsFit fl cli env) : ∃ order, SortedByTime fl ft cli env order ∧
      csvColumns cli.benchOpts.detail = columns cli.benchOpts.detail ∧
      ∃ rows, table cli.csvSep (text r (mainStatic fl ft cli env)) =
          csvHeader cli.benchOpts.detail :: rows ∧
        List.Forall₂ (RowDecodes r cli.benchOpts.detail (csvHeader cli.benchOpts.detail))
          rows (order.map (resultOf fl ft cli env)) := by
  obtain ⟨order, hsorted, hfits, htable⟩ :=
    @table_mainStatic fl ft argv cli r hr hargv hevents hsep h0 hnl hpaths env hfit
  refine ⟨order, hsorted, csvColumns_eq (detail_of_parseArgv hargv), _, htable, ?_⟩
  rw [List.forall₂_map_left_iff, List.forall₂_map_right_iff, List.forall₂_same]
  exact fun p hp => rowDecodes_csvRow hr _ (hfits p hp).2.2

end Csv

/-- Two runs of each of two paths, the second of which is faster. -/
theorem main_csv_two :
    let cli : CliOpts := { nRuns := 2, csvSep := ',', paths := ["./a", "./b"] }
    let env : MainEnv :=
      { kernel := fun _ _ _ => .opened ⟨7, 1, 1⟩
        time := fun p r => 9 - p + r
        td := fun _ => ⟨fun _ => .failed 2, .failed 2⟩
        husk := fun _ => [] }
    ∃ order, SortedByTime id id cli env order ∧
      ∃ rows, table ',' (text decimalRendering (mainStatic id id cli env)) = csvHeader 1 :: rows ∧
        List.Forall₂ (RowDecodes decimalRendering 1 (csvHeader 1)) rows
          (order.map (resultOf id id cli env)) := by
  intro cli env
  have hargv : parseArgv ["bbench", "-n", "2", "-x", ",", "./a", "./b"] = .ok cli := by decide
  have hfit : AllCountsFit id cli env := by
    unfold AllCountsFit CountsFit
    decide +kernel
  obtain ⟨order, hsorted, -, hrows⟩ := @main_csv id id _ _ _ decimalRendering_decimal hargv rfl
    (decimalRendering_separates 1) (by decide) (by decide) (by decide) env hfit
  exact ⟨order, hsorted, hrows⟩

end Bbench.Report
