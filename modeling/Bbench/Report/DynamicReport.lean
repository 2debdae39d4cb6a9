import Bbench.Report.Blocks
import Bbench.Report.Repeat

/-! The report of `-e` read back. Each path has a line with its time, and under it an
indented row for each event of the list; a row can be cut at its blanks. With `-v` a row
says which counters could not be opened. -/

namespace Bbench.Report

open Perf Cli Lib

section Group
variable (r : Rendering)

/-- The line of a path. -/
def pathLine (path : String) (t : ℚ) : List Char :=
  path.toList ++ ": time(us)=".toList ++ r.double t

/-- A row cut at its blanks. -/
def rowCells (verbose : Bool) (row : Row) : List (List Char) :=
  [[], [], row.name.toList ++ [':'], r.int row.value] ++
  (if verbose && row.err ≠ 0 then
    [[], "[open".toList, "failed:".toList, "errno=".toList ++ r.int row.err ++ [']']] else [])

/-- Rows are indented. -/
def isRow (line : List Char) : Bool := [' ', ' '].isPrefixOf line

/-- What can be read off the lines of a path: its time after the last equals sign, and in
each row the event, its value and, with `-v`, the error of a counter that is not open. -/
structure GroupShows (verbose : Bool) (group : List Char × List (List Char)) (path : String)
    (res : DynamicResult) : Prop where
  head : group.1 = pathLine r path res.time
  time : (group.1.splitOn '=').getLast? = some (r.double res.time)
  rows : List.Forall₂ (fun line row => line.splitOn ' ' = rowCells r verbose row) group.2 res.rows

variable {r}

/-- The row of an event of the table. -/
theorem text_rowLine {row : Row} (hname : '\x00' ∉ row.name.toList) (verbose : Bool) :
    text r (rowLine verbose row) = [' '].intercalate (rowCells r verbose row) := by
  have hword (s : String) (h : IsWord s) : (Emit.str s).text r = s.toList := h.cString_eq
  have hevent : (Emit.str row.name).text r = row.name.toList := cString_eq_toList_iff.mpr hname
  have hint (v : ℤ) : (Emit.int v).text r = r.int v := rfl
  unfold rowLine rowCells
  split
  · simp [hevent, hint, hword "  " (by decide), hword ": " (by decide),
      hword "  [open failed: errno=" (by decide), hword "]" (by decide)]
  · simp [hevent, hint, hword "  " (by decide), hword ": " (by decide)]

/-- Names of the table are words without blanks. -/
theorem knownEvents_word : ∀ e ∈ knownEvents, '\x00' ∉ e.name.toList ∧ '\n' ∉ e.name.toList ∧
    ' ' ∉ e.name.toList := by decide +kernel

/-- The name of a row stays in its cell. -/
def RowFits (row : Row) : Prop :=
  '\x00' ∉ row.name.toList ∧ '\n' ∉ row.name.toList ∧ ' ' ∉ row.name.toList

theorem splitOn_rowLine (hint : ∀ v, ' ' ∉ r.int v) {row : Row} (hrow : RowFits row)
    (verbose : Bool) : (text r (rowLine verbose row)).splitOn ' ' = rowCells r verbose row := by
  have hcells : ∀ l ∈ rowCells r verbose row, ' ' ∉ l := by
    have hname : ' ' ∉ row.name.toList := hrow.2.2
    unfold rowCells
    split <;> simp [hname, hint]
  rw [text_rowLine hrow.1]
  exact List.splitOn_intercalate ' ' hcells (List.cons_ne_nil _ _)

theorem isLine_rowLine (hr : r.Decimal) {row : Row} (hrow : RowFits row) (verbose : Bool) :
    IsLine '\n' (text r (rowLine verbose row)) := by
  unfold rowLine
  split
  · exact IsWord.isLine (by decide) (.str (.str (.int (.str (.int (.str .nil (by decide)) hr _)
      (by decide)) hr _) (by decide)) hrow.2.1)
  · exact IsWord.isLine (by decide) (.str (.str (.int .nil hr _) (by decide)) hrow.2.1)

/-- Rows are told from the lines of paths by their first two characters. -/
theorem isRow_rowLine (verbose : Bool) (row : Row) :
    isRow (text r (rowLine verbose row)) = true := by
  unfold rowLine
  split <;> rfl

theorem isRow_pathLine {path : String} (h : isRow path.toList = false) (t : ℚ) :
    isRow (pathLine r path t) = false := by
  unfold pathLine isRow at *
  cases hpath : path.toList with
  | nil => rfl
  | cons a cs =>
    cases cs with
    | nil => simp [List.isPrefixOf]
    | cons b cs =>
      rw [hpath] at h
      simpa [List.isPrefixOf] using h

/-- The lines of one path. -/
theorem lined_emitDynamic (hr : r.Decimal) {path : String}
    (hpath : '\n' ∉ path.toList ∧ '\x00' ∉ path.toList) {res : DynamicResult}
    (hrows : ∀ row ∈ res.rows, RowFits row) (verbose : Bool) :
    Lined '\n' (text r (emitDynamic verbose path res))
      (pathLine r path res.time :: res.rows.map fun row => text r (rowLine verbose row)) := by
  have hhead : Lined '\n' (text r [.str path, .str ": time(us)=", .double res.time, newline])
      [pathLine r path res.time] := by
    have hword : (Emit.str ": time(us)=").text r = ": time(us)=".toList :=
      IsWord.cString_eq (by decide)
    have htext : text r [.str path, .str ": time(us)=", .double res.time] =
        pathLine r path res.time := by
      have hname : (Emit.str path).text r = path.toList := cString_eq_toList_iff.mpr hpath.2
      rw [text_cons, text_cons, text_cons, text_nil, hname, hword, List.append_nil, pathLine,
        List.append_assoc]
      rfl
    rw [← htext]
    refine @lined_text r [.str path, .str ": time(us)=", .double res.time] ⟨?_, ?_⟩
    · rw [text_cons, text_cons, hword]
      simp
    · exact Unbroken.str (.str (.double .nil hr _) (by decide)) hpath.1
  have hbody : Lined '\n' (text r (res.rows.flatMap fun row => rowLine verbose row ++ [newline]))
      (res.rows.flatMap fun row => [text r (rowLine verbose row)]) := by
    rw [text_flatMap]
    exact Lined.flatMap _ fun row hrow => lined_text (isLine_rowLine hr (hrows row hrow) verbose)
  rw [emitDynamic, text_append]
  rw [← List.map_eq_flatMap] at hbody
  exact hhead.append hbody

/-- The group of a path shows its result. -/
theorem groupShows (hint : ∀ v, ' ' ∉ r.int v) (hdouble : ∀ t, '=' ∉ r.double t)
    {res : DynamicResult} (hrows : ∀ row ∈ res.rows, RowFits row) (verbose : Bool)
    (path : String) : GroupShows r verbose
      (pathLine r path res.time, res.rows.map fun row => text r (rowLine verbose row)) path
      res where
  head := rfl
  time := by
    have hline : pathLine r path res.time =
        (path.toList ++ ": time(us)".toList) ++ '=' :: r.double res.time := by simp [pathLine]
    rw [hline, List.splitOn_append_cons_self, List.splitOn_eq_singleton (hdouble _)]
    simp
  rows := by
    rw [List.forall₂_map_left_iff, List.forall₂_same]
    exact fun row hrow => splitOn_rowLine hint (hrows row hrow) verbose

end Group

/-! ### `main` -/

section Main
variable (r : Rendering) (fl : ℚ → ℚ) (cli : CliOpts) (events : List EventDef)
  (env : ℕ → ℕ → RunEnv)

/-- The result that is printed for a path, the one of its last run. -/
def lastResult (q : String × ℕ) : DynamicResult :=
  benchmarkBinDynamic fl (env q.2 (cli.nRuns - 1)) q.1 events cli.benchOpts

/-- The lines of a path. -/
def groupOf (q : String × ℕ) : List Char × List (List Char) :=
  (pathLine r q.1 (lastResult fl cli events env q).time,
    (lastResult fl cli events env q).rows.map fun row => text r (rowLine cli.verbose row))

variable {r fl cli events env}

theorem rowFits_lastResult (hevents : ∀ e ∈ events, e ∈ knownEvents) (q : String × ℕ) :
    ∀ row ∈ (lastResult fl cli events env q).rows, RowFits row := by
  intro row hrow
  obtain ⟨i, hi, rfl⟩ := List.mem_mapIdx.mp hrow
  exact knownEvents_word _ (hevents _ (List.getElem_mem hi))

theorem pathReport_eq (hn : 1 ≤ cli.nRuns) (p : ℕ) (path : String) :
    pathReport fl cli events path (env p) =
      emitDynamic cli.verbose path (lastResult fl cli events env (path, p)) := by
  obtain ⟨n, hn'⟩ := Nat.exists_eq_add_of_le' hn
  rw [pathReport, lastResult, hn', repeatRuns_succ, Nat.add_sub_cancel]

/-- The output cut into the groups of the paths. -/
theorem cutGroups_mainDynamic (hr : r.Decimal) (hn : 1 ≤ cli.nRuns) {csv : String}
    (hcsv : cli.benchOpts.eventCsv = some csv)
    (hpaths : ∀ p ∈ cli.paths, '\n' ∉ p.toList ∧ '\x00' ∉ p.toList ∧ isRow p.toList = false)
    (env : ℕ → ℕ → RunEnv) :
    cutGroups isRow (cutLines '\n' (text r (mainDynamic fl cli env).flatten)) =
      ([], cli.paths.zipIdx.map (groupOf r fl cli (parseEventList csv []).2 env)) := by
  have hevents := parseEventList_known csv
  let q := cli.paths.zipIdx
  have hq : ∀ x ∈ q, x.1 ∈ cli.paths := fun x hx => List.fst_mem_of_mem_zipIdx hx
  have hmain : mainDynamic fl cli env = q.map fun x =>
      emitDynamic cli.verbose x.1 (lastResult fl cli (parseEventList csv []).2 env x) := by
    simp only [mainDynamic, hcsv, pathReport_eq hn]
    refine List.ext_getElem (by simp [q]) fun i _ _ => ?_
    simp [q]
  have hlined : Lined '\n' (text r (mainDynamic fl cli env).flatten)
      ((q.map (groupOf r fl cli (parseEventList csv []).2 env)).flatMap fun g => g.1 :: g.2) := by
    rw [hmain, text_flatten, List.flatMap_map, List.flatMap_map]
    exact Lined.flatMap q fun x hx => lined_emitDynamic hr
      ⟨(hpaths _ (hq x hx)).1, (hpaths _ (hq x hx)).2.1⟩ (rowFits_lastResult hevents x) _
  rw [hlined.cutLines]
  refine cutGroups_flatMap (List.forall_mem_map.mpr fun x hx => ⟨?_, ?_⟩)
  · exact isRow_pathLine (hpaths _ (hq x hx)).2.2 _
  · exact List.forall_mem_map.mpr fun row _ => isRow_rowLine cli.verbose row

/-- `bbench -e` as a whole. For every accepted command line whose paths stay on their lines
and are not indented, and whatever the kernel and the clock answer, the output can be cut
into the paths in their order and the rows under them; a path is shown with the time of its
last run, and under it each event of the list, in order, with the value its own counter had
in that run and, with `-v`, the error of a counter that could not be opened. -/
theorem main_dynamic (hr : r.Decimal) (hint : ∀ v, ' ' ∉ r.int v) (hdouble : ∀ t, '=' ∉ r.double t)
    {argv : List String} (hargv : parseArgv argv = .ok cli) {csv : String}
    (hcsv : cli.benchOpts.eventCsv = some csv)
    (hpaths : ∀ p ∈ cli.paths, '\n' ∉ p.toList ∧ '\x00' ∉ p.toList ∧ isRow p.toList = false)
    (env : ℕ → ℕ → RunEnv) : ∃ groups,
      cutGroups isRow (cutLines '\n' (text r (mainDynamic fl cli env).flatten)) = ([], groups) ∧
      List.Forall₂ (fun group q => GroupShows r cli.verbose group q.1
        (lastResult fl cli (parseEventList csv []).2 env q)) groups cli.paths.zipIdx := by
  have hevents := parseEventList_known csv
  refine ⟨_, cutGroups_mainDynamic hr (nRuns_pos hargv) hcsv hpaths env, ?_⟩
  rw [List.forall₂_map_left_iff, List.forall₂_same]
  exact fun x _ => groupShows hint hdouble (rowFits_lastResult hevents x) cli.verbose x.1

end Main

/-- One path and two events, the second of which cannot be opened. -/
theorem main_dynamic_two :
    let cli : CliOpts := { benchOpts := { eventCsv := some "cycles,cs" }, verbose := true,
                           paths := ["./a"] }
    let env : ℕ → ℕ → RunEnv := fun _ _ =>
      ⟨fun i _ => if i = 0 then .opened ⟨7, 1, 1⟩ else .failed 13, 5⟩
    ∃ group, cutGroups isRow (cutLines '\n'
        (text decimalRendering (mainDynamic id cli env).flatten)) = ([], [group]) ∧
      GroupShows decimalRendering true group "./a"
        ⟨"./a", 5, [⟨"cycles", 7, 0⟩, ⟨"cs", 0, 13⟩]⟩ := by
  intro cli env
  have hargv : parseArgv ["bbench", "-e", "cycles,cs", "-v", "./a"] = .ok cli := by decide
  have hint : ∀ v, ' ' ∉ decimalRendering.int v := fun v hc =>
    absurd (mem_decimalInt hc) (by decide)
  have hdouble : ∀ t, '=' ∉ decimalRendering.double t := fun t hc =>
    absurd (mem_decimalDouble hc) (by decide)
  obtain ⟨groups, hcut, hgroups⟩ := @main_dynamic decimalRendering id cli decimalRendering_decimal
    hint hdouble _ hargv "cycles,cs" rfl (by decide) env
  have hevents : (parseEventList "cycles,cs" []).2 =
      [⟨"cycles", perfTypeHardware, 0⟩, ⟨"cs", perfTypeSoftware, 3⟩] := by decide
  rw [hevents] at hgroups
  cases hgroups with
  | cons hgroup hnil =>
    cases hnil
    exact ⟨_, hcut, hgroup⟩

end Bbench.Report
