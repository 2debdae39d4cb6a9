import Bbench.Cli.BtimeArgv
import Bbench.Lib.Separated
import Bbench.Report.Csv
import Bbench.Report.Stats

/-! `btime` as a whole. It reads its command line, times the program as often as asked
for, and writes all times at the end. With a separator the report is a table, and the
table can be cut into its cells again: every run is in it, in order. -/

namespace Bbench.Report

open Cli Lib

/-! ### The report -/

/-- With `-x`. -/
def emitBtimeCsv (out : BtimeOpts) (times : List ℚ) : List Emit :=
  let s := Emit.str (sepString out.csvSep)
  (if out.quiet then [] else [.str "run", s, .str "time_us", newline]) ++
  (times.mapIdx fun i t => [.int (i + 1), s, .double t, newline]).flatten ++
  if !out.quiet && 1 < times.length then
    let stats := computeStats times id
    [[.str "mean", s, .double stats.mean, newline],
      [.str "stddev", s, .double stats.stddev, newline],
      [.str "min", s, .double stats.mn, newline],
      [.str "max", s, .double stats.mx, newline]].flatten
  else []

/-- Without. -/
def emitBtimeHuman (out : BtimeOpts) (times : List ℚ) : List Emit :=
  if out.nRuns = 1 then
    if out.quiet then [.double (times.headD 0), newline]
    else [.str "time(us): ", .double (times.headD 0), newline]
  else
    let stats := computeStats times id
    if out.quiet then
      [.double stats.mean, .str " ", .double stats.stddev, .str " ", .double stats.mn, .str " ",
        .double stats.mx, newline]
    else
      [.str "time(us): mean=", .double stats.mean, .str "  stddev=", .double stats.stddev,
        .str "  min=", .double stats.mn, .str "  max=", .double stats.mx, newline]

def emitBtime (out : BtimeOpts) (times : List ℚ) : List Emit :=
  if out.csvSep ≠ Char.ofNat 0 then emitBtimeCsv out times else emitBtimeHuman out times

/-- How the tool ends. -/
inductive BtimeResult
  /-- The usage text, and the exit code. -/
  | usage (code : ℤ)
  | undefined
  /-- A program could not be started: the exception of `process` ends the tool. -/
  | raised
  /-- What is written, before it returns zero. -/
  | report (es : List Emit)
  deriving DecidableEq, Repr

/-- `main` of `btime.cpp`. `bench path i` is the time of the `i`-th call of `bench_bin`, or
none when it raises. -/
def btimeMain (ovf : ℤ → Option ℤ) (argv : List String) (bench : String → ℕ → Option ℚ) :
    BtimeResult :=
  match btimeArgv ovf argv with
  | .usage code => .usage code
  | .undefined => .undefined
  | .measure path out =>
    match (List.range out.nRuns).mapM (bench path) with
    | none => .raised
    | some times => .report (emitBtime out times)

/-! ### The table -/

section Table
variable (r : Rendering)

/-- The rows after the runs. -/
def btimeSummary (quiet : Bool) (times : List ℚ) : List (List (List Char)) :=
  if !quiet && 1 < times.length then
    let stats := computeStats times id
    [["mean".toList, r.double stats.mean], ["stddev".toList, r.double stats.stddev],
      ["min".toList, r.double stats.mn], ["max".toList, r.double stats.mx]]
  else []

def btimeRows (times : List ℚ) : List (List (List Char)) :=
  times.mapIdx fun i t => [r.int (i + 1), r.double t]

/-- The cells of a report with `-x`, row by row. -/
def btimeTable (quiet : Bool) (times : List ℚ) : List (List (List Char)) :=
  (if quiet then [] else [["run".toList, "time_us".toList]]) ++ btimeRows r times ++
    btimeSummary r quiet times

/-- The words of the table. -/
def btimeWords : List String := ["run", "time_us", "mean", "stddev", "min", "max"]

/-- The separator is neither of the two characters with a meaning of their own, and occurs
in no word and in no number. -/
structure Rendering.SeparatesBtime (sep : Char) : Prop where
  nul : sep ≠ Char.ofNat 0
  line : sep ≠ '\n'
  word : ∀ w ∈ btimeWords, sep ∉ w.toList
  int : ∀ v, sep ∉ r.int v
  double : ∀ t, sep ∉ r.double t

/-- A row as it is written. -/
def rowLineOf (sep : Char) (row : List (List Char)) : List Char := [sep].intercalate row ++ ['\n']

theorem text_pair {sep : Char} (h0 : sep ≠ Char.ofNat 0) (a b : Emit) :
    text r [a, .str (sepString sep), b, newline] = rowLineOf sep [a.text r, b.text r] := by
  have hs : (Emit.str (sepString sep)).text r = [sep] := cString_sepString h0
  simp [rowLineOf, hs]

variable {r}

theorem text_emitBtimeCsv {out : BtimeOpts} (h0 : out.csvSep ≠ Char.ofNat 0) (times : List ℚ) :
    text r (emitBtimeCsv out times) =
      (btimeTable r out.quiet times).flatMap (rowLineOf out.csvSep) := by
  have hword (w : String) (hw : w ∈ btimeWords) : (Emit.str w).text r = w.toList := by
    have hall : ∀ w ∈ btimeWords, '\x00' ∉ w.toList := by decide
    exact cString_eq_toList_iff.mpr (hall w hw)
  have hpair (w : String) (hw : w ∈ btimeWords) (b : Emit) :
      text r [.str w, .str (sepString out.csvSep), b, newline] =
        rowLineOf out.csvSep [w.toList, b.text r] := by
    rw [text_pair r h0, hword w hw]
  have hhead : text r (if out.quiet then []
      else [.str "run", .str (sepString out.csvSep), .str "time_us", newline]) =
        (if out.quiet then [] else [["run".toList, "time_us".toList]]).flatMap
          (rowLineOf out.csvSep) := by
    split
    · rfl
    · rw [hpair "run" (by decide), hword "time_us" (by decide), List.flatMap_singleton]
  have hruns : text r (times.mapIdx fun i t =>
      [.int (i + 1), .str (sepString out.csvSep), .double t, newline]).flatten =
        (btimeRows r times).flatMap (rowLineOf out.csvSep) := by
    rw [text_flatten, List.flatMap_def, List.flatMap_def]
    refine congrArg List.flatten (List.ext_getElem (by simp [btimeRows]) fun i _ _ => ?_)
    simp only [btimeRows, List.getElem_map, List.getElem_mapIdx]
    exact text_pair r h0 _ _
  have hsummary : text r (if !out.quiet && 1 < times.length then
      let stats := computeStats times id
      [[.str "mean", .str (sepString out.csvSep), .double stats.mean, newline],
        [.str "stddev", .str (sepString out.csvSep), .double stats.stddev, newline],
        [.str "min", .str (sepString out.csvSep), .double stats.mn, newline],
        [.str "max", .str (sepString out.csvSep), .double stats.mx, newline]].flatten
      else []) = (btimeSummary r out.quiet times).flatMap (rowLineOf out.csvSep) := by
    unfold btimeSummary
    split
    · simp only [text_flatten, List.flatMap_cons, List.flatMap_nil,
        hpair "mean" (by decide), hpair "stddev" (by decide), hpair "min" (by decide),
        hpair "max" (by decide)]
      rfl
    · rfl
  rw [btimeTable, List.flatMap_append, List.flatMap_append, ← hhead, ← hruns, ← hsummary,
    ← text_append, ← text_append]
  rfl

/-- Every row has a cell, and no cell has the separator or a line end in it. -/
theorem plain_btimeTable (hr : r.Decimal) {sep : Char} (hsep : r.SeparatesBtime sep) (quiet : Bool)
    (times : List ℚ) : ∀ row ∈ btimeTable r quiet times,
      row ≠ [] ∧ ∀ c ∈ row, sep ∉ c ∧ '\n' ∉ c := by
  have hword (w : String) (hw : w ∈ btimeWords) : sep ∉ w.toList ∧ '\n' ∉ w.toList := by
    have hall : ∀ w ∈ btimeWords, '\n' ∉ w.toList := by decide
    exact ⟨hsep.word w hw, hall w hw⟩
  have hdouble (t : ℚ) : sep ∉ r.double t ∧ '\n' ∉ r.double t := ⟨hsep.double t, hr.double_line t⟩
  have hpair {P : List Char → Prop} {a b : List Char} (ha : P a) (hb : P b) :
      [a, b] ≠ [] ∧ ∀ c ∈ [a, b], P c := by simp [ha, hb]
  intro row hrow
  simp only [btimeTable, List.mem_append] at hrow
  rcases hrow with (hrow | hrow) | hrow
  · split at hrow
    · exact absurd hrow List.not_mem_nil
    · rw [List.mem_singleton.mp hrow]
      exact hpair (P := fun c => sep ∉ c ∧ '\n' ∉ c) (hword _ (by decide)) (hword _ (by decide))
  · obtain ⟨i, hi, rfl⟩ := List.mem_mapIdx.mp hrow
    exact hpair (P := fun c => sep ∉ c ∧ '\n' ∉ c) ⟨hsep.int _, hr.int_line _⟩ (hdouble _)
  · unfold btimeSummary at hrow
    split at hrow
    · simp only [List.mem_cons, List.not_mem_nil, or_false] at hrow
      rcases hrow with rfl | rfl | rfl | rfl <;>
        exact hpair (P := fun c => sep ∉ c ∧ '\n' ∉ c) (hword _ (by decide)) (hdouble _)
    · exact absurd hrow List.not_mem_nil

theorem table_emitBtimeCsv (hr : r.Decimal) {out : BtimeOpts} (hsep : r.SeparatesBtime out.csvSep)
    (times : List ℚ) :
    table out.csvSep (text r (emitBtimeCsv out times)) = btimeTable r out.quiet times := by
  have hplain := plain_btimeTable hr hsep out.quiet times
  rw [table, text_emitBtimeCsv hsep.nul]
  exact splitOn_table hsep.line (fun row hrow => (hplain row hrow).1)
    fun row hrow => (hplain row hrow).2

/-- The rows of the runs say what the runs took, whatever is written after them. -/
theorem btimeTable_injective (hr : r.Decimal) {quiet : Bool} {times times' : List ℚ}
    (hlen : times.length = times'.length)
    (h : btimeTable r quiet times = btimeTable r quiet times') : times = times' := by
  rw [btimeTable, btimeTable, List.append_assoc, List.append_assoc, List.append_cancel_left_eq] at h
  have hrows := (List.append_inj h (by simp [btimeRows, hlen])).1
  refine List.ext_getElem hlen fun i hi hi' => ?_
  have hrow : (btimeRows r times)[i]? = (btimeRows r times')[i]? := by rw [hrows]
  simp only [btimeRows, List.getElem?_mapIdx, List.getElem?_eq_getElem hi,
    List.getElem?_eq_getElem hi', Option.map_some, Option.some.injEq, List.cons.injEq] at hrow
  exact hr.double_injective hrow.2.1

end Table

/-! ### The tool -/

/-- A loop that stops at the first failure: it has a result for each element. -/
theorem mapM_eq_some {α β : Type*} {f : α → Option β} {l : List α} {ys : List β} :
    l.mapM f = some ys ↔ l.map f = ys.map some := by
  induction l generalizing ys with
  | nil => cases ys <;> simp
  | cons a l ih =>
    rw [List.mapM_cons, List.map_cons]
    cases hfa : f a with
    | none => cases ys <;> simp
    | some b =>
      cases ys with
      | nil => cases l.mapM f <;> simp
      | cons y ys =>
        rw [List.map_cons, List.cons.injEq, Option.some.injEq, ← ih]
        cases l.mapM f <;> simp

theorem mapM_eq_none {α β : Type*} {f : α → Option β} {l : List α} :
    l.mapM f = none ↔ ∃ a ∈ l, f a = none := by
  induction l with
  | nil => simp
  | cons a l ih =>
    rw [List.mapM_cons, List.exists_mem_cons_iff, ← ih]
    cases f a with
    | none => simp
    | some b => cases l.mapM f <;> simp

/-- The times of a loop over the runs. -/
theorem mapM_range_eq_some {f : ℕ → Option ℚ} {n : ℕ} {times : List ℚ} :
    (List.range n).mapM f = some times ↔ times.length = n ∧ ∀ i < n, f i = times[i]? := by
  rw [mapM_eq_some]
  constructor
  · intro h
    have hlen : times.length = n := by simpa using (congrArg List.length h).symm
    refine ⟨hlen, fun i hi => ?_⟩
    have hi' : (((List.range n).map f)[i]?) = (times.map some)[i]? := by rw [h]
    simpa [hi, hlen ▸ hi] using hi'
  · rintro ⟨hlen, h⟩
    refine List.ext_getElem (by simp [hlen]) fun i hi _ => ?_
    have hi' : i < n := by simpa using hi
    simp [h i hi', hlen ▸ hi']

theorem decimalRendering_separatesBtime : decimalRendering.SeparatesBtime ',' where
  nul := by decide
  line := by decide
  word := by decide
  int _ hc := absurd (mem_decimalInt hc) (by decide)
  double _ hc := absurd (mem_decimalDouble hc) (by decide)

end Bbench.Report
