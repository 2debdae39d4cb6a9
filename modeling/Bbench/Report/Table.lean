import Bbench.Report.Blocks

/-! The table of single runs. Each row has the time of a run and, in parentheses, how far it
is from the mean, with its sign. Rows can be cut at their blanks, and in exact arithmetic
the deviations of a table cancel out. -/

namespace Bbench.Report

open Lib

variable {r : Rendering}

/-- The parentheses at the end of a row. -/
def deviationCell (r : Rendering) (d : ℚ) : List Char :=
  '(' :: (if 0 ≤ d then ['+'] else []) ++ r.double d ++ [')']

/-- A row cut at its blanks: two of them in front, the time, two more, the deviation. -/
theorem splitOn_tableLine (hblank : ∀ t, ' ' ∉ r.double t) (m : ℚ) (b : BenchmarkT) :
    (tableLine r m b).splitOn ' ' =
      [[], [], r.double b.time, [], deviationCell r (b.time - m)] := by
  have hcell : ' ' ∉ deviationCell r (b.time - m) := by
    unfold deviationCell
    split <;> simp [hblank]
  have hcells : ∀ l ∈ [[], [], r.double b.time, [], deviationCell r (b.time - m)], ' ' ∉ l := by
    simp [hblank, hcell]
  have hline : tableLine r m b =
      [' '].intercalate [[], [], r.double b.time, [], deviationCell r (b.time - m)] := by
    have htext : tableLine r m b = ' ' :: ' ' :: (r.double b.time ++
        ' ' :: ' ' :: deviationCell r (b.time - m)) := by
      unfold tableLine deviationCell
      split <;> rfl
    rw [htext]
    simp
  rw [hline]
  exact List.splitOn_intercalate ' ' hcells (List.cons_ne_nil _ _)

/-- The times can be read off the rows. -/
theorem times_of_tableLines (hr : r.Decimal) (hblank : ∀ t, ' ' ∉ r.double t)
    {runs runs' : List BenchmarkT} {m m' : ℚ}
    (h : runs.map (tableLine r m) = runs'.map (tableLine r m')) :
    runs.map BenchmarkT.time = runs'.map BenchmarkT.time := by
  induction runs generalizing runs' with
  | nil =>
    cases runs' with
    | nil => rfl
    | cons b' runs' => simp at h
  | cons b runs ih =>
    cases runs' with
    | nil => simp at h
    | cons b' runs' =>
      rw [List.map_cons, List.map_cons, List.cons.injEq] at h
      have hcells := congrArg (List.splitOn ' ') h.1
      rw [splitOn_tableLine hblank, splitOn_tableLine hblank] at hcells
      have htime : b.time = b'.time := by
        simp only [List.cons.injEq, true_and] at hcells
        exact hr.double_injective hcells.1
      rw [List.map_cons, List.map_cons, htime, ih h.2]

/-- `--table` read back. Between its first and its last line the table has a row for each
run in order, with the time of the run and its deviation from the mean, which has a plus
sign exactly when it is not negative; the deviations cancel out, and two tables are the
same only when all times are. -/
theorem emitTable_rows (hr : r.Decimal) (hblank : ∀ t, ' ' ∉ r.double t)
    {runs : List BenchmarkT} (hruns : runs ≠ []) :
    let s := computeStats runs BenchmarkT.time
    (∃ first rows last, cutLines '\n' (text r (emitTable runs)) = first :: rows ++ [last] ∧
      List.Forall₂ (fun row (b : BenchmarkT) => row.splitOn ' ' =
        [[], [], r.double b.time, [], deviationCell r (b.time - s.mean)]) rows runs) ∧
    (runs.map fun b => b.time - s.mean).sum = 0 ∧
    ∀ runs', text r (emitTable runs') = text r (emitTable runs) →
      runs'.map BenchmarkT.time = runs.map BenchmarkT.time := by
  intro s
  have hlines (runs' : List BenchmarkT) (hne : runs' ≠ []) :
      ∃ first last, cutLines '\n' (text r (emitTable runs')) = first ::
        runs'.map (tableLine r (computeStats runs' BenchmarkT.time).mean) ++ [last] := by
    rw [(lined_emitTable hr runs').cutLines, tableLines, if_neg hne]
    exact ⟨_, _, rfl⟩
  refine ⟨?_, ?_, fun runs' htext => ?_⟩
  · obtain ⟨first, last, hcut⟩ := hlines runs hruns
    refine ⟨first, _, last, hcut, ?_⟩
    rw [List.forall₂_map_left_iff, List.forall₂_same]
    exact fun b _ => splitOn_tableLine hblank _ b
  · have hmean : s.mean = mean (runs.map BenchmarkT.time) := (computeStats_spec hruns _).1
    have hsum := sum_sub_mean (l := runs.map BenchmarkT.time) (by simpa using hruns)
    rw [List.map_map, ← hmean] at hsum
    exact hsum
  · obtain ⟨first, last, hcut⟩ := hlines runs hruns
    have hne : runs' ≠ [] := by
      rintro rfl
      rw [← htext] at hcut
      have hlen := congrArg List.length hcut
      simp [emitTable, cutLines] at hlen
    obtain ⟨first', last', hcut'⟩ := hlines runs' hne
    rw [htext, hcut, List.cons_append, List.cons_append, List.cons.injEq] at hcut'
    have hrows := (List.append_inj' hcut'.2 rfl).1
    exact times_of_tableLines hr hblank hrows.symm

/-- Runs of three and of four microseconds. -/
theorem emitTable_rows_two : ∃ first row row' last,
    cutLines '\n' (text decimalRendering (emitTable [{ time := 3 }, { time := 4 }])) =
      [first, row, row', last] ∧
    row.splitOn ' ' = [[], [], decimalDouble 3, [], deviationCell decimalRendering (-1 / 2)] := by
  have hblank : ∀ t, ' ' ∉ decimalRendering.double t := fun t hc =>
    absurd (mem_decimalDouble hc) (by decide)
  have hmean : (computeStats [({ time := 3 } : BenchmarkT), { time := 4 }]
      BenchmarkT.time).mean = 7 / 2 := by
    rw [(computeStats_spec (List.cons_ne_nil _ _) _).1]
    norm_num [mean]
  obtain ⟨⟨first, rows, last, hcut, hrows⟩, -⟩ := @emitTable_rows _ decimalRendering_decimal
    hblank [{ time := 3 }, { time := 4 }] (List.cons_ne_nil _ _)
  rw [hmean] at hrows
  cases hrows with
  | cons hrow hrest =>
    cases hrest with
    | cons hrow' hnil =>
      cases hnil
      refine ⟨first, _, _, last, hcut, hrow.trans ?_⟩
      norm_num [decimalRendering]

end Bbench.Report
