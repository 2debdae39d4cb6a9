import Bbench.Lib.Lines
import Bbench.Report.Colour
import Bbench.Report.Main

/-! The human report read back. Every emitter writes whole lines, none of them empty, and
`main` leaves a line empty between the reports of two paths, so that the output can be cut
into one block for each path. In a block every number stands after a label of its own. -/

namespace Bbench.Report

open Lib Cli

/-! ### Lines -/

section Lines
variable (r : Rendering)

/-- Calls that write no line end. -/
def Unbroken (es : List Emit) : Prop := '\n' ∉ text r es

variable {r}

namespace Unbroken

theorem nil : Unbroken r [] := List.not_mem_nil

variable {es : List Emit} (h : Unbroken r es)
include h

theorem cons {e : Emit} (he : '\n' ∉ e.text r) : Unbroken r (e :: es) :=
  fun hc => (List.mem_append.mp hc).elim he h

theorem str {s : String} (hs : '\n' ∉ s.toList) : Unbroken r (.str s :: es) :=
  h.cons fun hc => hs (mem_of_mem_cString hc)

theorem int (hr : r.Decimal) (v : ℤ) : Unbroken r (.int v :: es) := h.cons (hr.int_line v)

theorem double (hr : r.Decimal) (t : ℚ) : Unbroken r (.double t :: es) := h.cons (hr.double_line t)

/-- With a word in front it is a line. -/
theorem isLine {s : String} (hs : cString s ≠ [] ∧ '\n' ∉ s.toList) :
    IsLine '\n' (text r (.str s :: es)) :=
  ⟨fun hnil => hs.1 (List.append_eq_nil_iff.mp hnil).1, h.str hs.2⟩

end Unbroken

/-- Calls up to a line end. -/
theorem lined_text {es : List Emit} (h : IsLine '\n' (text r es)) :
    Lined '\n' (text r (es ++ [newline])) [text r es] := by
  rw [text_append]
  exact Lined.single h

/-- A labelled line without colour. -/
theorem lined_labelled {label tail : List Emit} (h : IsLine '\n' (text r (label ++ tail))) :
    Lined '\n' (text r (labelled label (tail ++ [newline]) false)) [text r (label ++ tail)] := by
  have heq : labelled label (tail ++ [newline]) false = (label ++ tail) ++ [newline] := by
    simp [labelled, ifColor]
  rw [heq]
  exact lined_text h

end Lines

/-! ### The lines of a block -/

section Block
variable (r : Rendering)

/-- The lines of `emit_human_one`, each with its label and what stands after it. -/
def headFields (detail nRuns : ℕ) (b : BenchmarkT) : List (String × List Char) :=
  [("Attempted ", r.int nRuns ++ " runs".toList), ("Results for: ", cString b.name),
    ("Total time elapsed:   ", r.double b.time ++ " microseconds".toList)] ++
  (humanRows detail).map fun row => (row.1, r.int (row.2 b))

def headLines (detail nRuns : ℕ) (b : BenchmarkT) : List (List Char) :=
  (headFields r detail nRuns b).map fun f => f.1.toList ++ f.2

def statsLines (runs : List BenchmarkT) : List (List Char) :=
  let sTime := computeStats runs BenchmarkT.time
  let sCyc := computeStats runs fun b => (b.cycles : ℚ)
  let sIns := computeStats runs fun b => (b.instructions : ℚ)
  [text r [.str "time (us):     mean=", .double sTime.mean, .str "  stddev=", .double sTime.stddev,
      .str "  min=", .double sTime.mn, .str "  max=", .double sTime.mx],
    text r [.str "cycles:        mean=", .double sCyc.mean, .str "  stddev=", .double sCyc.stddev],
    text r [.str "instructions:  mean=", .double sIns.mean, .str "  stddev=", .double sIns.stddev]]

/-- A line of the table, with the deviation from the mean `m`. -/
def tableLine (m : ℚ) (b : BenchmarkT) : List Char :=
  text r ([.str "  ", .double b.time, .str "  ("] ++
    (if 0 ≤ b.time - m then [.str "+"] else []) ++ [.double (b.time - m), .str ")"])

def tableLines (runs : List BenchmarkT) : List (List Char) :=
  if runs = [] then []
  else
    let s := computeStats runs BenchmarkT.time
    ["# Table of individual time measurements (us):".toList] ++ runs.map (tableLine r s.mean) ++
    [text r [.str "# Final: mean=", .double s.mean, .str " stddev=", .double s.stddev,
      .str " min=", .double s.mn, .str " max=", .double s.mx]]

def metricTokenLines (b : BenchmarkT) (t : List Char) : List (List Char) :=
  if t = [] then []
  else match lookupMetric (String.ofList t) with
    | some m => [text r [.str m.name, .str ": ", .double (m.fn b)]]
    | none => [text r [.str "metric '", .str (String.ofList t), .str "' not known"]]

def metricLines (b : BenchmarkT) (csv : Option String) : List (List Char) :=
  match csv with
  | none => []
  | some csv => (metricTokens csv).flatMap (metricTokenLines r b)

def topdownLines (td : TopdownT) : List (List Char) :=
  if td.supported then
    ["topdown:".toList, text r [.str "  retiring:    ", .double td.retiring],
      text r [.str "  bad-spec:    ", .double td.badSpec],
      text r [.str "  fe-bound:    ", .double td.frontend],
      text r [.str "  be-bound:    ", .double td.backend]]
  else ["topdown: not supported on this CPU/kernel (Intel Icelake+ required)".toList]

/-- The block of a path. -/
def blockLines (ft : ℚ → ℚ) (cli : CliOpts) (runs : List BenchmarkT) (td : TopdownT) :
    List (List Char) :=
  let agg := collapseRuns ft runs
  headLines r cli.benchOpts.detail (cli.nRuns % 2 ^ 32) agg ++
  (if 1 < cli.nRuns then statsLines r runs else []) ++
  (if cli.table then tableLines r runs else []) ++
  metricLines r agg cli.metricsCsv ++
  (if cli.topdownOnly then topdownLines r td else [])

variable {r} (hr : r.Decimal)

/-- A word of the program: not empty, and with neither terminator nor line end inside. -/
def IsWord (s : String) : Prop := s.toList ≠ [] ∧ '\x00' ∉ s.toList ∧ '\n' ∉ s.toList

instance (s : String) : Decidable (IsWord s) := inferInstanceAs (Decidable (_ ∧ _ ∧ _))

theorem IsWord.cString_eq {s : String} (h : IsWord s) : cString s = s.toList :=
  cString_eq_toList_iff.mpr h.2.1

theorem IsWord.isLine {s : String} (h : IsWord s) {es : List Emit} (hes : Unbroken r es) :
    IsLine '\n' (text r (.str s :: es)) := hes.isLine ⟨h.cString_eq ▸ h.1, h.2.2⟩

/-- A word as the label, and numbers and words after it. -/
theorem lined_label {w : String} (hw : IsWord w) {tail : List Emit} (ht : Unbroken r tail) :
    Lined '\n' (text r (labelled [.str w] (tail ++ [newline]) false))
      [text r (.str w :: tail)] :=
  lined_labelled (hw.isLine ht)

theorem humanRows_isWord (detail : ℕ) : ∀ row ∈ humanRows detail, IsWord row.1 := by
  have hall : ∀ row ∈ humanRows 3, IsWord row.1 := by decide +kernel
  exact fun row hrow => hall row ((humanRows_sublist detail).subset hrow)

/-- A line whose end is written with its last word. -/
theorem lined_lastWord {es : List Emit} {w w' : String} (hw : cString w' = cString w ++ ['\n'])
    (h : IsLine '\n' (text r (es ++ [.str w]))) :
    Lined '\n' (text r (es ++ [.str w'])) [text r (es ++ [.str w])] := by
  have heq : text r (es ++ [.str w']) = text r (es ++ [.str w]) ++ ['\n'] := by
    simp [Emit.text, hw]
  rw [heq]
  exact Lined.single h

/-- The characters of a token are those of the list. -/
theorem mem_of_mem_metricTokens {csv : String} {t : List Char} (ht : t ∈ metricTokens csv)
    {c : Char} (hc : c ∈ t) : c ∈ csv.toList := by
  obtain ⟨t', ht', rfl⟩ := List.mem_map.mp ht
  have hmem : c ∈ [','].intercalate (csv.toList.splitOn ',') :=
    mem_intercalate _ (List.mem_of_mem_take hc) ht'
  rwa [List.intercalate_splitOn] at hmem

include hr

theorem lined_humanHead {b : BenchmarkT} (hname : '\n' ∉ cString b.name) (nRuns : ℕ) :
    Lined '\n' (text r (humanHead b nRuns false)) ([("Attempted ", r.int nRuns ++ " runs".toList),
      ("Results for: ", cString b.name),
      ("Total time elapsed:   ", r.double b.time ++ " microseconds".toList)].map
        fun f => f.1.toList ++ f.2) := by
  have hruns := @lined_labelled r [.str "Attempted ", .int nRuns, .str " runs"] []
    (IsWord.isLine (by decide) (.int (.str .nil (by decide)) hr _))
  have hresults := @lined_labelled r [.str "Results for: "] [.str b.name]
    (IsWord.isLine (by decide) (Unbroken.nil.cons hname))
  have htime := @lined_labelled r [.str "Total time elapsed:   "]
    [.double b.time, .str " microseconds"]
    (IsWord.isLine (by decide) (.double (.str .nil (by decide)) hr _))
  have hword (s : String) (h : IsWord s) : (Emit.str s).text r = s.toList := h.cString_eq
  have hlines := (hruns.append hresults).append htime
  simp only [List.append_nil, List.cons_append, List.nil_append, text_cons, text_nil,
    hword "Attempted " (by decide), hword " runs" (by decide), hword "Results for: " (by decide),
    hword "Total time elapsed:   " (by decide), hword " microseconds" (by decide)] at hlines
  rw [humanHead, text_append, text_append]
  exact hlines

theorem lined_emitRow {label : String} (hl : IsWord label) (v : ℤ) :
    Lined '\n' (text r (emitRow label v false)) [label.toList ++ r.int v] := by
  have hrow := lined_label hl (Unbroken.nil.int hr v)
  have hword : (Emit.str label).text r = label.toList := hl.cString_eq
  simp only [List.append_nil, List.cons_append, List.nil_append, text_cons, text_nil,
    hword] at hrow
  exact hrow

theorem lined_emitHumanOne {b : BenchmarkT} (hname : '\n' ∉ cString b.name) (detail nRuns : ℕ) :
    Lined '\n' (text r (emitHumanOne b detail false nRuns)) (headLines r detail nRuns b) := by
  have hrows : Lined '\n'
      (text r ((humanRows detail).flatMap fun row => emitRow row.1 (row.2 b) false))
      ((humanRows detail).flatMap fun row => [row.1.toList ++ r.int (row.2 b)]) := by
    rw [text_flatMap]
    exact Lined.flatMap _ fun row hrow => lined_emitRow hr (humanRows_isWord detail row hrow) _
  rw [emitHumanOne_eq, text_append, headLines, headFields, List.map_append, List.map_map]
  rw [← List.map_eq_flatMap] at hrows
  exact (lined_humanHead hr hname nRuns).append hrows

theorem lined_emitStats (runs : List BenchmarkT) :
    Lined '\n' (text r (emitStats runs false)) (statsLines r runs) := by
  have hsum (w : String) (hw : IsWord w) (s : StatsT) : Lined '\n'
      (text r
        (labelled [.str w] [.double s.mean, .str "  stddev=", .double s.stddev, newline] false))
      [text r [.str w, .double s.mean, .str "  stddev=", .double s.stddev]] :=
    lined_label hw (.double (.str (.double .nil hr _) (by decide)) hr _)
  have htime (w : String) (hw : IsWord w) (s : StatsT) : Lined '\n'
      (text r (labelled [.str w] [.double s.mean, .str "  stddev=", .double s.stddev,
        .str "  min=", .double s.mn, .str "  max=", .double s.mx, newline] false))
      [text r [.str w, .double s.mean, .str "  stddev=", .double s.stddev, .str "  min=",
        .double s.mn, .str "  max=", .double s.mx]] :=
    lined_label hw (.double (.str (.double (.str (.double (.str (.double .nil hr _)
      (by decide)) hr _) (by decide)) hr _) (by decide)) hr _)
  rw [emitStats_eq, text_append, text_append]
  exact ((htime "time (us):     mean=" (by decide) _).append
    (hsum "cycles:        mean=" (by decide) _)).append
    (hsum "instructions:  mean=" (by decide) _)

theorem lined_tableLine (m : ℚ) (b : BenchmarkT) : Lined '\n' (text r ([.str "  ",
    .double b.time, .str "  ("] ++ (if 0 ≤ b.time - m then [.str "+"] else []) ++
      [.double (b.time - m), .str ")\n"])) [tableLine r m b] := by
  have htail : Unbroken r ((if 0 ≤ b.time - m then [.str "+"] else []) ++
      [.double (b.time - m), .str ")"]) := by
    split
    · exact .str (.double (.str .nil (by decide)) hr _) (by decide)
    · exact .double (.str .nil (by decide)) hr _
  have hline : IsLine '\n' (tableLine r m b) := by
    rw [tableLine, List.append_assoc]
    exact IsWord.isLine (by decide) (.double (.str htail (by decide)) hr _)
  have hassoc (w : String) : ([.str "  ", .double b.time, .str "  ("] : List Emit) ++
      (if 0 ≤ b.time - m then [.str "+"] else []) ++ [.double (b.time - m), .str w] =
      ([.str "  ", .double b.time, .str "  ("] ++ (if 0 ≤ b.time - m then [.str "+"] else []) ++
        [.double (b.time - m)]) ++ [.str w] := by simp
  rw [tableLine, hassoc] at hline
  rw [hassoc ")\n", tableLine, hassoc ")"]
  exact lined_lastWord (by decide) hline

theorem lined_emitTable (runs : List BenchmarkT) :
    Lined '\n' (text r (emitTable runs)) (tableLines r runs) := by
  unfold emitTable tableLines
  split
  · exact Lined.nil
  · have hrows := Lined.flatMap runs fun b _ =>
      lined_tableLine hr (computeStats runs BenchmarkT.time).mean b
    rw [← text_flatMap, ← List.map_eq_flatMap] at hrows
    rw [text_append, text_append]
    refine Lined.append (Lined.append ?_ hrows) ?_
    · exact @lined_lastWord r [] "# Table of individual time measurements (us):" _ (by decide)
        (IsWord.isLine (by decide) .nil)
    · exact lined_text (IsWord.isLine (by decide) (.double (.str (.double (.str (.double (.str
        (.double .nil hr _) (by decide)) hr _) (by decide)) hr _) (by decide)) hr _))

theorem lined_flushMetric (b : BenchmarkT) {t : List Char} (ht : '\n' ∉ t) :
    Lined '\n' (text r (flushMetric b false t)) (metricTokenLines r b t) := by
  unfold flushMetric metricTokenLines
  split
  · exact Lined.nil
  cases hm : lookupMetric (String.ofList t) with
  | some m =>
    have hword : IsWord m.name := by
      have hall : ∀ m ∈ knownMetrics, IsWord m.name := by decide +kernel
      exact hall m (List.mem_of_find?_eq_some hm)
    exact @lined_text r [.str m.name, .str ": ", .double (m.fn b)]
      (hword.isLine (.str (.double .nil hr _) (by decide)))
  | none =>
    have ht' : '\n' ∉ (String.ofList t).toList := by rwa [String.toList_ofList]
    exact @lined_lastWord r [.str "metric '", .str (String.ofList t)] "' not known" "' not known\n"
      (by decide) (IsWord.isLine (by decide) (.str (.str .nil (by decide)) ht'))

theorem lined_emitMetrics (b : BenchmarkT) {csv : Option String}
    (hcsv : ∀ s ∈ csv, '\n' ∉ s.toList) :
    Lined '\n' (text r (emitMetrics b csv false)) (metricLines r b csv) := by
  cases csv with
  | none => exact Lined.nil
  | some csv =>
    rw [emitMetrics_some, text_flatMap, metricLines]
    refine Lined.flatMap _ fun t ht => lined_flushMetric hr b fun hc => ?_
    exact hcsv csv rfl (mem_of_mem_metricTokens ht hc)

theorem lined_emitTopdown (td : TopdownT) :
    Lined '\n' (text r (emitTopdown td false)) (topdownLines r td) := by
  have hpart (w : String) (hw : IsWord w) (t : ℚ) :
      Lined '\n' (text r [.str w, .double t, newline]) [text r [.str w, .double t]] :=
    @lined_text r [.str w, .double t] (hw.isLine (.double .nil hr _))
  have hhead : Lined '\n' (text r [.bytes "topdown:\n" 9]) ["topdown:".toList] :=
    Lined.single (l := "topdown:".toList) ⟨by decide, by decide⟩
  unfold emitTopdown topdownLines
  split
  · have hparts := (hpart "  retiring:    " (by decide) td.retiring).append
      ((hpart "  bad-spec:    " (by decide) td.badSpec).append
        ((hpart "  fe-bound:    " (by decide) td.frontend).append
          (hpart "  be-bound:    " (by decide) td.backend)))
    rw [← text_append, ← text_append, ← text_append] at hparts
    rw [text_append]
    exact hhead.append hparts
  · exact @lined_lastWord r []
      "topdown: not supported on this CPU/kernel (Intel Icelake+ required)" _ (by decide)
      (IsWord.isLine (by decide) .nil)

theorem lined_emitBlock {ft : ℚ → ℚ} {cli : CliOpts} {runs : List BenchmarkT}
    (hname : '\n' ∉ cString (collapseRuns ft runs).name)
    (hcsv : ∀ s ∈ cli.metricsCsv, '\n' ∉ s.toList) (td : TopdownT) :
    Lined '\n' (text r (emitBlock ft cli false runs td)) (blockLines r ft cli runs td) := by
  have hite {p : Prop} [Decidable p] {es : List Emit} {ls : List (List Char)}
      (h : Lined '\n' (text r es) ls) :
      Lined '\n' (text r (if p then es else [])) (if p then ls else []) := by
    split
    · exact h
    · exact Lined.nil
  simp only [emitBlock, blockLines, text_append]
  exact ((((lined_emitHumanOne hr hname _ _).append (hite (lined_emitStats hr runs))).append
    (hite (lined_emitTable hr runs))).append (lined_emitMetrics hr _ hcsv)).append
    (hite (lined_emitTopdown hr td))

end Block

end Bbench.Report
