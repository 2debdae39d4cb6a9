import Bbench.Lib.Tokens
import Bbench.Report.Metrics

/-! `emit_metrics` on the memory it reads and writes: the list of names stands before a
NUL, and the current token in the 64 cells of `buf`. Every non-empty token has its own
entry in the output. No metric has a name as long as the buffer, so that a token cut
to it is reported as not known. -/

namespace Bbench.Report

open Lib (tokens)

/-- `emit_metrics` with `csv` as the memory it points to, if it is not null, and `buf` as
the automatic array finds it. `none` would be an access out of bounds. -/
def emitMetricsMem (b : BenchmarkT) (color : Bool) (buf : Vector Char (metricBufMax + 1))
    (csv : Option (List Char)) : Option (List Emit) :=
  match csv with
  | none => some []
  | some mem => Lib.tokenLoop ',' '\x00' (fun t out => out ++ flushMetric b color t) mem buf 0 []

/-- The line of a metric. -/
def metricLine (b : BenchmarkT) (color : Bool) (m : NamedMetric) : List Emit :=
  ifColor color blue ++ [.str m.name, .str ": "] ++ ifColor color plain ++
    [.double (m.fn b), newline]

/-- The line of a token that names no metric. -/
def unknownMetricLine (t : List Char) : List Emit :=
  [.str "metric '", .str (String.ofList (t.take metricBufMax)), .str "' not known\n"]

/-- What the report says about a token. -/
def metricEntry (b : BenchmarkT) (color : Bool) (t : List Char) : List Emit :=
  match lookupMetric (String.ofList t) with
  | some m => metricLine b color m
  | none => unknownMetricLine t

/-! ### The table -/

theorem knownMetrics_short : ∀ m ∈ knownMetrics, m.name.toList.length < metricBufMax := by
  decide +kernel

theorem knownMetrics_nodup : (knownMetrics.map NamedMetric.name).Nodup := by decide +kernel

/-- A token that was cut is not found, and any other is what it was. -/
theorem lookupMetric_take (t : List Char) :
    lookupMetric (String.ofList (t.take metricBufMax)) = lookupMetric (String.ofList t) := by
  have h := Lib.find?_take (fun m : NamedMetric => m.name.toList) knownMetrics
    knownMetrics_short t
  simpa only [lookupMetric, String.ext_iff, String.toList_ofList] using h

theorem metricEntry_known (b : BenchmarkT) (color : Bool) {t : List Char} {m : NamedMetric}
    (hm : m ∈ knownMetrics) (hname : m.name = String.ofList t) :
    metricEntry b color t = metricLine b color m := by
  have hfilter := Lib.filter_eq_toList_find? NamedMetric.name knownMetrics_nodup (String.ofList t)
  have hmem : m ∈ knownMetrics.filter fun m => m.name = String.ofList t :=
    List.mem_filter.mpr ⟨hm, decide_eq_true hname⟩
  rw [hfilter, Option.mem_toList] at hmem
  rw [metricEntry, lookupMetric, hmem]

theorem metricEntry_unknown (b : BenchmarkT) (color : Bool) {t : List Char}
    (h : ∀ m ∈ knownMetrics, m.name ≠ String.ofList t) :
    metricEntry b color t = unknownMetricLine t := by
  have hnone : lookupMetric (String.ofList t) = none := by
    rw [lookupMetric, List.find?_eq_none]
    simpa using h
  rw [metricEntry, hnone]

/-! ### The whole list -/

theorem flushMetric_take (b : BenchmarkT) (color : Bool) {t : List Char} (ht : t ≠ []) :
    flushMetric b color (t.take metricBufMax) = metricEntry b color t := by
  have hne : t.take metricBufMax ≠ [] := by
    rw [ne_eq, List.take_eq_nil_iff, not_or]
    exact ⟨by decide, ht⟩
  rw [flushMetric, if_neg hne, lookupMetric_take, metricEntry]
  rfl

theorem foldl_flushMetric (b : BenchmarkT) (color : Bool) (ts : List (List Char))
    (hts : ∀ t ∈ ts, t ≠ []) (out : List Emit) :
    ts.foldl (fun out t => out ++ flushMetric b color (t.take metricBufMax)) out =
      out ++ ts.flatMap (metricEntry b color) := by
  induction ts generalizing out with
  | nil => simp
  | cons t ts ih =>
    rw [List.foldl_cons, ih (fun t ht => hts t (List.mem_cons_of_mem _ ht)),
      flushMetric_take b color (hts t List.mem_cons_self), List.flatMap_cons, List.append_assoc]

/-- One entry for each token. Whatever the list of names, the contents of `buf` and what
lies beyond both, the function ends inside its buffer; its output is that of the
non-empty tokens in order, the line of exactly the metric a token names or else the
message with what the buffer holds of it. -/
theorem emitMetrics_entries (b : BenchmarkT) (color : Bool)
    (buf : Vector Char (metricBufMax + 1)) (csv : Lib.Terminated '\x00') (beyond : List Char) :
    emitMetricsMem b color buf (some (csv.cells beyond)) =
        some ((tokens ',' csv.bytes).flatMap (metricEntry b color)) ∧
      emitMetrics b (some (String.ofList csv.bytes)) color =
        (tokens ',' csv.bytes).flatMap (metricEntry b color) ∧
      ∀ t,
        (∀ m ∈ knownMetrics, m.name = String.ofList t →
          metricEntry b color t = metricLine b color m) ∧
        ((∀ m ∈ knownMetrics, m.name ≠ String.ofList t) →
          metricEntry b color t = unknownMetricLine t) := by
  refine ⟨?_, ?_, fun t => ⟨fun m hm hname => metricEntry_known b color hm hname,
    metricEntry_unknown b color⟩⟩
  · rw [emitMetricsMem, Lib.tokenLoop_cells (by decide),
      foldl_flushMetric b color _ fun t => Lib.ne_nil_of_mem_tokens, List.nil_append]
  · -- an empty piece prints nothing, so that only the tokens count
    rw [emitMetrics_some, metricTokens, String.toList_ofList, List.flatMap_map, tokens]
    induction csv.bytes.splitOn ',' with
    | nil => rfl
    | cons t ts ih =>
      by_cases ht : t = []
      · simpa [ht, flushMetric] using ih
      · simp [ht, flushMetric_take, ih]

end Bbench.Report
