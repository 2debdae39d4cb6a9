import Bbench.Report.Emit

/-! Derived metrics. Each known metric is a quotient of two members of `benchmark_t`;
a denominator of zero gives zero. `emit_metrics` cuts its argument at commas into a
buffer of 64 bytes and prints a line for each token. -/

namespace Bbench.Report

open Perf

/-- `__safe_div`. -/
def safeDiv (num den : ℤ) : ℚ := if den = 0 then 0 else (num : ℚ) / den

section Table
variable (b : BenchmarkT)

def ipc : ℚ := safeDiv b.instructions b.cycles
def cpi : ℚ := safeDiv b.cycles b.instructions
def branchMissRate : ℚ := safeDiv b.branchMisses b.totalBranches
def cacheMissRate : ℚ := safeDiv b.cacheMisses b.l1Cache
def frontendStallRate : ℚ := safeDiv b.stalledFront b.cycles
def backendStallRate : ℚ := safeDiv b.stalledBack b.cycles
def l1dMissRate : ℚ := safeDiv b.l1dMiss b.l1Cache
def l1iMissRate : ℚ := safeDiv b.l1tMiss b.l1tCache
def llcMissRate : ℚ := safeDiv b.llcacheMiss b.llCache
def dtlbMissRate : ℚ := safeDiv b.dtlbMiss b.dtlbAccess
def itlbMissRate : ℚ := safeDiv b.itlbMiss b.itlbAccess

/-- The time is in microseconds. -/
def ghz : ℚ := safeDiv b.cycles (toLongLong (b.time * 1000))

end Table

structure NamedMetric where
  name : String
  fn : BenchmarkT → ℚ

def knownMetrics : List NamedMetric :=
  [⟨"ipc", ipc⟩, ⟨"cpi", cpi⟩, ⟨"branch-miss-rate", branchMissRate⟩,
    ⟨"cache-miss-rate", cacheMissRate⟩, ⟨"frontend-stall-rate", frontendStallRate⟩,
    ⟨"backend-stall-rate", backendStallRate⟩, ⟨"l1d-miss-rate", l1dMissRate⟩,
    ⟨"l1i-miss-rate", l1iMissRate⟩, ⟨"llc-miss-rate", llcMissRate⟩,
    ⟨"dtlb-miss-rate", dtlbMissRate⟩, ⟨"itlb-miss-rate", itlbMissRate⟩, ⟨"ghz", ghz⟩]

def lookupMetric (name : String) : Option NamedMetric :=
  knownMetrics.find? fun m => m.name = name

/-- The escape sequences before and after a coloured label. -/
def blue : Emit := .bytes "\x1b[34m" 5

def plain : Emit := .bytes "\x1b[0m" 4

/-- `if ( color ) out.emit(…)`. -/
def ifColor (color : Bool) (e : Emit) : List Emit := if color then [e] else []

/-! ### `emit_metrics` -/

/-- `sizeof(buf) - 1`. -/
def metricBufMax : ℕ := 63

/-- What the loop prints for the buffer at a comma or at the end. -/
def flushMetric (b : BenchmarkT) (color : Bool) (buf : List Char) : List Emit :=
  if buf = [] then []
  else match lookupMetric (String.ofList buf) with
    | some m => ifColor color blue ++ [.str m.name, .str ": "] ++ ifColor color plain ++
        [.double (m.fn b), newline]
    | none => [.str "metric '", .str (String.ofList buf), .str "' not known\n"]

/-- The character loop; a byte that no longer fits in the buffer is dropped. -/
def emitMetricsLoop (b : BenchmarkT) (color : Bool) : List Char → List Char → List Emit
  | [], buf => flushMetric b color buf
  | c :: cs, buf =>
    if c = ',' then flushMetric b color buf ++ emitMetricsLoop b color cs []
    else if buf.length < metricBufMax then emitMetricsLoop b color cs (buf ++ [c])
    else emitMetricsLoop b color cs buf

def emitMetrics (b : BenchmarkT) (csv : Option String) (color : Bool) : List Emit :=
  match csv with
  | none => []
  | some csv => emitMetricsLoop b color csv.toList []

/-- What the buffer holds at each comma and at the end. -/
def metricTokens (csv : String) : List (List Char) :=
  (csv.toList.splitOn ',').map (List.take metricBufMax)

/-- The loop with a partly filled buffer: the buffer is the start of the first token. -/
theorem emitMetricsLoop_eq (b : BenchmarkT) (color : Bool) (cs buf : List Char)
    (hbuf : buf.length ≤ metricBufMax) : emitMetricsLoop b color cs buf =
      ((cs.splitOn ',').modifyHead (buf ++ ·)).flatMap fun t =>
        flushMetric b color (t.take metricBufMax) := by
  induction cs generalizing buf with
  | nil => simp [emitMetricsLoop, List.take_of_length_le hbuf]
  | cons c cs ih =>
    obtain ⟨t, ts, hts⟩ := List.exists_cons_of_ne_nil (List.splitOn_ne_nil ',' cs)
    rw [emitMetricsLoop, List.splitOn_cons_eq_if_modifyHead]
    by_cases hc : c = ','
    · rw [if_pos hc, if_pos (beq_iff_eq.mpr hc), ih [] (Nat.zero_le _), hts]
      simp [List.take_of_length_le hbuf]
    simp only [hc, beq_eq_false_iff_ne.mpr hc, if_false, Bool.false_eq_true]
    by_cases hfull : buf.length < metricBufMax
    · rw [if_pos hfull, ih _ (by simpa [Nat.succ_le_iff] using hfull), hts]
      simp
    · have hlen : buf.length = metricBufMax := by omega
      rw [if_neg hfull, ih _ hbuf, hts]
      simp [← hlen]

/-- The report is that of the tokens, one after the other. -/
theorem emitMetrics_some (b : BenchmarkT) (csv : String) (color : Bool) :
    emitMetrics b (some csv) color = (metricTokens csv).flatMap (flushMetric b color) := by
  obtain ⟨t, ts, hts⟩ := List.exists_cons_of_ne_nil (List.splitOn_ne_nil ',' csv.toList)
  rw [emitMetrics, emitMetricsLoop_eq b color _ [] (Nat.zero_le _), metricTokens, hts]
  simp [List.flatMap_map]

end Bbench.Report
