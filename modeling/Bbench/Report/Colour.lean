import Bbench.Lib.Separated
import Bbench.Report.Bytes
import Bbench.Report.Human

/-! Colour. Two reports of the same data, one with colour and one without, are
compared by deleting the escape sequences from the first. The relation is closed
under everything the emitters are built from; the one literal of the top-down
header that is emitted with a wrong length falls out of it. -/

namespace Bbench.Report

/-- Every occurrence of the two escape sequences is deleted. -/
def stripColour : List Char → List Char
  | '\x1b' :: '[' :: '3' :: '4' :: 'm' :: cs => stripColour cs
  | '\x1b' :: '[' :: '0' :: 'm' :: cs => stripColour cs
  | c :: cs => c :: stripColour cs
  | [] => []

theorem stripColour_cons {c : Char} (hc : c ≠ '\x1b') (cs : List Char) :
    stripColour (c :: cs) = c :: stripColour cs := by
  rw [stripColour]
  · rintro _ rfl _
    exact hc rfl
  · rintro _ rfl _
    exact hc rfl

theorem stripColour_append {a : List Char} (ha : '\x1b' ∉ a) (b : List Char) :
    stripColour (a ++ b) = a ++ stripColour b := by
  induction a with
  | nil => rfl
  | cons c a ih =>
    obtain ⟨hc, ha'⟩ := not_or.mp (fun h => ha (List.mem_cons.mpr h))
    rw [List.cons_append, stripColour_cons (Ne.symm hc), ih ha', List.cons_append]

/-- No number is rendered with an escape character. -/
structure Rendering.Plain (r : Rendering) : Prop where
  int : ∀ v, '\x1b' ∉ r.int v
  double : ∀ t, '\x1b' ∉ r.double t

theorem decimalRendering_plain : decimalRendering.Plain where
  int _ hc := absurd (mem_decimalInt hc) (by decide)
  double _ hc := absurd (mem_decimalDouble hc) (by decide)

section Relation
variable (r : Rendering)

/-- A report that differs only in colour: deleting the escape sequences of the coloured
one gives the plain one, whatever follows, and no call reads past its literal. -/
structure ColourSafe (f : Bool → List Emit) : Prop where
  strip : ∀ rest, stripColour (text r (f true) ++ rest) = text r (f false) ++ stripColour rest
  within : ∀ color, ∀ e ∈ f color, e.Within

/-- Calls that write no escape character and stay inside their literals. -/
def AllPlain (es : List Emit) : Prop := ∀ e ∈ es, '\x1b' ∉ e.text r ∧ e.Within

variable {r}

theorem ColourSafe.append {f g : Bool → List Emit} (hf : ColourSafe r f) (hg : ColourSafe r g) :
    ColourSafe r fun color => f color ++ g color where
  strip rest := by
    rw [text_append, text_append, List.append_assoc, hf.strip, hg.strip, List.append_assoc]
  within color e he := (List.mem_append.mp he).elim (hf.within color e) (hg.within color e)

theorem ColourSafe.flatMap {α : Type*} {f : α → Bool → List Emit} (l : List α)
    (h : ∀ a ∈ l, ColourSafe r (f a)) : ColourSafe r fun color => l.flatMap fun a => f a color := by
  induction l with
  | nil => exact ⟨fun _ => rfl, fun _ _ he => absurd he List.not_mem_nil⟩
  | cons a l ih =>
    simp only [List.flatMap_cons]
    exact (h a List.mem_cons_self).append (ih fun b hb => h b (List.mem_cons_of_mem a hb))

/-- Calls that do not look at the colour. -/
theorem colourSafe_const {es : List Emit} (h : AllPlain r es) :
    ColourSafe r fun _ => es where
  strip rest := by
    refine stripColour_append (fun hc => ?_) rest
    obtain ⟨e, he, hce⟩ := List.mem_flatMap.mp hc
    exact (h e he).1 hce
  within _ e he := (h e he).2

theorem colourSafe_blue : ColourSafe r fun color => ifColor color blue :=
  ⟨fun _ => rfl, by decide⟩

theorem colourSafe_plain : ColourSafe r fun color => ifColor color plain :=
  ⟨fun _ => rfl, by decide⟩

/-- A coloured label and what is printed after it. -/
def labelled (label tail : List Emit) (color : Bool) : List Emit :=
  ifColor color blue ++ label ++ ifColor color plain ++ tail

theorem colourSafe_labelled {label tail : List Emit} (hl : AllPlain r label)
    (ht : AllPlain r tail) : ColourSafe r (labelled label tail) :=
  ((colourSafe_blue.append (colourSafe_const hl)).append colourSafe_plain).append
    (colourSafe_const ht)

theorem ColourSafe.strip_eq {f : Bool → List Emit} (h : ColourSafe r f) :
    stripColour (text r (f true)) = text r (f false) := by
  simpa [stripColour] using h.strip []

/-! ### Single calls -/

namespace AllPlain

theorem nil : AllPlain r [] := fun _ he => absurd he List.not_mem_nil

variable {es : List Emit} (h : AllPlain r es)
include h

theorem str {s : String} (hs : '\x1b' ∉ s.toList) : AllPlain r (.str s :: es) :=
  List.forall_mem_cons.mpr ⟨⟨fun hc => hs (mem_of_mem_cString hc), trivial⟩, h⟩

theorem newline : AllPlain r (newline :: es) :=
  List.forall_mem_cons.mpr ⟨⟨by simp, by decide⟩, h⟩

theorem int (hr : r.Plain) (v : ℤ) : AllPlain r (.int v :: es) :=
  List.forall_mem_cons.mpr ⟨⟨hr.int v, trivial⟩, h⟩

theorem double (hr : r.Plain) (t : ℚ) : AllPlain r (.double t :: es) :=
  List.forall_mem_cons.mpr ⟨⟨hr.double t, trivial⟩, h⟩

end AllPlain

/-! ### The emitters -/

/-- A row of the human format: the label and the counter after it. -/
abbrev HumanRow := String × (BenchmarkT → ℤ)

def humanRowsD1 : List HumanRow :=
  [("Cycles Spent:         ", BenchmarkT.cycles),
    ("Total Instructions:   ", BenchmarkT.instructions),
    ("Total Branches:       ", BenchmarkT.totalBranches),
    ("Branch Misses:        ", BenchmarkT.branchMisses),
    ("Total CPU Cycles:     ", BenchmarkT.totalCycles),
    ("Total CPU Time Spent: ", BenchmarkT.cpuTime),
    ("Context Switches:     ", BenchmarkT.contextSwitches),
    ("Core Migrations:      ", BenchmarkT.migrations),
    ("Cache Misses:         ", BenchmarkT.cacheMisses),
    ("L1 Cache:             ", BenchmarkT.l1Cache),
    ("L1T Cache:            ", BenchmarkT.l1tCache),
    ("Last Level Cache:     ", BenchmarkT.llCache),
    ("Cache Accesses:       ", BenchmarkT.access),
    ("Branch Predictions:   ", BenchmarkT.bpu)]

def humanRowsD2 : List HumanRow :=
  [("Page Faults:          ", BenchmarkT.pageFaults),
    ("Bus Cycles:           ", BenchmarkT.busCycles),
    ("Stalled Frontend:     ", BenchmarkT.stalledFront),
    ("Stalled Backend:      ", BenchmarkT.stalledBack),
    ("dTLB Loads:           ", BenchmarkT.dtlbAccess),
    ("dTLB Load Misses:     ", BenchmarkT.dtlbMiss),
    ("iTLB Loads:           ", BenchmarkT.itlbAccess),
    ("iTLB Load Misses:     ", BenchmarkT.itlbMiss),
    ("L1d Load Misses:      ", BenchmarkT.l1dMiss),
    ("LLC Load Misses:      ", BenchmarkT.llcacheMiss)]

def humanRowsD3 : List HumanRow :=
  [("L1i Load Misses:      ", BenchmarkT.l1tMiss),
    ("L1d Prefetches:       ", BenchmarkT.l1dPrefetch),
    ("L1d Prefetch Misses:  ", BenchmarkT.l1dPrefetchMiss),
    ("Minor Faults:         ", BenchmarkT.minorFaults),
    ("Major Faults:         ", BenchmarkT.majorFaults),
    ("Alignment Faults:     ", BenchmarkT.alignmentFaults),
    ("Emulation Faults:     ", BenchmarkT.emulationFaults)]

/-- The rows of a detail level. -/
def humanRows (detail : ℕ) : List HumanRow :=
  humanRowsD1 ++ (if 2 ≤ detail then humanRowsD2 else []) ++
    (if 3 ≤ detail then humanRowsD3 else [])

theorem humanRows_sublist (detail : ℕ) : (humanRows detail).Sublist (humanRows 3) :=
  ((List.Sublist.refl humanRowsD1).append (Lib.ite_nil_sublist _ humanRowsD2)).append
    (Lib.ite_nil_sublist _ humanRowsD3)

theorem humanRows_plain (detail : ℕ) : ∀ row ∈ humanRows detail, '\x1b' ∉ row.1.toList := by
  have hall : ∀ row ∈ humanRows 3, '\x1b' ∉ row.1.toList := by decide +kernel
  exact fun row hrow => hall row ((humanRows_sublist detail).subset hrow)

/-- The three lines before the rows. -/
def humanHead (b : BenchmarkT) (nRuns : ℕ) (color : Bool) : List Emit :=
  labelled [.str "Attempted ", .int nRuns, .str " runs"] [newline] color ++
  labelled [.str "Results for: "] [.str b.name, newline] color ++
  labelled [.str "Total time elapsed:   "] [.double b.time, .str " microseconds", newline] color

theorem emitHumanOne_eq (b : BenchmarkT) (detail : ℕ) (color : Bool) (nRuns : ℕ) :
    emitHumanOne b detail color nRuns = humanHead b nRuns color ++
      (humanRows detail).flatMap fun row => emitRow row.1 (row.2 b) color := by
  unfold emitHumanOne humanHead labelled humanRows humanRowsD1 humanRowsD2 humanRowsD3
  by_cases h2 : 2 ≤ detail <;> by_cases h3 : 3 ≤ detail <;>
    simp only [h2, h3, if_true, if_false, List.flatMap_append, List.flatMap_cons,
      List.flatMap_nil, List.append_assoc, List.append_nil]

theorem emitStats_eq (runs : List BenchmarkT) (color : Bool) :
    let sTime := computeStats runs BenchmarkT.time
    let sCyc := computeStats runs fun b => (b.cycles : ℚ)
    let sIns := computeStats runs fun b => (b.instructions : ℚ)
    emitStats runs color =
      labelled [.str "time (us):     mean="] [.double sTime.mean, .str "  stddev=",
        .double sTime.stddev, .str "  min=", .double sTime.mn, .str "  max=", .double sTime.mx,
        newline] color ++
      labelled [.str "cycles:        mean="]
        [.double sCyc.mean, .str "  stddev=", .double sCyc.stddev, newline] color ++
      labelled [.str "instructions:  mean="]
        [.double sIns.mean, .str "  stddev=", .double sIns.stddev, newline] color := by
  simp only [emitStats, labelled, List.append_assoc]

theorem knownMetrics_plain : ∀ m ∈ knownMetrics, '\x1b' ∉ m.name.toList := by
  decide +kernel

variable (hr : r.Plain)
include hr

theorem colourSafe_emitRow {label : String} (hl : '\x1b' ∉ label.toList) (v : ℤ) :
    ColourSafe r (emitRow label v) :=
  colourSafe_labelled (.str .nil hl) (.int (.newline .nil) hr v)

theorem colourSafe_humanHead {b : BenchmarkT} (hname : '\x1b' ∉ b.name.toList) (nRuns : ℕ) :
    ColourSafe r (humanHead b nRuns) := by
  refine ColourSafe.append (ColourSafe.append ?_ ?_) ?_
  · exact colourSafe_labelled (.str (.int (.str .nil (by decide)) hr _) (by decide)) (.newline .nil)
  · exact colourSafe_labelled (.str .nil (by decide)) (.str (.newline .nil) hname)
  · exact colourSafe_labelled (.str .nil (by decide))
      (.double (.str (.newline .nil) (by decide)) hr _)

theorem colourSafe_emitHumanOne {b : BenchmarkT} (hname : '\x1b' ∉ b.name.toList)
    (detail nRuns : ℕ) : ColourSafe r fun color => emitHumanOne b detail color nRuns := by
  simp only [emitHumanOne_eq]
  exact (colourSafe_humanHead hr hname nRuns).append (ColourSafe.flatMap _ fun row hrow =>
    colourSafe_emitRow hr (humanRows_plain detail row hrow) (row.2 b))

theorem colourSafe_emitStats (runs : List BenchmarkT) : ColourSafe r (emitStats runs) := by
  have htail : ∀ mean stddev : ℚ,
      AllPlain r [.double mean, .str "  stddev=", .double stddev, newline] :=
    fun _ _ => .double (.str (.double (.newline .nil) hr _) (by decide)) hr _
  have heq : emitStats runs = _ := funext (emitStats_eq runs)
  rw [heq]
  refine ColourSafe.append (ColourSafe.append ?_ ?_) ?_
  · refine colourSafe_labelled (.str .nil (by decide)) ?_
    exact .double (.str (.double (.str (.double (.str (.double (.newline .nil) hr _)
      (by decide)) hr _) (by decide)) hr _) (by decide)) hr _
  · exact colourSafe_labelled (.str .nil (by decide)) (htail _ _)
  · exact colourSafe_labelled (.str .nil (by decide)) (htail _ _)

theorem colourSafe_flushMetric (b : BenchmarkT) {buf : List Char} (hbuf : '\x1b' ∉ buf) :
    ColourSafe r fun color => flushMetric b color buf := by
  unfold flushMetric
  split
  · exact colourSafe_const .nil
  split
  · rename_i m hm
    have hname : '\x1b' ∉ m.name.toList :=
      knownMetrics_plain m (List.mem_of_find?_eq_some hm)
    exact colourSafe_labelled (.str (.str .nil (by decide)) hname) (.double (.newline .nil) hr _)
  · exact colourSafe_const (.str (.str (.str .nil (by decide)) (by simpa using hbuf)) (by decide))

theorem colourSafe_emitMetrics (b : BenchmarkT) {csv : Option String}
    (hcsv : ∀ s ∈ csv, '\x1b' ∉ s.toList) : ColourSafe r (emitMetrics b csv) := by
  cases csv with
  | none => exact colourSafe_const .nil
  | some csv =>
    have heq : emitMetrics b (some csv) = _ := funext (emitMetrics_some b csv)
    rw [heq]
    refine ColourSafe.flatMap _ fun t ht => colourSafe_flushMetric hr b fun hc => ?_
    obtain ⟨t', ht', rfl⟩ := List.mem_map.mp ht
    have hmem : '\x1b' ∈ [','].intercalate (csv.toList.splitOn ',') :=
      Lib.mem_intercalate _ (List.mem_of_mem_take hc) ht'
    rw [List.intercalate_splitOn] at hmem
    exact hcsv csv rfl hmem

end Relation

/-! ### The header of the top-down report -/

theorem emitTopdown_unsupported {td : TopdownT} (h : td.supported = false) (color : Bool) :
    emitTopdown td color =
      [.str "topdown: not supported on this CPU/kernel (Intel Icelake+ required)\n"] := by
  rw [emitTopdown, h]
  rfl

/-- The coloured header has eighteen characters and is emitted with twenty-one. -/
theorem not_within_emitTopdown {td : TopdownT} (h : td.supported = true) :
    ∃ e ∈ emitTopdown td true, ¬ e.Within := by
  refine ⟨.bytes "\x1b[34mtopdown:\x1b[0m\n" 21, ?_, by decide⟩
  simp [emitTopdown, h]

/-- Whatever stands in memory, the coloured breakdown is not the plain one in colour: a
terminator comes after its header. -/
theorem strip_emitTopdown_ne (r : Rendering) {td : TopdownT} (h : td.supported = true) :
    stripColour (text r (emitTopdown td true)) ≠ text r (emitTopdown td false) := by
  have hcoloured : (stripColour (text r (emitTopdown td true)))[9]? = some '\x00' := by
    simp only [emitTopdown, h, if_true]
    rfl
  have hplain : (text r (emitTopdown td false))[9]? = some ' ' := by
    simp only [emitTopdown, h, if_true, Bool.false_eq_true, if_false]
    rfl
  intro heq
  rw [heq, hplain] at hcoloured
  exact absurd hcoloured (by decide)

section Emitters
variable (b : BenchmarkT) (runs : List BenchmarkT) (csv : Option String) (td : TopdownT)
  (detail nRuns : ℕ)

/-- The four emitters, as functions of the colour. -/
def emitters : List (Bool → List Emit) :=
  [fun color => emitHumanOne b detail color nRuns, emitStats runs, emitMetrics b csv,
    emitTopdown td]

/-- Colour changes nothing but colour. -/
def ColourOnly (r : Rendering) (f : Bool → List Emit) : Prop :=
  stripColour (text r (f true)) = text r (f false) ∧ ∀ color, ∀ e ∈ f color, e.Within

/-- The four emitters differ in colour only exactly when no breakdown is printed. -/
theorem emitters_colourOnly_iff {r : Rendering} (hr : r.Plain) (hname : '\x1b' ∉ b.name.toList)
    (hcsv : ∀ s ∈ csv, '\x1b' ∉ s.toList) :
    (∀ f ∈ emitters b runs csv td detail nRuns, ColourOnly r f) ↔ td.supported = false := by
  constructor
  · intro h
    by_contra hs
    obtain ⟨e, he, hwithin⟩ := not_within_emitTopdown (Bool.not_eq_false _ ▸ hs)
    exact hwithin ((h (emitTopdown td) (by simp [emitters])).2 true e he)
  · intro hs
    have htd : ColourSafe r (emitTopdown td) := by
      rw [funext (emitTopdown_unsupported hs)]
      exact colourSafe_const (.str .nil (by decide))
    have hsafe : ∀ f ∈ emitters b runs csv td detail nRuns, ColourSafe r f := by
      simp only [emitters, List.forall_mem_cons]
      exact ⟨colourSafe_emitHumanOne hr hname detail nRuns, colourSafe_emitStats hr runs,
        colourSafe_emitMetrics hr b hcsv, htd, fun _ h => absurd h List.not_mem_nil⟩
    exact fun f hf => ⟨(hsafe f hf).strip_eq, (hsafe f hf).within⟩

end Emitters

/-- One run with a known and an unknown metric. -/
theorem emitters_colourOnly_iff_one :
    decimalRendering.Plain ∧
      ∀ f ∈ emitters { name := "ls" } [{ name := "ls" }] (some "ipc,x") {} 1 1,
        ColourOnly decimalRendering f :=
  ⟨decimalRendering_plain, (emitters_colourOnly_iff _ _ _ _ _ _ decimalRendering_plain (by decide)
    (by simp)).mpr rfl⟩

/-- A breakdown of zeros, in colour and plain. -/
theorem not_emitTopdown_colourOnly :
    stripColour (text decimalRendering (emitTopdown { supported := true } true)) ≠
      text decimalRendering (emitTopdown { supported := true } false) ∧
    ∃ e ∈ emitTopdown { supported := true } true, ¬ e.Within :=
  ⟨strip_emitTopdown_ne _ rfl, not_within_emitTopdown rfl⟩

end Bbench.Report
