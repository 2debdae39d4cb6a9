import Bbench.Report.Blocks

/-! The human report of `main` as a whole: its blocks, the colour that is deleted before it
is read, and what is read. Whether a breakdown is printed is decided once, when the first
block is measured. -/

namespace Bbench.Report

open Lib Cli

/-! ### Blocks -/

/-- Blocks with an empty line between them. -/
def emitBlocks (ft : ℚ → ℚ) (cli : CliOpts) (color : Bool) :
    List (List BenchmarkT × TopdownT) → List Emit
  | [] => []
  | x :: xs => emitBlock ft cli color x.1 x.2 ++
      xs.flatMap fun y => newline :: emitBlock ft cli color y.1 y.2

section Loop
variable (fl : ℚ → ℚ) (cli : CliOpts)

/-- What is measured for the block of the `k`-th path: its own counters, but the probe of the
first block, which is never made again. -/
def breakdown (td : ℕ → TdEnv) (k : ℕ) : TopdownT :=
  measureBin fl cli.benchOpts (td k).kernel none (td 0).probe

/-- The `k`-th pass of the loop knows the answer to the first probe, if it asks at all. -/
def ProbedOnce (td : ℕ → TdEnv) (k : ℕ) (cached : Option Bool) : Prop :=
  cli.topdownOnly = true → tdSupported cached (td k).probe = isOpened (td 0).probe

variable {fl cli} {ft : ℚ → ℚ} {td : ℕ → TdEnv} {k : ℕ} {cached : Option Bool}

theorem ProbedOnce.next (h : ProbedOnce cli td k cached) : ProbedOnce cli td (k + 1)
    (if cli.topdownOnly then some (tdSupported cached (td k).probe) else cached) := by
  intro htop
  rw [if_pos htop]
  exact h htop

theorem emitBlock_measureBin (h : ProbedOnce cli td k cached) (color : Bool)
    (runs : List BenchmarkT) :
    emitBlock ft cli color runs
        (measureBin fl cli.benchOpts (td k).kernel cached (td k).probe) =
      emitBlock ft cli color runs (breakdown fl cli td k) := by
  unfold emitBlock
  cases htop : cli.topdownOnly with
  | true =>
    have hprobe : tdSupported none (td 0).probe = isOpened (td 0).probe := rfl
    rw [breakdown, measureBin, measureBin, h htop, hprobe]
  | false => rfl

/-- From the second block on, a line end stands before each. -/
theorem reportLoop_succ (h0 : cli.csvSep = Char.ofNat 0) (l : List (List BenchmarkT))
    (h : ProbedOnce cli td (k + 1) cached) :
    reportLoop fl ft cli td l (k + 1) cached = (l.zipIdx (k + 1)).flatMap fun y =>
      newline :: emitBlock ft cli (colorOf cli) y.1 (breakdown fl cli td y.2) := by
  induction l generalizing k cached with
  | nil => rfl
  | cons runs rest ih =>
    have hsep : ¬ cli.csvSep ≠ Char.ofNat 0 := not_not.mpr h0
    rw [reportLoop, if_neg hsep, if_neg (Nat.succ_ne_zero k), emitBlock_measureBin h, ih h.next,
      List.zipIdx_cons, List.flatMap_cons, List.singleton_append]

theorem mainStatic_human (hevents : cli.benchOpts.eventCsv = none)
    (h0 : cli.csvSep = Char.ofNat 0) (env : MainEnv) :
    mainStatic fl ft cli env = emitBlocks ft cli (colorOf cli)
      ((sortResults ft env.husk (allResults fl cli env)).zipIdx.map fun y =>
        (y.1, breakdown fl cli env.td y.2)) := by
  have hsep : ¬ cli.csvSep ≠ Char.ofNat 0 := not_not.mpr h0
  have hfirst : ProbedOnce cli env.td 0 none := fun _ => rfl
  rw [mainStatic, hevents]
  show (if cli.csvSep ≠ Char.ofNat 0 then _ else _) ++ _ = _
  rw [if_neg hsep, List.nil_append]
  cases sortResults ft env.husk (allResults fl cli env) with
  | nil => rfl
  | cons runs rest =>
    rw [reportLoop, if_neg hsep, if_pos rfl, List.nil_append, emitBlock_measureBin hfirst,
      reportLoop_succ h0 rest hfirst.next, List.zipIdx_cons, List.map_cons, emitBlocks,
      List.flatMap_map]

/-- A probe that is refused at first is never made again. -/
theorem breakdown_unsupported (hprobe : isOpened (td 0).probe = false) (k : ℕ) :
    (breakdown fl cli td k).supported = false := by
  have hfalse : tdSupported none (td 0).probe = false := hprobe
  rw [breakdown, measureBin, hfalse]
  rfl

end Loop

/-! ### Without colour -/

section Text
variable {r : Rendering} {ft : ℚ → ℚ} {cli : CliOpts}

/-- The blocks in print. -/
theorem text_emitBlocks (hr : r.Decimal) (hcsv : ∀ s ∈ cli.metricsCsv, '\n' ∉ s.toList)
    (xs : List (List BenchmarkT × TopdownT))
    (hname : ∀ x ∈ xs, '\n' ∉ cString (collapseRuns ft x.1).name) :
    text r (emitBlocks ft cli false xs) =
      joinBlocks '\n' (xs.map fun x => blockLines r ft cli x.1 x.2) := by
  have hblock (x : List BenchmarkT × TopdownT) (hx : x ∈ xs) :
      text r (emitBlock ft cli false x.1 x.2) = joinLines '\n' (blockLines r ft cli x.1 x.2) :=
    (lined_emitBlock hr (hname x hx) hcsv x.2).text
  have hrest (ys : List (List BenchmarkT × TopdownT)) (hys : ∀ y ∈ ys, y ∈ xs) :
      ∀ x ∈ xs, joinBlocks '\n' ((x :: ys).map fun x => blockLines r ft cli x.1 x.2) =
        joinLines '\n' (blockLines r ft cli x.1 x.2) ++
          text r (ys.flatMap fun y => newline :: emitBlock ft cli false y.1 y.2) := by
    induction ys with
    | nil =>
      intro x _
      rw [List.map_singleton, joinBlocks_singleton, List.flatMap_nil, text_nil, List.append_nil]
    | cons y ys ih =>
      intro x _
      have hy : y ∈ xs := hys y List.mem_cons_self
      have hys' := ih (fun z hz => hys z (List.mem_cons_of_mem y hz)) y hy
      rw [List.map_cons] at hys'
      rw [List.map_cons, List.map_cons, joinBlocks_cons, hys', List.flatMap_cons, text_append,
        text_cons, hblock y hy, text_newline]
      rfl
  cases xs with
  | nil => rfl
  | cons x xs =>
    rw [emitBlocks, text_append, hblock x List.mem_cons_self,
      hrest xs (fun y hy => List.mem_cons_of_mem x hy) x List.mem_cons_self]

end Text

/-! ### With colour -/

section Colour
variable {r : Rendering} {ft : ℚ → ℚ} {cli : CliOpts}

theorem AllPlain.append {es es' : List Emit} (h : AllPlain r es) (h' : AllPlain r es') :
    AllPlain r (es ++ es') := fun e he => (List.mem_append.mp he).elim (h e) (h' e)

theorem ColourSafe.ite {p : Prop} [Decidable p] {f : Bool → List Emit}
    (h : p → ColourSafe r f) : ColourSafe r fun color => if p then f color else [] := by
  split
  · rename_i hp
    exact h hp
  · exact colourSafe_const .nil

variable (hr : r.Plain)
include hr

theorem allPlain_emitTable (runs : List BenchmarkT) : AllPlain r (emitTable runs) := by
  unfold emitTable
  split
  · exact .nil
  refine AllPlain.append (AllPlain.append ?_ ?_) ?_
  · exact .str .nil (by decide)
  · intro e he
    obtain ⟨b, -, hb⟩ := List.mem_flatMap.mp he
    refine AllPlain.append (AllPlain.append ?_ ?_) ?_ e hb
    · exact .str (.double (.str .nil (by decide)) hr _) (by decide)
    · split
      · exact .str .nil (by decide)
      · exact .nil
    · exact .double (.str .nil (by decide)) hr _
  · exact .str (.double (.str (.double (.str (.double (.str (.double (.newline .nil) hr _)
      (by decide)) hr _) (by decide)) hr _) (by decide)) hr _) (by decide)

/-- A block without a breakdown. -/
theorem colourSafe_emitBlock {runs : List BenchmarkT}
    (hname : '\x1b' ∉ (collapseRuns ft runs).name.toList)
    (hcsv : ∀ s ∈ cli.metricsCsv, '\x1b' ∉ s.toList) {td : TopdownT}
    (htd : cli.topdownOnly = true → td.supported = false) :
    ColourSafe r fun color => emitBlock ft cli color runs td := by
  have htopdown : ColourSafe r fun color => if cli.topdownOnly then emitTopdown td color else [] :=
    ColourSafe.ite fun htop => by
      rw [funext (emitTopdown_unsupported (htd htop))]
      exact colourSafe_const (.str .nil (by decide))
  exact ((((colourSafe_emitHumanOne hr hname _ _).append
    (ColourSafe.ite fun _ => colourSafe_emitStats hr runs)).append
    (ColourSafe.ite fun _ => colourSafe_const (allPlain_emitTable hr runs))).append
    (colourSafe_emitMetrics hr _ hcsv)).append htopdown

theorem colourSafe_emitBlocks (hcsv : ∀ s ∈ cli.metricsCsv, '\x1b' ∉ s.toList)
    (xs : List (List BenchmarkT × TopdownT))
    (hname : ∀ x ∈ xs, '\x1b' ∉ (collapseRuns ft x.1).name.toList)
    (htd : cli.topdownOnly = true → ∀ x ∈ xs, x.2.supported = false) :
    ColourSafe r fun color => emitBlocks ft cli color xs := by
  have hblock (x : List BenchmarkT × TopdownT) (hx : x ∈ xs) :
      ColourSafe r fun color => emitBlock ft cli color x.1 x.2 :=
    colourSafe_emitBlock hr (hname x hx) hcsv fun htop => htd htop x hx
  cases xs with
  | nil => exact colourSafe_const .nil
  | cons x xs =>
    have hafter (y : List BenchmarkT × TopdownT) (hy : y ∈ xs) :
        ColourSafe r fun color => newline :: emitBlock ft cli color y.1 y.2 := by
      have hline : ColourSafe r fun _ => [newline] := colourSafe_const (.newline .nil)
      simpa only [List.singleton_append] using
        hline.append (hblock y (List.mem_cons_of_mem x hy))
    have hrest : ColourSafe r fun color =>
        xs.flatMap fun y => newline :: emitBlock ft cli color y.1 y.2 :=
      ColourSafe.flatMap xs hafter
    exact (hblock x List.mem_cons_self).append hrest

end Colour

/-! ### Reading -/

section Read
variable (r : Rendering)

/-- What a reader makes of the output: the escape sequences that `main` has written to a
terminal are deleted. -/
def plainReport (cli : CliOpts) (t : List Char) : List Char :=
  if colorOf cli then stripColour t else t

/-- A block says what the result has: the path, and each number, in a rendering that no
other number has, after a label of its own. -/
structure BlockShows (detail nRuns : ℕ) (block : List (List Char)) (b : BenchmarkT) : Prop where
  runs : under "Attempted ".toList block = some (r.int nRuns ++ " runs".toList)
  name : under "Results for: ".toList block = some b.name.toList
  time : ∃ cell,
    under "Total time elapsed:   ".toList block = some (cell ++ " microseconds".toList) ∧
    ∀ t, r.double t = cell ↔ t = b.time
  row : ∀ row ∈ humanRows detail, ∃ cell, under row.1.toList block = some cell ∧
    ∀ v, r.int v = cell ↔ v = row.2 b

/-- No label of the head of a block is the beginning of another. -/
theorem headFields_apart (detail nRuns : ℕ) (b : BenchmarkT) :
    (headFields r detail nRuns b).Pairwise fun f g => Apart f.1.toList g.1.toList := by
  have hall : (["Attempted ", "Results for: ", "Total time elapsed:   "] ++
      (humanRows 3).map Prod.fst).Pairwise fun f g => Apart f.toList g.toList := by
    decide +kernel
  have hlabels : (headFields r detail nRuns b).map Prod.fst =
      ["Attempted ", "Results for: ", "Total time elapsed:   "] ++
        (humanRows detail).map Prod.fst := by
    rw [headFields, List.map_append, List.map_map]
    rfl
  have hsub : (["Attempted ", "Results for: ", "Total time elapsed:   "] ++
      (humanRows detail).map Prod.fst).Sublist (["Attempted ", "Results for: ",
        "Total time elapsed:   "] ++ (humanRows 3).map Prod.fst) :=
    (List.Sublist.refl _).append ((humanRows_sublist detail).map _)
  have hpair := hall.sublist hsub
  rwa [← hlabels, List.pairwise_map] at hpair

variable {r}

/-- The block of a path shows its average. -/
theorem blockShows_blockLines (hr : r.Decimal) (ft : ℚ → ℚ) (cli : CliOpts) {runs : List BenchmarkT}
    (hname : '\x00' ∉ (collapseRuns ft runs).name.toList) (td : TopdownT) :
    BlockShows r cli.benchOpts.detail (cli.nRuns % 2 ^ 32) (blockLines r ft cli runs td)
      (collapseRuns ft runs) := by
  have hfield : ∀ f ∈ headFields r cli.benchOpts.detail (cli.nRuns % 2 ^ 32) (collapseRuns ft runs),
      under f.1.toList (blockLines r ft cli runs td) = some f.2 := by
    intro f hf
    simp only [blockLines, headLines, List.append_assoc]
    exact under_labelled (headFields_apart r _ _ _) hf _
  simp only [headFields, List.cons_append, List.nil_append, List.forall_mem_cons,
    List.forall_mem_map] at hfield
  obtain ⟨hruns, hresult, htime, hrows⟩ := hfield
  refine ⟨hruns, ?_, ⟨_, htime, fun _ => hr.double_injective.eq_iff⟩,
    fun row hrow => ⟨_, hrows row hrow, fun _ => hr.int_injective.eq_iff⟩⟩
  rw [hresult, cString_eq_toList_iff.mpr hname]

/-- The two formats show the same counters in the same order. -/
theorem humanRows_columns {detail : ℕ} (hd : detail = 1 ∨ detail = 2 ∨ detail = 3) :
    (humanRows detail).map Prod.snd = (columns detail).map Column.field := by
  rcases hd with rfl | rfl | rfl <;> rfl

end Read

/-! ### `main` -/

section Main
variable {fl ft : ℚ → ℚ} {argv : List String} {cli : CliOpts}

/-- `bbench` without `-x` and without `-e` as a whole. For every accepted command line whose
paths and metrics stay on their lines, and whatever the kernel and the clock answer as long as
the counts can be summed, the output, with the colour deleted where there is any, can be cut
at its empty lines into one block for each path. The blocks come in the order of the mean
times; the lines of each are known, those of the breakdown too, and they say after their labels
what they should: the number of runs, the path, the mean of the times, and the same averages of
the same counters as the table of `-x`. -/
theorem main_human {r : Rendering} (hr : r.Decimal) (hargv : parseArgv argv = .ok cli)
    (hevents : cli.benchOpts.eventCsv = none) (h0 : cli.csvSep = Char.ofNat 0)
    (hpaths : ∀ p ∈ cli.paths, '\n' ∉ p.toList ∧ '\x00' ∉ p.toList)
    (hcsv : ∀ s ∈ cli.metricsCsv, '\n' ∉ s.toList) (env : MainEnv)
    (hfit : AllCountsFit fl cli env)
    (hcolour : colorOf cli = true → r.Plain ∧ (∀ p ∈ cli.paths, '\x1b' ∉ p.toList) ∧
      (∀ s ∈ cli.metricsCsv, '\x1b' ∉ s.toList) ∧
      (cli.topdownOnly = true → isOpened (env.td 0).probe = false)) :
    ∃ order, SortedByTime fl ft cli env order ∧
      (humanRows cli.benchOpts.detail).map Prod.snd =
        (columns cli.benchOpts.detail).map Column.field ∧
      List.Forall₂ (fun block x =>
          block = blockLines r ft cli (runsOf fl cli env x.1) (breakdown fl cli env.td x.2) ∧
          BlockShows r cli.benchOpts.detail (cli.nRuns % 2 ^ 32) block (resultOf fl ft cli env x.1))
        (cutBlocks '\n' (plainReport cli (text r (mainStatic fl ft cli env)))) order.zipIdx := by
  obtain ⟨order, hsorted, heq⟩ := @exists_sorted fl ft argv cli env hargv hfit
  let xs := order.zipIdx.map fun x => (runsOf fl cli env x.1, breakdown fl cli env.td x.2)
  have hmain : mainStatic fl ft cli env = emitBlocks ft cli (colorOf cli) xs := by
    rw [mainStatic_human hevents h0, heq, List.zipIdx_map, List.map_map]
    rfl
  have horder (x : ℕ × ℕ) (hx : x ∈ order.zipIdx) : (resultOf fl ft cli env x.1).name ∈ cli.paths :=
    hsorted.name_mem _ (List.fst_mem_of_mem_zipIdx hx)
  have hname : ∀ x ∈ xs, (collapseRuns ft x.1).name ∈ cli.paths :=
    List.forall_mem_map.mpr horder
  have hplain : plainReport cli (text r (mainStatic fl ft cli env)) =
      text r (emitBlocks ft cli false xs) := by
    rw [hmain, plainReport]
    cases hcol : colorOf cli with
    | false => rfl
    | true =>
      obtain ⟨hplain, hpaths', hcsv', htd⟩ := hcolour hcol
      refine (colourSafe_emitBlocks hplain hcsv' xs (fun x hx => hpaths' _ (hname x hx))
        fun htop => List.forall_mem_map.mpr fun x _ => ?_).strip_eq
      exact breakdown_unsupported (htd htop) x.2
  have hne : xs ≠ [] := by
    have hlen : xs.length = cli.paths.length := by
      rw [List.length_map, List.length_zipIdx, hsorted.perm.length_eq, List.length_range]
    exact fun hnil => paths_ne_nil hargv (List.length_eq_zero_iff.mp (hlen ▸ hnil ▸ rfl))
  have hline : ∀ block ∈ xs.map fun x => blockLines r ft cli x.1 x.2,
      ∀ l ∈ block, IsLine '\n' l := by
    refine List.forall_mem_map.mpr fun x hx => ?_
    have hbreak := (hpaths _ (hname x hx)).1
    exact (lined_emitBlock hr (fun hc => hbreak (mem_of_mem_cString hc)) hcsv x.2).line
  rw [hplain, text_emitBlocks hr hcsv xs fun x hx hc =>
    (hpaths _ (hname x hx)).1 (mem_of_mem_cString hc)]
  refine ⟨order, hsorted, humanRows_columns (detail_of_parseArgv hargv), ?_⟩
  rw [cutBlocks_joinBlocks (fun h => hne (List.map_eq_nil_iff.mp h)) hline, List.map_map,
    List.forall₂_map_left_iff, List.forall₂_same]
  exact fun x hx => ⟨rfl, blockShows_blockLines hr ft cli (hpaths _ (horder x hx)).2 _⟩

end Main

/-- One path with its table, a metric and a breakdown, written to a file. -/
theorem main_human_file :
    let cli : CliOpts := { table := true, metricsCsv := some "ipc", outputFile := some "out",
                           topdownOnly := true, paths := ["./a"] }
    let env : MainEnv :=
      { kernel := fun _ _ _ => .opened ⟨7, 1, 1⟩
        time := fun _ _ => 5
        td := fun _ => ⟨fun _ => .opened ⟨8, 1, 1⟩, .opened ⟨0, 0, 0⟩⟩
        husk := fun _ => [] }
    ∃ order, SortedByTime id id cli env order ∧ List.Forall₂ (fun block x =>
        block = blockLines decimalRendering id cli (runsOf id cli env x.1)
          (breakdown id cli env.td x.2) ∧
        BlockShows decimalRendering 1 1 block (resultOf id id cli env x.1))
      (cutBlocks '\n' (plainReport cli (text decimalRendering (mainStatic id id cli env))))
      order.zipIdx := by
  intro cli env
  have hargv : parseArgv ["bbench", "--table", "-M", "ipc", "--topdown", "-o", "out", "./a"] =
      .ok cli := by decide
  have hfit : AllCountsFit id cli env := by
    unfold AllCountsFit CountsFit
    decide +kernel
  obtain ⟨order, hsorted, -, hblocks⟩ := @main_human id id _ _ _ decimalRendering_decimal hargv
    rfl rfl (by decide) (by decide) env hfit fun h => absurd h (by decide)
  exact ⟨order, hsorted, hblocks⟩

end Bbench.Report
