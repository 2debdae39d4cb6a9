import Bbench.Cli.Accepted
import Bbench.Process.Completion
import Bbench.Process.Frame

/-! `main`, once the command line is accepted: the calls it makes for its paths and
runs, which counters it opens while it executes them, and which of its waits can
block. Both questions are about every call of every reachable state, so they come
down to the calls in the program; the calls that answer them badly are reached by
completing everything before them. -/

namespace Bbench.Process

open Perf Transition Cli LastWrite

variable {U : Type*} {sees : ℕ → U → Bool} {s t : State U} {ok : Bool} {l : Label U}
  {supported : Bool} {cli : CliOpts}

/-- The counters of one run: the `-e` group, or the group of the detail level. -/
def runAttrs (cli : CliOpts) : List PerfEventAttr :=
  match cli.benchOpts.eventCsv with
  | some csv => dynamicGroup cli.benchOpts (parseEventList csv []).2
  | none => staticAttrs cli.benchOpts

/-- `main` reaches `measure_bin`, and the processor supports its counters. -/
def TopdownMeasured (supported : Bool) (cli : CliOpts) : Prop :=
  cli.benchOpts.eventCsv = none ∧ cli.csvSep = Char.ofNat 0 ∧ cli.topdownOnly = true ∧
    supported = true

instance : Decidable (TopdownMeasured supported cli) :=
  inferInstanceAs (Decidable (_ ∧ _ ∧ _ ∧ _))

/-- The calls of `main`. The results are sorted before the top-down measurements,
which make the same calls in any order. -/
def mainOps (supported : Bool) (cli : CliOpts) : List Op :=
  match cli.benchOpts.eventCsv with
  | some csv =>
    cli.paths.flatMap fun _ => (List.range cli.nRuns).flatMap fun _ =>
      benchmarkBinDynamicOps (parseEventList csv []).2 cli.benchOpts
  | none =>
    (cli.paths.flatMap fun _ => (List.range cli.nRuns).flatMap fun _ =>
      benchmarkBinOps cli.benchOpts) ++
    if cli.csvSep = Char.ofNat 0 ∧ cli.topdownOnly = true then
      cli.paths.flatMap fun _ => measureBinOps supported cli.benchOpts
    else []

/-- All runs of all paths. -/
def runsOps (cli : CliOpts) : List Op :=
  cli.paths.flatMap fun _ => (List.range cli.nRuns).flatMap fun _ =>
    measureOps cli.benchOpts (runAttrs cli)

/-- All top-down measurements. -/
def topdownOps (supported : Bool) (cli : CliOpts) : List Op :=
  if TopdownMeasured supported cli then
    cli.paths.flatMap fun _ => measureBinOps true cli.benchOpts
  else []

theorem mainOps_eq (supported : Bool) (cli : CliOpts) :
    mainOps supported cli = runsOps cli ++ topdownOps supported cli := by
  unfold mainOps runsOps topdownOps runAttrs
  cases hcsv : cli.benchOpts.eventCsv with
  | some csv => simp [TopdownMeasured, hcsv, benchmarkBinDynamicOps]
  | none =>
    cases supported <;>
      simp [TopdownMeasured, hcsv, benchmarkBinOps, measureBinOps]

/-- Each call of `main` belongs to a run or to a top-down measurement. -/
theorem mem_mainOps {op : Op} (h : op ∈ mainOps supported cli) :
    op ∈ measureOps cli.benchOpts (runAttrs cli) ∨
      TopdownMeasured supported cli ∧ op ∈ measureBinOps true cli.benchOpts := by
  rw [mainOps_eq, List.mem_append] at h
  rcases h with h | h
  · simp only [runsOps, List.mem_flatMap] at h
    obtain ⟨_, _, _, _, hop⟩ := h
    exact .inl hop
  · unfold topdownOps at h
    split at h
    · rename_i htopdown
      obtain ⟨_, _, hop⟩ := List.mem_flatMap.mp h
      exact .inr ⟨htopdown, hop⟩
    · cases h

/-- What is left to do is the end of the program. -/
theorem main_prog {clock : Clock}
    (h : Reachable (step sees) (initial (mainOps supported cli) clock) s) :
    s.prog <:+ mainOps supported cli :=
  h.invariant (I := fun s => s.prog <:+ mainOps supported cli)
    (fun _ _ _ hs h => (step_prog h).trans hs) List.suffix_rfl

theorem flatMap_eq_append {α β : Type*} {l : List α} (hl : l ≠ []) (ops : List β) :
    ∃ more, (l.flatMap fun _ => ops) = ops ++ more := by
  cases l with
  | nil => exact absurd rfl hl
  | cons a l => exact ⟨_, List.flatMap_cons⟩

/-- The first run comes first. -/
theorem mainOps_eq_measure (supported : Bool) (hpaths : cli.paths ≠ []) (hruns : 1 ≤ cli.nRuns) :
    ∃ more, mainOps supported cli = measureOps cli.benchOpts (runAttrs cli) ++ more := by
  have hrange : List.range cli.nRuns ≠ [] := by
    rw [Ne, List.range_eq_nil]
    omega
  obtain ⟨runs, hruns⟩ := flatMap_eq_append hrange (measureOps cli.benchOpts (runAttrs cli))
  obtain ⟨more, hmore⟩ := flatMap_eq_append hpaths
    ((List.range cli.nRuns).flatMap fun _ => measureOps cli.benchOpts (runAttrs cli))
  refine ⟨runs ++ (more ++ topdownOps supported cli), ?_⟩
  rw [mainOps_eq, runsOps, hmore, hruns]
  simp only [List.append_assoc]

/-- The first top-down measurement follows the runs. -/
theorem mainOps_eq_topdown (hpaths : cli.paths ≠ []) (h : TopdownMeasured supported cli) :
    ∃ more, mainOps supported cli = runsOps cli ++ (measureBinOps true cli.benchOpts ++ more) := by
  obtain ⟨more, hmore⟩ := flatMap_eq_append hpaths (measureBinOps true cli.benchOpts)
  exact ⟨more, by rw [mainOps_eq, topdownOps, if_pos h, hmore]⟩

theorem can_runs : Can sees Any (runsOps cli) Any :=
  .flatMap fun _ _ => .flatMap fun _ _ => can_measure _ _

/-- A run of `main` gets to the call after `ops`. -/
theorem main_reaches (sees : ℕ → U → Bool) (clock : Clock) {ops rest : List Op}
    {Q : State U → Prop} (hops : mainOps supported cli = ops ++ rest) (hcan : Can sees Any ops Q) :
    ∃ s, Reachable (step sees) (initial (mainOps supported cli) clock) s ∧ Ready rest Q s :=
  hcan rest _ ⟨hops, rfl, trivial⟩

end Bbench.Process
