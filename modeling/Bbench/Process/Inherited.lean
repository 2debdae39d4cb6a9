import Bbench.Process.Descriptors

/-! What the measured programs inherit. The ends of the sync pipe are close-on-exec, and
the counters are opened after the `fork` and closed before the next one. The output
file is opened before every `fork` and is not close-on-exec, so each measured program
can see it. -/

namespace Bbench.Process

open Perf Transition Descriptors Cli

section Runs
variable {fds : Finset ℕ} {s t : FdState} {l : FdLabel} {T : Table} {supported : Bool}
  {cli : CliOpts}

/-- The calls left to make are in order for what is held. -/
def InOrder (fds : Finset ℕ) (s : FdState) : Prop :=
  ∃ h : Holding, (h.run s.prog).isSome = true ∧ Holds fds h s

theorem InOrder.step (hs : InOrder fds s) (ht : fdStep s l = some t) : InOrder fds t := by
  obtain ⟨h, hrun, hholds⟩ := hs
  cases l with
  | call answer =>
    simp only [fdStep, Option.bind_eq_some_iff] at ht
    obtain ⟨c, hc, ht⟩ := ht
    obtain ⟨cs, hprog⟩ := List.head?_eq_some_iff.mp hc
    rw [hprog, Holding.run, Option.isSome_bind] at hrun
    obtain ⟨h', hafter⟩ : ∃ h', h.after c = some h' := by
      cases hafter : h.after c with
      | none => simp [hafter] at hrun
      | some h' => exact ⟨h', rfl⟩
    simp only [hafter, Option.any_some] at hrun
    obtain ⟨hkeeps, htail⟩ | ⟨h'', hkeeps, hnil⟩ := hholds.call hafter ht
    · exact ⟨h', by rwa [htail, hprog, List.tail_cons], hkeeps⟩
    · exact ⟨h'', by rw [hnil]; rfl, hkeeps⟩
  | stub ok =>
    obtain ⟨hkeeps, hprog⟩ := hholds.stub ht
    exact ⟨h, hprog ▸ hrun, hkeeps⟩
  | exit =>
    simp only [fdStep] at ht
    split at ht <;> cases ht
    · exact ⟨h, hrun, hholds.setChild (by simp [*]) (by simp)⟩
    · exact ⟨h, hrun, hholds.setChild (by simp [*]) (by simp)⟩

theorem run_perfOpens {h : Holding} (hr : h.readEnd = false) (n : ℕ) : ∃ counters,
    h.run (List.replicate n .perfOpen) = some { h with counters := counters } := by
  obtain ⟨readEnd, writeEnd, counters, begun⟩ := h
  obtain rfl : readEnd = false := hr
  induction n generalizing counters with
  | zero => exact ⟨counters, rfl⟩
  | succ n ih =>
    obtain ⟨counters', hrun⟩ := ih true
    exact ⟨counters', by simpa [List.replicate_succ, Holding.run, Holding.after] using hrun⟩

/-- One `process_attach`, and a wait after it. -/
theorem settles_measure {before after : List Op} {attrs : List PerfEventAttr}
    (hbefore : before.flatMap Op.fdCalls = []) (hafter : after.flatMap Op.fdCalls = [.waitpid]) :
    Settles (measureFdCalls (before ++ .processAttach attrs :: after)) := by
  intro begun
  obtain ⟨counters, hrun⟩ := run_perfOpens (h := { writeEnd := true, begun := true }) rfl
    attrs.length
  refine ⟨true, ?_⟩
  simp only [measureFdCalls, List.flatMap_append, List.flatMap_cons, hbefore, hafter, Op.fdCalls,
    List.nil_append, List.append_assoc, List.cons_append]
  simp [Holding.run, Holding.after, Holding.run_append, hrun]

theorem fdCalls_hookOps (cmd : Option String) : (hookOps cmd).flatMap Op.fdCalls = [] :=
  List.flatMap_eq_nil_iff.mpr fun op hop => by rw [mem_hookOps hop]; rfl

theorem fdCalls_delayOps (opts : BenchmarkOpts) : (delayOps opts).flatMap Op.fdCalls = [] :=
  List.flatMap_eq_nil_iff.mpr fun op hop => by rw [mem_delayOps hop]; rfl

theorem settles_measureOps (opts : BenchmarkOpts) (attrs : List PerfEventAttr) :
    Settles (measureFdCalls (measureOps opts attrs)) := by
  refine settles_measure (fdCalls_hookOps _) ?_
  simp [timedOps, finishOps, fdCalls_hookOps, fdCalls_delayOps, Op.fdCalls]

theorem settles_measureBinOps (supported : Bool) (opts : BenchmarkOpts) :
    Settles (measureFdCalls (measureBinOps supported opts)) := by
  unfold measureBinOps
  split
  · refine settles_measure (fdCalls_hookOps _) ?_
    simp [fdCalls_hookOps, Op.fdCalls]
  · exact fun begun => ⟨begun, rfl⟩

theorem holds_initial (fds : Finset ℕ) (prog : List FdCall) :
    Holds fds {} (fdInitial fds prog) where
  kept := (Finset.union_empty _).symm
  disjoint := Finset.disjoint_empty_right _
  counters _ := rfl
  readEnd := nofun
  writeEnd := nofun
  ends := nofun
  begun _ := ⟨rfl, rfl⟩
  fresh := nofun
  child := nofun

/-- The calls of `main` are in order, and leave nothing open but the output file. -/
theorem main_settles (supported : Bool) (cli : CliOpts) :
    ∃ begun, Holding.run {} (mainFdCalls supported cli) = some { begun := begun } := by
  have hruns (ops : List Op) (h : Settles (measureFdCalls ops)) :
      Settles (cli.paths.flatMap fun _ => (List.range cli.nRuns).flatMap fun _ =>
        measureFdCalls ops) :=
    .flatMap fun _ _ => .flatMap fun _ _ => h
  have hmeasures : ∃ calls, Settles calls ∧ mainFdCalls supported cli =
      (if cli.outputFile.isSome then [.output] else []) ++ calls := by
    refine ⟨_, ?_, rfl⟩
    split
    · exact hruns _ (settles_measureOps _ _)
    · refine (hruns _ (settles_measureOps _ _)).append ?_
      split
      · exact .append (fun begun => ⟨begun, rfl⟩)
          (.flatMap fun _ _ => settles_measureBinOps _ _)
      · exact .nil
  obtain ⟨calls, hcalls, heq⟩ := hmeasures
  rw [heq, Holding.run_append]
  split
  · obtain ⟨begun, hrun⟩ := hcalls true
    exact ⟨begun, by simp [Holding.run, Holding.after, hrun]⟩
  · obtain ⟨begun, hrun⟩ := hcalls false
    exact ⟨begun, by simp [Holding.run, hrun]⟩

theorem main_inOrder (fds : Finset ℕ) (supported : Bool) (cli : CliOpts) :
    InOrder fds (fdInitial fds (mainFdCalls supported cli)) := by
  obtain ⟨begun, hrun⟩ := main_settles supported cli
  exact ⟨{}, by rw [fdInitial, hrun]; rfl, holds_initial fds _⟩

theorem fdCall_output {answer : List ℕ} {c : FdCall} (hc : c ≠ .output)
    (ht : fdCall answer s c = some t) :
    t.output = s.output ∧ (t.prog = s.prog.tail ∨ t.prog = []) := by
  cases c <;> simp only [fdCall] at ht
  case output => exact absurd rfl hc
  case pipe2 =>
    split at ht
    · cases ht; exact ⟨rfl, .inr rfl⟩
    · obtain ⟨T, -, ht⟩ := Option.bind_eq_some_iff.mp ht
      obtain ⟨T', -, rfl⟩ := Option.map_eq_some_iff.mp ht
      exact ⟨rfl, .inl rfl⟩
    · cases ht
  case fork =>
    split at ht <;> cases ht
    · exact ⟨rfl, .inr rfl⟩
    · exact ⟨rfl, .inl rfl⟩
  case perfOpen =>
    split at ht
    · cases ht; exact ⟨rfl, .inl rfl⟩
    · obtain ⟨T, -, rfl⟩ := Option.map_eq_some_iff.mp ht
      exact ⟨rfl, .inl rfl⟩
    · cases ht
  case waitpid => split at ht <;> cases ht <;> exact ⟨rfl, .inl rfl⟩
  all_goals cases ht; exact ⟨rfl, .inl rfl⟩

/-- Without `-o`, no output file is ever opened. -/
theorem output_none_of_step (hs : .output ∉ s.prog ∧ s.output = none) (ht : fdStep s l = some t) :
    .output ∉ t.prog ∧ t.output = none := by
  obtain ⟨hprog, hout⟩ := hs
  cases l with
  | call answer =>
    simp only [fdStep, Option.bind_eq_some_iff] at ht
    obtain ⟨c, hc, ht⟩ := ht
    have hne : c ≠ .output := fun h => hprog (List.mem_of_mem_head? (h ▸ hc))
    obtain ⟨houtput, htail | hnil⟩ := fdCall_output hne ht
    · exact ⟨fun hmem => hprog (List.mem_of_mem_tail (htail ▸ hmem)), houtput.trans hout⟩
    · exact ⟨by simp [hnil], houtput.trans hout⟩
  | stub ok =>
    have hkeeps : t.prog = s.prog ∧ t.output = s.output := by
      simp only [fdStep, fdStub] at ht
      split at ht
      case h_2 => split at ht <;> cases ht; exact ⟨rfl, rfl⟩
      case h_6 => cases ht
      all_goals cases ht; exact ⟨rfl, rfl⟩
    exact ⟨hkeeps.1 ▸ hprog, hkeeps.2.trans hout⟩
  | exit =>
    simp only [fdStep] at ht
    split at ht <;> cases ht
    · exact ⟨hprog, hout⟩
    · exact ⟨hprog, hout⟩

theorem output_notMem_measure (ops : List Op) : .output ∉ measureFdCalls ops := by
  have hop (op : Op) : .output ∉ op.fdCalls := by
    cases op <;> simp [Op.fdCalls]
  simp [measureFdCalls, hop]

theorem output_notMem_main (supported : Bool) (hfile : cli.outputFile = none) :
    .output ∉ mainFdCalls supported cli := by
  unfold mainFdCalls
  simp only [hfile, Option.isSome_none, Bool.false_eq_true, if_false, List.nil_append]
  split
  · simp [output_notMem_measure]
  · split <;> simp [output_notMem_measure]

/-- What the measured programs inherit. For every command line, at every `execve` that an
execution of `main` reaches, the surviving descriptors are the ones `bbench` was started
with exactly when there is no `-o`, or its file could not be opened. -/
theorem survivors_iff (fds : Finset ℕ) (supported : Bool) (cli : CliOpts) (s : FdState) (T : Table)
    (h : Reachable fdStep (fdInitial fds (mainFdCalls supported cli)) s) (hexec : AtExecve s T) :
    T.survivors = fds ↔ cli.outputFile = none ∨ s.output = none := by
  obtain ⟨held, -, hholds⟩ : InOrder fds s :=
    h.invariant (fun _ _ _ hs h => hs.step h) (main_inOrder fds supported cli)
  have hnone (hfile : cli.outputFile = none) : s.output = none := by
    exact (h.invariant (I := fun s => .output ∉ s.prog ∧ s.output = none)
      (fun _ _ _ hs h => output_none_of_step hs h) ⟨output_notMem_main supported hfile, rfl⟩).2
  obtain ⟨todo, pipe, hchild⟩ := hexec
  rw [Table.survivors_eq, (hholds.child _ _ _ hchild).1]
  cases hout : s.output with
  | none => simp [visible]
  | some fd =>
    have hfresh := hholds.fresh fd hout
    have hfile : cli.outputFile ≠ none := fun hfile => by
      rw [hnone hfile] at hout
      cases hout
    have hne : insert fd fds ≠ fds := fun heq => hfresh (heq ▸ Finset.mem_insert_self _ _)
    simp [visible, hne, hfile]

end Runs

/-- `bbench -e cycles ./a`, and the same with `-o out`. -/
def plainRun : CliOpts := { benchOpts := { eventCsv := some "cycles" }, paths := ["./a"] }
def outputRun : CliOpts := { plainRun with outputFile := some "out" }

/-- Up to the `execve`, the pipe having the ends `r` and `w`. -/
def untilExecve (r w : ℕ) : List FdLabel :=
  [.call [r, w], .call [100], .stub true, .call [], .call [r], .call [], .stub true, .stub true]

/-- The standard descriptors, and nothing else. -/
theorem survivors_plain : ∃ s T,
    Reachable fdStep (fdInitial {0, 1, 2} (mainFdCalls false plainRun)) s ∧
      AtExecve s T ∧ T.survivors = {0, 1, 2} := by
  have hrun : (run fdStep (fdInitial {0, 1, 2} (mainFdCalls false plainRun)) (untilExecve 3 4)).map
      FdState.child = some (.stub [.execve, .exit127] (3, 4) (.started {0, 1, 2})) := by
    decide +kernel
  obtain ⟨s, hs, hchild⟩ := Option.map_eq_some_iff.mp hrun
  exact ⟨s, _, ⟨_, hs⟩, ⟨_, _, hchild⟩,
    (survivors_iff _ _ _ s _ ⟨_, hs⟩ ⟨_, _, hchild⟩).mpr (.inl rfl)⟩

/-- With `-o`, the measured program has the output file open. -/
theorem not_survivors : ¬ ∀ argv cli, parseArgv argv = .ok cli → ∀ fds supported s T,
    Reachable fdStep (fdInitial fds (mainFdCalls supported cli)) s → AtExecve s T →
    T.survivors = fds := by
  intro h
  have hargv : parseArgv ["bbench", "-e", "cycles", "-o", "out", "./a"] = .ok outputRun := by
    decide
  have hrun : (run fdStep (fdInitial {0, 1, 2} (mainFdCalls false outputRun))
      (.call [3] :: untilExecve 4 5)).map FdState.child =
      some (.stub [.execve, .exit127] (4, 5) (.started {3, 0, 1, 2})) := by
    decide +kernel
  obtain ⟨s, hs, hchild⟩ := Option.map_eq_some_iff.mp hrun
  exact absurd (h _ _ hargv {0, 1, 2} false s _ ⟨_, hs⟩ ⟨_, _, hchild⟩) (by decide)

end Bbench.Process
