import Bbench.Process.Main
import Bbench.Process.Record

/-! What becomes of a program that cannot be started. `process` raises, and no result
is returned. `process_attach` forks first: a failed `execve` ends the child with the
status 127, which no wait looks at, so the measurement returns a result, and `main`
prints an entry, for a program that never ran. -/

namespace Bbench.Process

open Perf Transition Cli

variable {U : Type*} {sees : ℕ → U → Bool} {s t : State U} {ok : Bool} {l : Label U}
  {opts : BenchmarkOpts} {supported : Bool} {cli : CliOpts}

/-! ### `process` -/

/-- The step is no `process` whose program cannot be started. -/
def Started (s : State U) : Label U → Prop
  | .parent ok => s.prog.head? = some .spawn ∨ s.prog.head? = some .runToEnd → ok = true
  | _ => True

theorem started_of_not_raised (h : step sees s l = some t) (ht : t.raised = false) :
    s.raised = false ∧ Started s l := by
  obtain ⟨ok, rfl, hcall⟩ | hacts := step_cases h
  · refine ⟨?_, fun hhead => ?_⟩
    · obtain ⟨-, -, hr⟩ | ⟨-, -, -, hr⟩ | ⟨-, -, -, hr⟩ := parentStep_outcome hcall
      · exact hr.symm.trans ht
      · exact hr.symm.trans ht
      · rw [ht] at hr
        cases hr
    · cases ok with
      | true => rfl
      | false =>
        rcases hhead with hhead | hhead <;>
          obtain ⟨rest, hprog⟩ := List.head?_eq_some_iff.mp hhead <;>
          simp only [parentStep, hprog] at hcall <;> cases hcall <;> cases ht
  · refine ⟨hacts.background.raised.symm.trans ht, ?_⟩
    cases hacts <;> trivial

/-! ### The programs -/

theorem alternates_hookOps (cmd : Option String) : Alternates (hookOps cmd) :=
  .of_not_attach fun op hop => by rw [mem_hookOps hop]; exact ⟨Op.noConfusion, rfl⟩

theorem alternates_delayOps : Alternates (delayOps opts) :=
  .of_not_attach fun op hop => by rw [mem_delayOps hop]; exact ⟨Op.noConfusion, rfl⟩

theorem alternates_measureOps (opts : BenchmarkOpts) (attrs : List PerfEventAttr) :
    Alternates (measureOps opts attrs) := by
  have hwaited : Waited (timedOps opts attrs.length) :=
    .append_left (fun op hop => by rw [mem_delayOps hop]; rfl) (.inr ⟨rfl, .inl rfl⟩)
  have htimed : Alternates (timedOps opts attrs.length) :=
    alternates_delayOps.append ⟨Op.noConfusion, nofun, Op.noConfusion, nofun, Op.noConfusion, nofun,
      Op.noConfusion, nofun, alternates_hookOps _⟩
  exact (alternates_hookOps _).append ⟨Op.noConfusion, fun _ => hwaited, htimed⟩

theorem alternates_measureBinOps (supported : Bool) (opts : BenchmarkOpts) :
    Alternates (measureBinOps supported opts) := by
  unfold measureBinOps
  split
  · exact (alternates_hookOps _).append ⟨Op.noConfusion, fun _ => .inl rfl, Op.noConfusion, nofun,
      Op.noConfusion, nofun, alternates_hookOps _⟩
  · trivial

theorem alternates_mainOps (supported : Bool) (cli : CliOpts) :
    Alternates (mainOps supported cli) := by
  rw [mainOps_eq]
  refine .append (.flatMap fun _ _ => .flatMap fun _ _ => alternates_measureOps _ _) ?_
  unfold topdownOps
  split
  · exact .flatMap fun _ _ => alternates_measureBinOps _ _
  · trivial

theorem countP_hookOps (cmd : Option String) : (hookOps cmd).countP Op.isAttach = 0 :=
  List.countP_eq_zero.mpr fun op hop => by rw [mem_hookOps hop]; exact Bool.noConfusion

theorem countP_measureOps (opts : BenchmarkOpts) (attrs : List PerfEventAttr) :
    (measureOps opts attrs).countP Op.isAttach = 1 := by
  have hdelay : (delayOps opts).countP Op.isAttach = 0 :=
    List.countP_eq_zero.mpr fun op hop => by rw [mem_delayOps hop]; exact Bool.noConfusion
  simp [measureOps, timedOps, finishOps, countP_hookOps, hdelay, List.countP_cons, Op.isAttach]

theorem countP_measureBinOps (opts : BenchmarkOpts) :
    (measureBinOps true opts).countP Op.isAttach = 1 := by
  simp [measureBinOps, countP_hookOps, List.countP_cons, Op.isAttach]

theorem countP_runsOps (cli : CliOpts) :
    (runsOps cli).countP Op.isAttach = cli.paths.length * cli.nRuns := by
  simp [runsOps, List.countP_flatMap, countP_measureOps, Function.comp_def]

/-- The measuring functions that start their program through `process_attach`. -/
inductive AttachedOps (opts : BenchmarkOpts) : List Op → Prop
  | benchmarkBin : AttachedOps opts (benchmarkBinOps opts)
  | benchmarkBinDynamic (defs : List EventDef) : AttachedOps opts (benchmarkBinDynamicOps defs opts)
  | measureBin : AttachedOps opts (measureBinOps true opts)

theorem AttachedOps.alternates {prog : List Op} (h : AttachedOps opts prog) :
    Alternates prog ∧ prog.countP Op.isAttach = 1 := by
  cases h with
  | benchmarkBin => exact ⟨alternates_measureOps _ _, countP_measureOps _ _⟩
  | benchmarkBinDynamic defs => exact ⟨alternates_measureOps _ _, countP_measureOps _ _⟩
  | measureBin => exact ⟨alternates_measureBinOps _ _, countP_measureBinOps _⟩

/-! ### The entries of `main` -/

/-- What `main` prints about a path, by the launches behind it. -/
structure PathEntry where
  path : String
  launches : List Bool
  deriving DecidableEq, Repr

/-- The program was executed on every run. -/
def PathEntry.Executed (e : PathEntry) : Prop := ∀ b ∈ e.launches, b = true

/-- The entries of an execution that returns, each with the launches of its runs. -/
def mainEntries (cli : CliOpts) (launches : List Bool) : List PathEntry :=
  cli.paths.mapIdx fun p path => ⟨path, (launches.reverse.drop (p * cli.nRuns)).take cli.nRuns⟩

/-- The launches of the top-down measurements, which follow the runs. -/
def topdownLaunches (cli : CliOpts) (launches : List Bool) : List Bool :=
  launches.reverse.drop (cli.paths.length * cli.nRuns)

/-- A list in `m` blocks of length `n` and what follows them. -/
theorem forall_mem_blocks {α : Type*} (q : α → Prop) (n m : ℕ) (as : List α) :
    ((∀ p < m, ∀ a ∈ (as.drop (p * n)).take n, q a) ∧ ∀ a ∈ as.drop (m * n), q a) ↔
      ∀ a ∈ as, q a := by
  induction m with
  | zero => simp
  | succ m ih =>
    have hsplit : as.drop (m * n) = (as.drop (m * n)).take n ++ as.drop ((m + 1) * n) := by
      rw [Nat.succ_mul, ← List.drop_drop, List.take_append_drop]
    rw [← ih, Nat.forall_lt_succ_right, and_assoc]
    refine and_congr_right fun _ => ?_
    rw [← List.forall_mem_append, ← hsplit]

theorem forall_mem_mainEntries {q : PathEntry → Prop} {launches : List Bool} :
    (∀ e ∈ mainEntries cli launches, q e) ↔ ∀ p (hp : p < cli.paths.length),
      q ⟨cli.paths[p], (launches.reverse.drop (p * cli.nRuns)).take cli.nRuns⟩ := by
  simp only [mainEntries, List.mem_mapIdx]
  constructor
  · exact fun h p hp => h _ ⟨p, hp, rfl⟩
  · rintro h e ⟨p, hp, rfl⟩
    exact h p hp

theorem executed_mainEntries (cli : CliOpts) (launches : List Bool) :
    ((∀ e ∈ mainEntries cli launches, e.Executed) ∧
      ∀ b ∈ topdownLaunches cli launches, b = true) ↔ ∀ b ∈ launches, b = true := by
  have hblocks := forall_mem_blocks (· = true) cli.nRuns cli.paths.length launches.reverse
  simp only [List.mem_reverse] at hblocks
  rw [forall_mem_mainEntries, ← hblocks]
  rfl

theorem length_mainEntries {launches : List Bool}
    (h : cli.paths.length * cli.nRuns ≤ launches.length) :
    ∀ e ∈ mainEntries cli launches, e.launches.length = cli.nRuns := by
  refine forall_mem_mainEntries.mpr fun p hp => ?_
  have hblock : (p + 1) * cli.nRuns ≤ cli.paths.length * cli.nRuns := Nat.mul_le_mul_right _ hp
  rw [Nat.succ_mul] at hblock
  rw [List.length_take, List.length_drop, List.length_reverse]
  omega

/-- How launch failures are reported. No execution with a `process` that could not start
its program ends without an exception. A measurement through `process_attach` returns a
result for a program that was executed, and `main` prints entries only for paths whose
program was executed on every run, exactly when no `execve` fails and no child ends before
its `execve`; in every execution that decides which launches have come to nothing. -/
theorem launch_reported_iff (sees : ℕ → U → Bool) :
    (∀ prog clock ls t, run (step sees) (initial prog clock) ls = some t → t.raised = false →
      Along (step sees) Started (initial prog clock) ls) ∧
    (∀ opts prog, AttachedOps opts prog → ∀ clock ls r,
      run (launchStep sees) (recorded prog clock) ls = some r → r.Returned →
      (r.launches = [true] ↔ Along (launchStep sees) Executes (recorded prog clock) ls)) ∧
    (∀ supported cli clock ls r,
      run (launchStep sees) (recorded (mainOps supported cli) clock) ls = some r →
      (r.Honest ↔ Along (launchStep sees) Executes (recorded (mainOps supported cli) clock) ls) ∧
      (r.Returned → (∀ e ∈ mainEntries cli r.launches, e.launches.length = cli.nRuns) ∧
        (((∀ e ∈ mainEntries cli r.launches, e.Executed) ∧
            ∀ b ∈ topdownLaunches cli r.launches, b = true) ↔
          Along (launchStep sees) Executes (recorded (mainOps supported cli) clock) ls))) := by
  refine ⟨fun prog clock ls t h ht => ?_, fun opts prog hprog clock ls r h hr => ?_,
    fun supported cli clock ls r h => ?_⟩
  · exact (along_of_run (Q := fun s => s.raised = false)
      (fun _ _ _ h ht => started_of_not_raised h ht) h ht).2
  · obtain ⟨hlength, hiff⟩ := launches_iff hprog.alternates.1 h hr
    rw [hprog.alternates.2] at hlength
    obtain ⟨b, hb⟩ := List.length_eq_one_iff.mp hlength
    rw [← hiff, hb]
    simp
  · refine ⟨(honest_iff (alternates_mainOps supported cli) h).2, fun hr => ?_⟩
    obtain ⟨hlength, hiff⟩ := launches_iff (alternates_mainOps supported cli) h hr
    refine ⟨length_mainEntries ?_, (executed_mainEntries cli r.launches).trans hiff⟩
    rw [hlength, mainOps_eq, List.countP_append, countP_runsOps]
    exact Nat.le_add_right _ _

/-- `bbench -e cycles ./a`. -/
def oneRun : CliOpts := { benchOpts := { eventCsv := some "cycles" }, paths := ["./a"] }

/-- The child gets the byte, calls `execve`, and ends. -/
def launchRun (ok : Bool) : List (Label ℕ) :=
  List.replicate 6 (.parent true) ++ List.replicate 3 (.stub true) ++ [.stub ok] ++
    [if ok then .exit else .stub true] ++ List.replicate 6 (.parent true)

theorem launchRun_returns (ok : Bool) : ∃ r : Recorded ℕ,
    run (launchStep fun _ _ => true) (recorded (mainOps false oneRun) ⟨0, by decide⟩)
      (launchRun ok) = some r ∧ r.Returned ∧ r.launches = [ok] := by
  have hrun : (run (launchStep fun _ _ => true) (recorded (mainOps false oneRun) ⟨0, by decide⟩)
      (launchRun ok)).map (fun r => (r.state.prog, r.state.raised, r.launches)) =
      some ([], false, [ok]) := by
    cases ok <;> decide +kernel
  obtain ⟨r, hr, heq⟩ := Option.map_eq_some_iff.mp hrun
  simp only [Prod.mk.injEq] at heq
  exact ⟨r, hr, ⟨heq.1, heq.2.1⟩, heq.2.2⟩

/-- The program is started, and its entry is about it. -/
theorem launch_reported_executed : ∃ r : Recorded ℕ,
    run (launchStep fun _ _ => true) (recorded (mainOps false oneRun) ⟨0, by decide⟩)
      (launchRun true) = some r ∧ ∀ e ∈ mainEntries oneRun r.launches, e.Executed := by
  obtain ⟨r, hr, hreturned, -⟩ := launchRun_returns true
  have hentries := ((launch_reported_iff fun _ (_ : ℕ) => true).2.2 _ _ _ _ r hr).2 hreturned
  exact ⟨r, hr, (hentries.2.mpr (by decide +kernel)).1⟩

/-- A mistyped path: `execve` fails, and `main` prints an entry nevertheless. -/
theorem not_launch_reported : ¬ ∀ argv cli, parseArgv argv = .ok cli →
    ∀ (sees : ℕ → ℕ → Bool) supported clock ls r,
      run (launchStep sees) (recorded (mainOps supported cli) clock) ls = some r → r.Returned →
      ∀ e ∈ mainEntries cli r.launches, e.Executed := by
  intro h
  have hargv : parseArgv ["bbench", "-e", "cycles", "./a"] = .ok oneRun := by decide
  obtain ⟨r, hr, hreturned, hlaunches⟩ := launchRun_returns false
  have hentries := h _ _ hargv _ _ _ _ r hr hreturned ⟨"./a", [false]⟩
    (by rw [hlaunches]; decide)
  exact absurd (hentries false (by simp)) (by decide)

end Bbench.Process
