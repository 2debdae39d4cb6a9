import Bbench.Process.Main

/-! Which waits of `main` can block on a child that has not been killed. A blocking
`waitpid` is made by `measure_bin`, by `__wait_with_timeout` without a timeout, and
by it after SIGKILL. The timeout is stored in 32 bits, so it is lost exactly when
its low 32 bits are zero. -/

namespace Bbench.Process

open Perf Transition Cli LastWrite

variable {U : Type*} {sees : ℕ → U → Bool} {s t : State U} {ok : Bool} {l : Label U}
  {supported : Bool} {cli : CliOpts}

/-- The places where `waitpid` blocks. -/
def Ctrl.Blocks (c : Ctrl) : Prop := c = .blocked ∨ c = .final

/-- The parent is in a `waitpid` without a limit, for a measured child. -/
def BlockingWait (s : State U) : Prop :=
  s.prog.head? = some .waitpid ∨ s.ctrl.Blocks

def Killed (s : State U) : Prop := .kill .kill9 ∈ s.log

/-! ### Without top-down measurements and with a timeout -/

theorem loop_not_blocks (s : State U) (n i : ℕ) {body : Ctrl} (hbody : ¬ body.Blocks) :
    ¬ (s.loop n i body).ctrl.Blocks := by
  rcases loop_cases s n i body with heq | heq <;> rw [heq]
  · exact hbody
  · simp [State.ret, Ctrl.Blocks]

theorem attachStep_not_blocks {attrs : List PerfEventAttr} (h : attachStep ok attrs s = some t) :
    ¬ t.ctrl.Blocks := by
  have hmember (n i : ℕ) : ¬ (atMember n i (.attach i) .write).Blocks := by
    unfold atMember
    split <;> simp [Ctrl.Blocks]
  cases attachStep_cases h with
  | closesRead _ eq | opens _ _ _ _ eq => subst eq; exact hmember _ _
  | pipes _ _ eq | forks _ _ eq | raises _ _ _ eq | writes _ eq | returns _ eq =>
    subst eq
    simp [State.goto, State.raise, State.ret, Ctrl.Blocks]

theorem waitpidStep_not_blocks (h : waitpidStep s = some t) : ¬ t.ctrl.Blocks := by
  obtain ⟨-, rfl⟩ | ⟨-, rfl⟩ := waitpidStep_cases h <;> simp [State.ret, Ctrl.Blocks]

/-- `__wait_with_timeout` blocks without a timeout, or after SIGKILL. -/
theorem waitStep_blocks {timeoutMs : UInt32} (h : waitStep ok timeoutMs s = some t)
    (ht : t.ctrl.Blocks) : t.ctrl = .blocked ∧ timeoutMs = 0 ∨ t.ctrl = .final ∧ Killed t := by
  cases waitStep_cases h with
  | blocks _ forever eq => subst eq; exact .inl ⟨rfl, forever⟩
  | waits _ call => exact absurd ht (waitpidStep_not_blocks call)
  | kills _ eq => subst eq; exact .inr ⟨rfl, by simp [Killed, State.goto, State.note]⟩
  | begins _ _ eq | polls _ _ eq | reaps _ _ eq | expires _ _ _ eq | naps _ _ _ eq
  | wakes _ _ _ _ eq | terminates _ eq | grants _ eq | graceLeft _ _ _ eq | graceOver _ _ _ eq
  | gracePolls _ _ eq | graceWakes _ _ _ _ eq =>
    subst eq
    simp [State.goto, State.note, State.ret, Ctrl.Blocks] at ht

/-- No other call blocks from within. -/
theorem parentStep_blocks (h : parentStep ok s = some t) (ht : t.ctrl.Blocks) :
    ∃ timeoutMs rest, s.prog = .waitWithTimeout timeoutMs :: rest ∧
      (t.ctrl = .blocked ∧ timeoutMs = 0 ∨ t.ctrl = .final ∧ Killed t) := by
  have hidle (hc : t.ctrl = .idle) : False := by simp [hc, Ctrl.Blocks] at ht
  unfold parentStep at h
  split at h
  case h_1 => cases h
  case h_2 => split at h <;> cases h <;> exact (hidle rfl).elim
  case h_3 => exact absurd ht (attachStep_not_blocks h)
  case h_4 => split at h <;> cases h <;> exact (hidle rfl).elim
  case h_5 =>
    obtain rfl | ⟨i, attr, rfl⟩ := reopenStep_cases h
    · exact absurd ht (loop_not_blocks _ _ _ (by simp [Ctrl.Blocks]))
    · exact absurd ht (loop_not_blocks _ _ _ (by simp [Ctrl.Blocks]))
  case h_6 =>
    obtain ⟨-, rfl⟩ | ⟨i, -, rfl⟩ | ⟨i, -, rfl⟩ := startStep_cases h
    · exact absurd ht (loop_not_blocks _ _ _ (by simp [Ctrl.Blocks]))
    · simp [State.goto, Ctrl.Blocks] at ht
    · exact absurd ht (loop_not_blocks _ _ _ (by simp [Ctrl.Blocks]))
  case h_7 =>
    obtain rfl | ⟨i, rfl⟩ := stopStep_cases h
    · exact absurd ht (loop_not_blocks _ _ _ (by simp [Ctrl.Blocks]))
    · exact absurd ht (loop_not_blocks _ _ _ (by simp [Ctrl.Blocks]))
  case h_8 =>
    obtain rfl | ⟨-, rfl⟩ := sleepStep_cases h
    · exact (hidle rfl).elim
    · simp [State.goto, Ctrl.Blocks] at ht
  case h_9 => cases h; exact (hidle rfl).elim
  case h_10 => cases h; exact (hidle rfl).elim
  case h_11 => exact absurd ht (waitpidStep_not_blocks h)
  case h_12 timeoutMs rest hprog => exact ⟨timeoutMs, rest, hprog, waitStep_blocks h ht⟩

/-- What the calls left to make rule out. -/
structure Limited (s : State U) : Prop where
  calls : ∀ op ∈ s.prog, op ≠ .waitpid ∧
    ∀ timeoutMs, op = .waitWithTimeout timeoutMs → timeoutMs ≠ 0
  blocked : s.ctrl ≠ .blocked
  final : s.ctrl = .final → Killed s

theorem Limited.step (hs : Limited s) (h : step sees s l = some t) : Limited t := by
  have hcalls : ∀ op ∈ t.prog, op ≠ .waitpid ∧
      ∀ timeoutMs, op = .waitWithTimeout timeoutMs → timeoutMs ≠ 0 :=
    fun op hop => hs.calls op ((step_prog h).subset hop)
  obtain ⟨ok, -, h⟩ | h := step_cases h
  · refine ⟨hcalls, fun hblocked => ?_, fun hfinal => ?_⟩
    · obtain ⟨timeoutMs, rest, hprog, ⟨-, hzero⟩ | ⟨hfinal, -⟩⟩ :=
        parentStep_blocks h (.inl hblocked)
      · exact (hs.calls _ (by simp [hprog])).2 _ rfl hzero
      · rw [hblocked] at hfinal
        cases hfinal
    · obtain ⟨timeoutMs, rest, -, ⟨hblocked, -⟩ | ⟨-, hkilled⟩⟩ :=
        parentStep_blocks h (.inr hfinal)
      · rw [hfinal] at hblocked
        cases hblocked
      · exact hkilled
  · have hb := h.background
    refine ⟨hcalls, ?_, ?_⟩
    · rw [hb.ctrl]
      exact hs.blocked
    · rw [hb.ctrl, Killed, hb.log]
      exact hs.final

theorem Limited.killed (hs : Limited s) (hwait : BlockingWait s) : Killed s := by
  obtain hhead | hblocked | hfinal := hwait
  · obtain ⟨rest, hprog⟩ := List.head?_eq_some_iff.mp hhead
    exact absurd rfl (hs.calls .waitpid (by simp [hprog])).1
  · exact absurd hblocked hs.blocked
  · exact hs.final hfinal

theorem main_limited (htimeout : cli.benchOpts.timeoutMs ≠ 0)
    (htopdown : ¬ TopdownMeasured supported cli) (clock : Clock) :
    Limited (initial (mainOps supported cli) clock : State U) where
  calls op hop := by
    obtain hop | ⟨hmeasured, -⟩ := mem_mainOps hop
    · obtain ⟨hwaitpid, hwait, -⟩ := mem_measureOps hop
      exact ⟨hwaitpid, fun timeoutMs he hzero => htimeout (hwait timeoutMs he ▸ hzero)⟩
    · exact absurd hmeasured htopdown
  blocked := by simp [initial]
  final := by simp [initial]

/-! ### The two ways to block -/

/-- Without a timeout the wait of the first run blocks. -/
theorem main_blocks_of_zero (sees : ℕ → U → Bool) (supported : Bool) (hpaths : cli.paths ≠ [])
    (hruns : 1 ≤ cli.nRuns) (htimeout : cli.benchOpts.timeoutMs = 0) (clock : Clock) :
    ∃ s : State U, Reachable (step sees) (initial (mainOps supported cli) clock) s ∧
      BlockingWait s ∧ s.child = .program ∧ ¬ Killed s := by
  obtain ⟨more, hmore⟩ := mainOps_eq_measure supported hpaths hruns
  have hops : mainOps supported cli =
      (hookOps cli.benchOpts.pre ++ .processAttach (runAttrs cli) ::
        (delayOps cli.benchOpts ++ [.clockBegin])) ++
      .waitWithTimeout 0 :: (finishOps cli.benchOpts (runAttrs cli).length ++ more) := by
    simp [hmore, measureOps, timedOps, htimeout]
  obtain ⟨s, hs, hprog, hctrl, hchild, hlog⟩ := main_reaches sees clock hops
    (can_launch cli.benchOpts (runAttrs cli))
  have hstep : step sees s (.parent true) = some (s.goto .blocked) := by
    simp [step, parentStep, hprog, waitStep, hctrl]
  exact ⟨s.goto .blocked, hs.trans (.of_step _ hstep), .inr (.inl rfl), hchild,
    by simp [Killed, State.goto, hlog]⟩

/-- The wait of a top-down measurement blocks, whatever the timeout. -/
theorem main_blocks_of_topdown (sees : ℕ → U → Bool) (hpaths : cli.paths ≠ [])
    (htopdown : TopdownMeasured supported cli) (clock : Clock) :
    ∃ s : State U, Reachable (step sees) (initial (mainOps supported cli) clock) s ∧
      BlockingWait s ∧ s.child = .program ∧ ¬ Killed s := by
  obtain ⟨more, hmore⟩ := mainOps_eq_topdown hpaths htopdown
  have hops : mainOps supported cli =
      (runsOps cli ++ (hookOps cli.benchOpts.pre ++
        [.processAttach (Topdown.group cli.benchOpts)])) ++
      .waitpid :: .stop 5 :: (hookOps cli.benchOpts.post ++ more) := by
    simp [hmore, measureBinOps]
  obtain ⟨s, hs, hprog, -, hchild, hlog⟩ := main_reaches sees clock hops
    (can_runs.append ((can_hook _).append (can_attach _)))
  exact ⟨s, hs, .inl (by simp [hprog]), hchild, by simp [Killed, hlog]⟩

/-- When every wait honours the timeout. For an accepted command line with a
last `--timeout T`, `main` never waits without a limit for a child it has
not killed, exactly when `T` is no multiple of `2 ^ 32` and there is no top-down
measurement. -/
theorem timeout_honoured_iff (argv : List String) (cli : CliOpts)
    (hargv : parseArgv argv = .ok cli) (items : List Item)
    (hitems : Derives items (argv.drop 1)) (T : ℤ)
    (hT : lastOf (Item.intOf ["--timeout"]) items = some T) (supported : Bool) (clock : Clock) :
    (∀ s : State U, Reachable (step sees) (initial (mainOps supported cli) clock) s →
      BlockingWait s → Killed s) ↔
    T % 2 ^ 32 ≠ 0 ∧ ¬ TopdownMeasured supported cli := by
  have hstored : (cli.benchOpts.timeoutMs.toNat : ℤ) = T % 2 ^ 32 := by
    obtain ⟨items', hitems', rfl, -⟩ := parseArgv_eq_ok.mp hargv
    rw [derives_unique hitems' hitems, applyAll_timeoutMs hitems.1, hT, Option.getD_some]
  have hzero : cli.benchOpts.timeoutMs = 0 ↔ T % 2 ^ 32 = 0 := by
    rw [← hstored, ← UInt32.toNat_inj]
    simp
  constructor
  · intro h
    refine ⟨fun hlost => ?_, fun htopdown => ?_⟩
    · obtain ⟨s, hs, hwait, -, hkilled⟩ := main_blocks_of_zero sees supported
        (paths_ne_nil hargv) (nRuns_pos hargv) (hzero.mpr hlost) clock
      exact hkilled (h s hs hwait)
    · obtain ⟨s, hs, hwait, -, hkilled⟩ := main_blocks_of_topdown sees
        (paths_ne_nil hargv) htopdown clock
      exact hkilled (h s hs hwait)
  · rintro ⟨hne, htopdown⟩ s hs hwait
    have hlimited : Limited s := hs.invariant (fun _ _ _ hs h => hs.step h)
      (main_limited (fun hz => hne (hzero.mp hz)) htopdown clock)
    exact hlimited.killed hwait

theorem timeout_honoured_plain :
    parseArgv ["bbench", "--timeout", "100", "ls"] =
      .ok { benchOpts := { timeoutMs := 100 }, paths := ["ls"] } ∧
    ∀ s : State Unit, Reachable (step fun _ _ => true)
      (initial (mainOps true { benchOpts := { timeoutMs := 100 }, paths := ["ls"] })
        ⟨0, by decide⟩) s → BlockingWait s → Killed s := by
  have hargv : parseArgv ["bbench", "--timeout", "100", "ls"] =
      .ok { benchOpts := { timeoutMs := 100 }, paths := ["ls"] } := by decide
  have hitems : Derives [.int "--timeout" "100" 100, .path "ls"] ["--timeout", "100", "ls"] := by
    refine ⟨?_, rfl⟩
    simp only [List.forall_mem_cons, List.not_mem_nil, false_implies, implies_true, and_true]
    exact ⟨by decide, by decide⟩
  refine ⟨hargv, ?_⟩
  exact (timeout_honoured_iff ["bbench", "--timeout", "100", "ls"] _ hargv _ hitems 100 (by decide)
    true ⟨0, by decide⟩).mpr (by decide)

/-- `--timeout 100 --topdown` waits for the top-down child without a limit. -/
theorem not_timeout_honoured : ¬ ∀ argv cli items, parseArgv argv = .ok cli →
    Derives items (argv.drop 1) → ∀ T, lastOf (Item.intOf ["--timeout"]) items = some T → 0 < T →
    ∀ (supported : Bool) (clock : Clock) (s : State Unit),
      Reachable (step fun _ _ => true) (initial (mainOps supported cli) clock) s →
      BlockingWait s → Killed s := by
  intro h
  have hargv : parseArgv ["bbench", "--timeout", "100", "--topdown", "ls"] =
      .ok { benchOpts := { timeoutMs := 100 }, topdownOnly := true, paths := ["ls"] } := by decide
  have hitems : Derives [.int "--timeout" "100" 100, .flag "--topdown", .path "ls"]
      ["--timeout", "100", "--topdown", "ls"] := by
    refine ⟨?_, rfl⟩
    simp only [List.forall_mem_cons, List.not_mem_nil, false_implies, implies_true, and_true]
    exact ⟨by decide, by decide, by decide⟩
  have hmeasured : TopdownMeasured true
      { benchOpts := { timeoutMs := 100 }, topdownOnly := true, paths := ["ls"] } := by decide
  obtain ⟨s, hs, hwait, -, hkilled⟩ := main_blocks_of_topdown (fun _ (_ : Unit) => true)
    (by decide) hmeasured ⟨0, by decide⟩
  exact hkilled (h _ _ _ hargv hitems 100 (by decide) (by decide) true _ s hs hwait)

end Bbench.Process
