import Bbench.Process.Machine

/-! What a step leaves alone. A call of the parent goes on, returns or leaves the
program, and a wait touches only the child and the log. A step of the child, its
work, its end and the clock keep the place of the parent, the time measurement,
the log and the parent's ends of the pipe. -/

namespace Bbench.Process

variable {U : Type*} {sees : ℕ → U → Bool} {s t : State U} {ok : Bool}

/-! ### Calls of the parent -/

/-- The parent does no work of the measured program. -/
def SameWork (s t : State U) : Prop := t.executed = s.executed ∧ t.timed = s.timed

/-- A call goes on, returns, or leaves the program by an exception. -/
inductive Outcome (s t : State U) : Prop
  | stays (work : SameWork s t) (prog : t.prog = s.prog) (raised : t.raised = s.raised)
  | returns (work : SameWork s t) (prog : t.prog = s.prog.tail) (ctrl : t.ctrl = .idle)
    (raised : t.raised = s.raised)
  | raises (work : SameWork s t) (prog : t.prog = []) (ctrl : t.ctrl = .idle)
    (raised : t.raised = true)

theorem Outcome.work (h : Outcome s t) : SameWork s t := by
  cases h <;> assumption

theorem Outcome.prog (h : Outcome s t) : t.prog <:+ s.prog := by
  obtain ⟨-, hp, -⟩ | ⟨-, hp, -, -⟩ | ⟨-, hp, -, -⟩ := h
  · exact hp ▸ List.suffix_rfl
  · exact hp ▸ List.tail_suffix _
  · exact hp ▸ List.nil_suffix

theorem loop_outcome {n i : ℕ} {body : Ctrl} (hw : SameWork s t)
    (hp : t.prog = s.prog) (hr : t.raised = s.raised) : Outcome s (t.loop n i body) := by
  unfold State.loop
  split
  · exact .stays hw hp hr
  · exact .returns hw (congrArg List.tail hp) rfl hr

theorem State.setCounter_self (s : State U) (k : ℕ) (c : Counter U) :
    (s.setCounter k c).counters k = c := by
  simp [State.setCounter]

theorem State.setCounter_of_ne (s : State U) {k i : ℕ} (hki : k ≠ i) (c : Counter U) :
    (s.setCounter i c).counters k = s.counters k := by
  simp [State.setCounter, hki]

section Loop
variable (s : State U) (n i : ℕ) (body : Ctrl)

theorem loop_cases : s.loop n i body = s.goto body ∨ s.loop n i body = s.ret := by
  unfold State.loop
  split
  · exact .inl rfl
  · exact .inr rfl

@[simp] theorem loop_child : (s.loop n i body).child = s.child := by
  unfold State.loop
  split <;> rfl

@[simp] theorem loop_counters : (s.loop n i body).counters = s.counters := by
  unfold State.loop
  split <;> rfl

@[simp] theorem loop_executed : (s.loop n i body).executed = s.executed := by
  unfold State.loop
  split <;> rfl

@[simp] theorem loop_raised : (s.loop n i body).raised = s.raised := by
  unfold State.loop
  split <;> rfl

@[simp] theorem loop_pipe : (s.loop n i body).pipe = s.pipe := by
  unfold State.loop
  split <;> rfl

end Loop

/-- A call inside `process_attach`, by the place it starts from. -/
inductive AttachCall (ok : Bool) (attrs : List Perf.PerfEventAttr) (s t : State U) : Prop
  | pipes (place : s.ctrl = .idle) (succeeds : ok = true)
    (eq : t = { s.goto .forking with pipe := { parentRead := true, parentWrite := true } })
  | forks (place : s.ctrl = .forking) (succeeds : ok = true)
    (eq : t = { s.goto .closeRead with
      child := .stub attachChild
      pipe := { s.pipe with childRead := true, childWrite := true }
      log := [] })
  | raises (place : s.ctrl = .idle ∨ s.ctrl = .forking) (fails : ok = false) (pipe : Pipe)
    (eq : t = { s.raise with pipe })
  | closesRead (place : s.ctrl = .closeRead)
    (eq : t = { s.goto (atMember attrs.length 0 (.attach 0) .write) with
      pipe := { s.pipe with parentRead := false } })
  | opens (i : ℕ) (attr : Perf.PerfEventAttr) (place : s.ctrl = .attach i)
    (member : attrs[i]? = some attr)
    (eq : t = (s.perfEventOpen ok i attr).goto
      (atMember attrs.length (i + 1) (.attach (i + 1)) .write))
  | writes (place : s.ctrl = .write)
    (eq : t = { s.goto .closeWrite with pipe := { s.pipe with bytes := s.pipe.bytes + 1 } })
  | returns (place : s.ctrl = .closeWrite)
    (eq : t = { s.ret with pipe := { s.pipe with parentWrite := false } })

theorem attachStep_cases {attrs : List Perf.PerfEventAttr} (h : attachStep ok attrs s = some t) :
    AttachCall ok attrs s t := by
  unfold attachStep at h
  split at h
  case h_1 hc =>
    split at h <;> cases h
    · exact .pipes hc ‹_› rfl
    · exact .raises (.inl hc) (Bool.eq_false_iff.mpr ‹_›) _ rfl
  case h_2 hc =>
    split at h <;> cases h
    · exact .forks hc ‹_› rfl
    · exact .raises (.inr hc) (Bool.eq_false_iff.mpr ‹_›) _ rfl
  case h_3 hc => cases h; exact .closesRead hc rfl
  case h_4 hc => split at h <;> cases h; exact .opens _ _ hc ‹_› rfl
  case h_5 hc => cases h; exact .writes hc rfl
  case h_6 hc => cases h; exact .returns hc rfl
  case h_7 => cases h

theorem attachStep_outcome {attrs : List Perf.PerfEventAttr}
    (h : attachStep ok attrs s = some t) : Outcome s t := by
  cases attachStep_cases h with
  | raises _ _ _ eq => subst eq; exact .raises ⟨rfl, rfl⟩ rfl rfl rfl
  | returns _ eq => subst eq; exact .returns ⟨rfl, rfl⟩ rfl rfl rfl
  | pipes _ _ eq | forks _ _ eq | closesRead _ eq | opens _ _ _ _ eq | writes _ eq =>
    subst eq
    exact .stays ⟨rfl, rfl⟩ rfl rfl

theorem reopenStep_cases {attrs : List Perf.PerfEventAttr}
    (h : reopenStep ok attrs s = some t) :
    t = s.loop attrs.length 0 (.attach 0) ∨ ∃ i attr,
      t = (s.perfEventOpen ok i attr).loop attrs.length (i + 1) (.attach (i + 1)) := by
  unfold reopenStep at h
  split at h
  · cases h
    exact .inl rfl
  · split at h <;> cases h
    exact .inr ⟨_, _, rfl⟩
  · cases h

theorem reopenStep_outcome {attrs : List Perf.PerfEventAttr}
    (h : reopenStep ok attrs s = some t) : Outcome s t := by
  obtain rfl | ⟨i, attr, rfl⟩ := reopenStep_cases h
  · exact loop_outcome ⟨rfl, rfl⟩ rfl rfl
  · exact loop_outcome ⟨rfl, rfl⟩ rfl rfl

theorem startStep_cases {n : ℕ} (h : startStep n s = some t) :
    s.ctrl = .idle ∧ t = s.loop n 0 (.reset 0) ∨
    (∃ i, s.ctrl = .reset i ∧
      t = (s.setCounter i { s.counters i with counted := [] }).goto (.enable i)) ∨
    ∃ i, s.ctrl = .enable i ∧ t = (s.setCounter i { s.counters i with
      enabled := (s.counters i).opened }).loop n (i + 1) (.reset (i + 1)) := by
  unfold startStep at h
  split at h <;> cases h
  · exact .inl ⟨‹_›, rfl⟩
  · exact .inr (.inl ⟨_, ‹_›, rfl⟩)
  · exact .inr (.inr ⟨_, ‹_›, rfl⟩)

theorem startStep_outcome {n : ℕ} (h : startStep n s = some t) : Outcome s t := by
  obtain ⟨-, rfl⟩ | ⟨i, -, rfl⟩ | ⟨i, -, rfl⟩ := startStep_cases h
  · exact loop_outcome ⟨rfl, rfl⟩ rfl rfl
  · exact .stays ⟨rfl, rfl⟩ rfl rfl
  · exact loop_outcome ⟨rfl, rfl⟩ rfl rfl

theorem stopStep_cases {n : ℕ} (h : stopStep n s = some t) :
    t = s.loop n 0 (.disable 0) ∨ ∃ i, t = (s.setCounter i { s.counters i with
      enabled := false }).loop n (i + 1) (.disable (i + 1)) := by
  unfold stopStep at h
  split at h <;> cases h
  · exact .inl rfl
  · exact .inr ⟨_, rfl⟩

theorem stopStep_outcome {n : ℕ} (h : stopStep n s = some t) : Outcome s t := by
  obtain rfl | ⟨i, rfl⟩ := stopStep_cases h
  · exact loop_outcome ⟨rfl, rfl⟩ rfl rfl
  · exact loop_outcome ⟨rfl, rfl⟩ rfl rfl

theorem sleepStep_cases {ms : ℕ} (h : sleepStep ok ms s = some t) :
    t = s.ret ∨ s.ctrl = .idle ∧ t = s.goto (.sleeping (s.clock.ns + sleepNs ms)) := by
  unfold sleepStep at h
  split at h
  · rename_i hc
    cases h
    split
    · exact .inl rfl
    · exact .inr ⟨hc, rfl⟩
  · split at h <;> cases h
    exact .inl rfl
  · cases h

theorem waitpidStep_cases (h : waitpidStep s = some t) :
    s.child = .zombie ∧ t = s.reap.ret ∨ (s.child = .none ∨ s.child = .reaped) ∧ t = s.ret := by
  unfold waitpidStep at h
  split at h <;> cases h
  · exact .inl ⟨‹_›, rfl⟩
  · exact .inr ⟨.inl ‹_›, rfl⟩
  · exact .inr ⟨.inr ‹_›, rfl⟩

/-- No child is left, running or to be waited for. -/
def Gone (s : State U) : Prop := s.child = .none ∨ s.child = .reaped

theorem Gone.ne_program (hs : Gone s) : s.child ≠ .program := by
  rcases hs with hs | hs <;> simp [hs]

/-- `__wait_with_timeout` touches nothing but the clock readings, the signals and
the child, and returns only when no child is left. -/
inductive Waits (s t : State U) : Prop
  | goesOn (ctrl : Ctrl) (log : List Entry) (eq : t = { s with ctrl, log })
  | returns (child : Child) (log : List Entry) (gone : Gone t)
    (eq : t = { s with prog := s.prog.tail, ctrl := .idle, child, log })

theorem waitpidStep_waits (h : waitpidStep s = some t) : Waits s t := by
  obtain ⟨-, rfl⟩ | ⟨hc, rfl⟩ := waitpidStep_cases h
  · exact .returns _ _ (.inr rfl) rfl
  · exact .returns _ _ hc rfl

/-- A call of `__wait_with_timeout`, by the place it starts from. -/
inductive WaitCall (ok : Bool) (timeoutMs : UInt32) (s t : State U) : Prop
  | blocks (place : s.ctrl = .idle) (forever : timeoutMs = 0) (eq : t = s.goto .blocked)
  | begins (place : s.ctrl = .idle) (limited : timeoutMs ≠ 0)
    (eq : t = (s.note (.now s.clock.nowMs)).goto
      (.poll ((s.clock.nowMs + timeoutMs.toNat) % 2 ^ 64)))
  | waits (place : s.ctrl = .blocked ∨ s.ctrl = .final) (call : waitpidStep s = some t)
  | polls (deadline : ℕ) (place : s.ctrl = .poll deadline) (eq : t = s.goto (.check deadline))
  | reaps (place : (∃ deadline, s.ctrl = .poll deadline) ∨ ∃ hard, s.ctrl = .gracePoll hard)
    (ended : s.child = .zombie) (eq : t = s.reap.ret)
  | expires (deadline : ℕ) (place : s.ctrl = .check deadline) (late : deadline ≤ s.clock.nowMs)
    (eq : t = (s.note (.now s.clock.nowMs)).goto .term)
  | naps (deadline : ℕ) (place : s.ctrl = .check deadline) (early : s.clock.nowMs < deadline)
    (eq : t = (s.note (.now s.clock.nowMs)).goto (.nap deadline (s.clock.ns + sleepNs 1)))
  | wakes (deadline wake : ℕ) (place : s.ctrl = .nap deadline wake)
    (awake : ok = false ∨ wake ≤ s.clock.ns) (eq : t = s.goto (.poll deadline))
  | terminates (place : s.ctrl = .term) (eq : t = (s.note (.kill .terminate)).goto .hard)
  | grants (place : s.ctrl = .hard)
    (eq : t = (s.note (.now s.clock.nowMs)).goto (.graceCheck ((s.clock.nowMs + 50) % 2 ^ 64)))
  | graceLeft (hard : ℕ) (place : s.ctrl = .graceCheck hard) (early : s.clock.nowMs < hard)
    (eq : t = (s.note (.now s.clock.nowMs)).goto (.gracePoll hard))
  | graceOver (hard : ℕ) (place : s.ctrl = .graceCheck hard) (late : hard ≤ s.clock.nowMs)
    (eq : t = (s.note (.now s.clock.nowMs)).goto .kill9)
  | gracePolls (hard : ℕ) (place : s.ctrl = .gracePoll hard)
    (eq : t = s.goto (.graceNap hard (s.clock.ns + sleepNs 2)))
  | graceWakes (hard wake : ℕ) (place : s.ctrl = .graceNap hard wake)
    (awake : ok = false ∨ wake ≤ s.clock.ns) (eq : t = s.goto (.graceCheck hard))
  | kills (place : s.ctrl = .kill9) (eq : t = (s.note (.kill .kill9)).goto .final)

theorem waitStep_cases {timeoutMs : UInt32} (h : waitStep ok timeoutMs s = some t) :
    WaitCall ok timeoutMs s t := by
  unfold waitStep at h
  split at h
  case h_1 hc =>
    split at h <;> cases h
    · exact .blocks hc ‹_› rfl
    · exact .begins hc ‹_› rfl
  case h_2 hc => exact .waits (.inl hc) h
  case h_3 hc => exact .waits (.inr hc) h
  case h_4 hc =>
    cases h
    split
    · exact .reaps (.inl ⟨_, hc⟩) ‹_› rfl
    · exact .polls _ hc rfl
  case h_5 hc =>
    cases h
    split
    · exact .expires _ hc ‹_› rfl
    · exact .naps _ hc (Nat.lt_of_not_le ‹_›) rfl
  case h_6 hc => split at h <;> cases h; exact .wakes _ _ hc ‹_› rfl
  case h_7 hc => cases h; exact .terminates hc rfl
  case h_8 hc => cases h; exact .grants hc rfl
  case h_9 hc =>
    cases h
    split
    · exact .graceLeft _ hc ‹_› rfl
    · exact .graceOver _ hc (Nat.le_of_not_lt ‹_›) rfl
  case h_10 hc =>
    cases h
    split
    · exact .reaps (.inr ⟨_, hc⟩) ‹_› rfl
    · exact .gracePolls _ hc rfl
  case h_11 hc => split at h <;> cases h; exact .graceWakes _ _ hc ‹_› rfl
  case h_12 hc => cases h; exact .kills hc rfl
  case h_13 => cases h

theorem waitStep_waits {timeoutMs : UInt32} (h : waitStep ok timeoutMs s = some t) :
    Waits s t := by
  cases waitStep_cases h with
  | waits _ call => exact waitpidStep_waits call
  | reaps _ _ eq => subst eq; exact .returns _ _ (.inr rfl) rfl
  | blocks _ _ eq | begins _ _ eq | polls _ _ eq | expires _ _ _ eq | naps _ _ _ eq
  | wakes _ _ _ _ eq | terminates _ eq | grants _ eq | graceLeft _ _ _ eq | graceOver _ _ _ eq
  | gracePolls _ _ eq | graceWakes _ _ _ _ eq | kills _ eq =>
    subst eq
    exact .goesOn _ _ rfl

theorem Waits.outcome (h : Waits s t) : Outcome s t := by
  obtain ⟨_, _, rfl⟩ | ⟨_, _, -, rfl⟩ := h
  · exact .stays ⟨rfl, rfl⟩ rfl rfl
  · exact .returns ⟨rfl, rfl⟩ rfl rfl rfl

theorem parentStep_outcome (h : parentStep ok s = some t) : Outcome s t := by
  unfold parentStep at h
  split at h
  case h_1 => cases h
  case h_2 =>
    split at h <;> cases h
    · exact .returns ⟨rfl, rfl⟩ rfl rfl rfl
    · exact .raises ⟨rfl, rfl⟩ rfl rfl rfl
  case h_3 => exact attachStep_outcome h
  case h_4 =>
    split at h <;> cases h
    · exact .returns ⟨rfl, rfl⟩ rfl rfl rfl
    · exact .raises ⟨rfl, rfl⟩ rfl rfl rfl
  case h_5 => exact reopenStep_outcome h
  case h_6 => exact startStep_outcome h
  case h_7 => exact stopStep_outcome h
  case h_8 =>
    obtain rfl | ⟨-, rfl⟩ := sleepStep_cases h
    · exact .returns ⟨rfl, rfl⟩ rfl rfl rfl
    · exact .stays ⟨rfl, rfl⟩ rfl rfl
  case h_9 => cases h; exact .returns ⟨rfl, rfl⟩ rfl rfl rfl
  case h_10 => cases h; exact .returns ⟨rfl, rfl⟩ rfl rfl rfl
  case h_11 => exact (waitpidStep_waits h).outcome
  case h_12 => exact (waitStep_waits h).outcome

/-! ### Steps of the child and of the clock -/

/-- The forked child goes on with its calls, or becomes the measured program. -/
inductive Stubs (s t : State U) : Prop
  | goesOn (todo : List Stub) (was : s.child = .stub todo) (child : Child) (pipe : Pipe)
    (now : (∃ todo, child = .stub todo) ∨ child = .zombie) (eq : t = { s with child, pipe })
  | execs (todo : List Stub) (was : s.child = .stub (.execve :: todo)) (eq : t = execve s)

theorem stubStep_stubs (h : stubStep ok s = some t) : Stubs s t := by
  unfold stubStep at h
  split at h
  case h_1 todo hc => cases h; exact .goesOn _ hc _ _ (.inl ⟨todo, rfl⟩) rfl
  case h_2 todo hc => split at h <;> cases h; exact .goesOn _ hc _ _ (.inl ⟨todo, rfl⟩) rfl
  case h_3 todo hc => cases h; exact .goesOn _ hc _ _ (.inl ⟨todo, rfl⟩) rfl
  case h_4 todo hc =>
    cases h
    split
    · exact .execs todo hc rfl
    · exact .goesOn _ hc _ _ (.inl ⟨todo, rfl⟩) rfl
  case h_5 todo hc => cases h; exact .goesOn _ hc _ _ (.inr rfl) rfl
  case h_6 => cases h

/-- A step that is no call of the parent: the forked child goes on, the program
works or ends, or time passes. -/
inductive Acts (sees : ℕ → U → Bool) (s t : State U) : Label U → Prop
  | stub (ok : Bool) (call : stubStep ok s = some t) : Acts sees s t (.stub ok)
  | work (u : U) (child : s.child = .program) (eq : t = work sees u s) : Acts sees s t (.work u)
  | exit (may : MayExit s) (eq : t = { s with child := .zombie }) : Acts sees s t .exit
  | tick (ns : ℕ) (clock : Clock) (le : s.clock.ns ≤ clock.ns) (eq : t = { s with clock }) :
    Acts sees s t (.tick ns)

theorem step_cases {l : Label U} (h : step sees s l = some t) :
    (∃ ok, l = .parent ok ∧ parentStep ok s = some t) ∨ Acts sees s t l := by
  cases l with
  | parent ok => exact .inl ⟨ok, rfl, h⟩
  | stub ok => exact .inr (.stub ok h)
  | work u =>
    simp only [step] at h
    split at h <;> cases h
    exact .inr (.work u ‹_› rfl)
  | exit =>
    simp only [step] at h
    split at h <;> cases h
    exact .inr (.exit ‹_› rfl)
  | tick ns =>
    simp only [step] at h
    split at h <;> cases h
    exact .inr (.tick ns _ (Nat.le_add_right _ _) rfl)

/-- What every step keeps that is not a call of the parent. -/
structure Background (s t : State U) : Prop where
  prog : t.prog = s.prog
  ctrl : t.ctrl = s.ctrl
  raised : t.raised = s.raised
  window : t.window = s.window
  opens : t.opens = s.opens
  log : t.log = s.log

namespace Acts
variable {l : Label U}

theorem background (h : Acts sees s t l) : Background s t := by
  cases h with
  | stub ok call =>
    obtain ⟨_, -, _, _, -, rfl⟩ | ⟨_, -, rfl⟩ := stubStep_stubs call <;>
      exact ⟨rfl, rfl, rfl, rfl, rfl, rfl⟩
  | work u child eq => subst eq; exact ⟨rfl, rfl, rfl, rfl, rfl, rfl⟩
  | exit may eq => subst eq; exact ⟨rfl, rfl, rfl, rfl, rfl, rfl⟩
  | tick ns clock le eq => subst eq; exact ⟨rfl, rfl, rfl, rfl, rfl, rfl⟩

/-- Work is timed only while the measurement runs. -/
theorem timed (h : Acts sees s t l) (hw : s.window ≠ .running) : t.timed = s.timed := by
  cases h with
  | stub ok call => obtain ⟨_, -, _, _, -, rfl⟩ | ⟨_, -, rfl⟩ := stubStep_stubs call <;> rfl
  | work u child eq => subst eq; exact if_neg hw
  | exit may eq => subst eq; rfl
  | tick ns clock le eq => subst eq; rfl

theorem clock_le (h : Acts sees s t l) : s.clock.ns ≤ t.clock.ns := by
  cases h with
  | stub ok call =>
    obtain ⟨_, -, _, _, -, rfl⟩ | ⟨_, -, rfl⟩ := stubStep_stubs call <;> exact Nat.le_refl _
  | work u child eq => subst eq; exact Nat.le_refl _
  | exit may eq => subst eq; exact Nat.le_refl _
  | tick ns clock le eq => subst eq; exact le

end Acts

/-- Without a child, only the clock moves in the background. -/
theorem Gone.background (hs : Gone s) {l : Label U} (h : Acts sees s t l) :
    t.child = s.child ∧ t.pipe = s.pipe ∧ t.executed = s.executed := by
  cases h with
  | stub ok call =>
    obtain ⟨_, hc, -⟩ | ⟨_, hc, -⟩ := stubStep_stubs call
    · rcases hs with hs | hs <;> rw [hs] at hc <;> cases hc
    · rcases hs with hs | hs <;> rw [hs] at hc <;> cases hc
  | work u child eq => exact absurd child hs.ne_program
  | exit may eq => rcases hs with hs | hs <;> simp [MayExit, hs] at may
  | tick ns clock le eq => subst eq; exact ⟨rfl, rfl, rfl⟩

/-- An exception is final. -/
theorem step_raised {l : Label U} (h : step sees s l = some t) (hs : s.raised = true) :
    t.raised = true := by
  obtain ⟨ok, -, h⟩ | h := step_cases h
  · obtain ⟨-, -, hr⟩ | ⟨-, -, -, hr⟩ | ⟨-, -, -, hr⟩ := parentStep_outcome h
    · exact hr.trans hs
    · exact hr.trans hs
    · exact hr
  · exact h.background.raised.trans hs

/-- The program only gets shorter. -/
theorem step_prog {l : Label U} (h : step sees s l = some t) : t.prog <:+ s.prog := by
  obtain ⟨ok, -, h⟩ | h := step_cases h
  · exact (parentStep_outcome h).prog
  · exact h.background.prog ▸ List.suffix_rfl

end Bbench.Process
