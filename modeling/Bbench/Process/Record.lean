import Bbench.Process.Calls
import Mathlib.Tactic.IntervalCases

/-! A record of the launches of an execution: for each `fork`, whether the child has
become the measured program. In a program that awaits each child before the next
`fork`, every launch is decided by its own steps, and the record shows only successes
exactly when no `execve` fails and no child ends before its `execve`. -/

namespace Bbench.Process

open Perf Transition

variable {U : Type*} {sees : ℕ → U → Bool} {s t : State U} {ok : Bool} {l : Label U}

/-- The next call of the child is `execve`. -/
def Child.atExec : Child → Bool
  | .stub (.execve :: _) => true
  | _ => false

/-- The call is an `execve` that succeeds. -/
def execs (s : State U) : Label U → Bool
  | .stub ok => ok && s.child.atExec
  | _ => false

/-- A state with the launches so far, newest first: whether the child of each fork has
become the measured program. -/
structure Recorded (U : Type*) where
  state : State U
  launches : List Bool := []

def launchStep (sees : ℕ → U → Bool) (r : Recorded U) (l : Label U) : Option (Recorded U) :=
  (step sees r.state l).map fun t =>
    { state := t
      launches :=
        if forks r.state l then false :: r.launches
        else if execs r.state l then true :: r.launches.tail
        else r.launches }

/-- The child has its `execve` before it. -/
def Child.mayExec : Child → Bool
  | .stub todo => .execve ∈ todo
  | _ => false

/-- The launches that are decided. -/
def Recorded.settled (r : Recorded U) : List Bool :=
  if r.state.child.mayExec then r.launches.tail else r.launches

/-- The step is neither an `execve` that fails nor the end of a child before its `execve`. -/
def Executes (r : Recorded U) : Label U → Prop
  | .stub ok => r.state.child.atExec → ok = true
  | .exit => r.state.child = .program
  | _ => True

instance (r : Recorded U) : ∀ l, Decidable (Executes r l)
  | .stub ok => inferInstanceAs (Decidable (r.state.child.atExec = true → ok = true))
  | .exit => inferInstanceAs (Decidable (r.state.child = .program))
  | .parent _ | .work _ | .tick _ => isTrue trivial

/-! ### Every step keeps the record -/

/-- The forks still to come. -/
def forksLeft (s : State U) : ℕ :=
  if s.ctrl.past then s.prog.tail.countP Op.isAttach else s.prog.countP Op.isAttach

/-- Forks that have been recorded, and the fate of the newest one. -/
structure Tended (n : ℕ) (r : Recorded U) : Prop where
  alternates : Alternates r.state.prog
  awaited : Gone r.state ∨ (r.state.raised = true ∧ r.state.prog = []) ∨ Waited r.state.prog ∨
    r.state.ctrl.past = true ∧ r.state.prog.head?.any Op.isAttach = true
  stub : ∀ todo, r.state.child = .stub todo →
    (∃ k ≤ 4, todo = attachChild.drop k) ∧ r.launches.head? = some false
  program : r.state.child = .program → r.launches.head? = some true
  count : r.state.raised = true ∨ r.launches.length + forksLeft r.state = n

/-- Every decided launch has led to the program. -/
def Recorded.Honest (r : Recorded U) : Prop := ∀ b ∈ r.settled, b = true

theorem Gone.mayExec (hs : Gone s) : s.child.mayExec = false := by
  rcases hs with hs | hs <;> rw [hs] <;> rfl

theorem forksLeft_of_not_attach {op : Op} {rest : List Op} (hprog : s.prog = op :: rest)
    (ne : op.isAttach = false) : forksLeft s = rest.countP Op.isAttach := by
  have hcount : (op :: rest).countP Op.isAttach = rest.countP Op.isAttach :=
    List.countP_cons_of_neg (by simp [ne])
  unfold forksLeft
  rw [hprog, List.tail_cons, hcount, ite_self]

theorem forksLeft_of_idle (h : s.ctrl = .idle) : forksLeft s = s.prog.countP Op.isAttach := by
  simp [forksLeft, h, Ctrl.past]

section Quiet
variable {r : Recorded U}

/-- A step that is neither a `fork` nor an `execve` that succeeds leaves the launches alone. -/
theorem launchStep_quiet (h : step sees r.state l = some t) (hfork : forks r.state l = false)
    (hexec : execs r.state l = false) : launchStep sees r l = some ⟨t, r.launches⟩ := by
  simp [launchStep, h, hfork, hexec]

theorem honest_congr (hmay : t.child.mayExec = r.state.child.mayExec) :
    Recorded.Honest ⟨t, r.launches⟩ ↔ r.Honest := by
  simp only [Recorded.Honest, Recorded.settled, hmay]

end Quiet

namespace Tended
variable {n : ℕ} {r : Recorded U} {launches : List Bool} {op : Op} {rest : List Op}

/-- A child that is not to be forked anew is left to the wait. -/
theorem gone_of_attach (hr : Tended n r) {attrs : List PerfEventAttr} {rest : List Op}
    (hprog : r.state.prog = .processAttach attrs :: rest) (hctrl : r.state.ctrl.past = false) :
    Gone r.state := by
  obtain hgone | ⟨-, hnil⟩ | hwaited | ⟨hpast, -⟩ := hr.awaited
  · exact hgone
  · rw [hprog] at hnil
    cases hnil
  · simp [hprog, Waited, Op.isWait, Op.isAttach] at hwaited
  · rw [hctrl] at hpast
    cases hpast

/-- A step that leaves the child alone and moves on in the program. -/
theorem moved (hr : Tended n r) (hchild : t.child = r.state.child)
    (halternates : Alternates t.prog)
    (hawaited : ¬ Gone r.state → (t.raised = true ∧ t.prog = []) ∨ Waited t.prog ∨
      t.ctrl.past = true ∧ t.prog.head?.any Op.isAttach = true)
    (hcount : r.state.raised = false → t.raised = true ∨ forksLeft t = forksLeft r.state)
    (hraised : r.state.raised = true → t.raised = true) : Tended n ⟨t, r.launches⟩ where
  alternates := halternates
  awaited := by
    by_cases hgone : Gone r.state
    · exact .inl (by rwa [Gone, hchild])
    · exact .inr (hawaited hgone)
  stub todo htodo := hr.stub todo (hchild ▸ htodo)
  program hprogram := hr.program (hchild ▸ hprogram)
  count := by
    obtain hraise | hsum := hr.count
    · exact .inl (hraised hraise)
    · by_cases hraise : r.state.raised = true
      · exact .inl (hraised hraise)
      · exact (hcount (by simpa using hraise)).imp_right fun heq => by rw [heq]; exact hsum

theorem alternates_rest (hr : Tended n r) (was : r.state.prog = op :: rest) : Alternates rest := by
  have halternates := hr.alternates
  rw [was] at halternates
  exact halternates.2.2

theorem not_spawn (hr : Tended n r) : r.state.prog.head? ≠ some .spawn := by
  intro hhead
  obtain ⟨rest, was⟩ := List.head?_eq_some_iff.mp hhead
  have halternates := hr.alternates
  rw [was] at halternates
  exact halternates.1 rfl

/-- A `fork` opens a launch; the one before it is decided. -/
theorem forked (hr : Tended n r) {attrs : List PerfEventAttr}
    (was : r.state.prog = .processAttach attrs :: rest) (forking : r.state.ctrl = .forking)
    (prog : t.prog = r.state.prog) (ctrl : t.ctrl.past = true) (child : t.child = .stub attachChild)
    (hraised : r.state.raised = true → t.raised = true) :
    Tended n ⟨t, false :: r.launches⟩ ∧ (Recorded.Honest ⟨t, false :: r.launches⟩ ↔ r.Honest) := by
  have hgone := hr.gone_of_attach was (by rw [forking]; rfl)
  have hmay : t.child.mayExec = true := by rw [child]; rfl
  refine ⟨⟨prog ▸ hr.alternates, .inr (.inr (.inr ⟨ctrl, by simp [prog, was, Op.isAttach]⟩)),
    fun todo htodo => ?_, fun hp => ?_, hr.count.imp hraised fun hsum => ?_⟩, ?_⟩
  · rw [child, Child.stub.injEq] at htodo
    exact ⟨⟨0, by omega, htodo.symm⟩, rfl⟩
  · rw [child] at hp
    cases hp
  · have hleft : forksLeft r.state = rest.countP Op.isAttach + 1 := by
      simp [forksLeft, forking, Ctrl.past, was, List.countP_cons, Op.isAttach]
    have hleft' : forksLeft t = rest.countP Op.isAttach := by
      simp [forksLeft, ctrl, prog, was]
    simp only [List.length_cons]
    omega
  · simp [Recorded.Honest, Recorded.settled, hmay, hgone.mayExec]

/-- A wait ends with the child, whose launch was decided before. -/
theorem waited (hr : Tended n r) (was : r.state.prog = op :: rest) (ne : op.isAttach = false)
    (prog : t.prog = rest) (ctrl : t.ctrl = .idle) (before : Gone r.state ∨ r.state.child = .zombie)
    (gone : Gone t) (hraised : r.state.raised = true → t.raised = true) :
    Tended n ⟨t, r.launches⟩ ∧ (Recorded.Honest ⟨t, r.launches⟩ ↔ r.Honest) := by
  have hmay : r.state.child.mayExec = false := by
    rcases before with before | before
    · exact before.mayExec
    · rw [before]; rfl
  refine ⟨⟨prog ▸ hr.alternates_rest was, .inl gone, fun todo htodo => ?_, fun hp => ?_,
    hr.count.imp hraised fun hsum => ?_⟩, honest_congr (by rw [hmay, gone.mayExec])⟩
  · rcases gone with gone | gone <;> rw [gone] at htodo <;> cases htodo
  · exact absurd hp gone.ne_program
  · have hleft := forksLeft_of_not_attach was ne
    rw [forksLeft_of_idle ctrl, prog]
    simp only
    omega

/-- What a call of the parent does to the record. -/
theorem parent (hr : Tended n r) (h : parentStep ok r.state = some t) :
    ∃ launches, launchStep sees r (.parent ok) = some ⟨t, launches⟩ ∧
      Tended n ⟨t, launches⟩ ∧ (Recorded.Honest ⟨t, launches⟩ ↔ r.Honest) := by
  have hstep : Process.step sees r.state (.parent ok) = some t := h
  have hraised := step_raised hstep
  have hquiet (hfork : forks r.state (.parent ok) = false) :
      launchStep sees r (.parent ok) = some ⟨t, r.launches⟩ := launchStep_quiet hstep hfork rfl
  cases parentStep_calls hr.not_spawn h with
  | forks attrs rest was forking succeeds prog ctrl child =>
    have hfork : forks r.state (.parent ok) = true := by
      simp [forks, was, forking, succeeds, Op.isAttach]
    exact ⟨_, by simp [launchStep, hstep, hfork], hr.forked was forking prog ctrl child hraised⟩
  | attaches attrs rest was place prog ctrl child =>
    refine ⟨_, hquiet (by simp [forks, place]), ?_, honest_congr (by rw [child])⟩
    refine hr.moved child (prog ▸ hr.alternates) (fun hgone => ?_)
      (fun _ => .inr (by rw [forksLeft, forksLeft, ctrl, prog])) hraised
    rw [prog, ctrl]
    exact (hr.awaited.resolve_left hgone).imp_left (And.imp_left hraised)
  | attached attrs rest was place prog ctrl child =>
    refine ⟨_, hquiet ?_, ?_, honest_congr (by rw [child])⟩
    · cases hctrl : r.state.ctrl <;> simp_all [forks, Ctrl.past]
    · refine hr.moved child (prog ▸ hr.alternates_rest was) (fun _ => .inr (.inl ?_))
        (fun _ => .inr ?_) hraised
      · have halternates := hr.alternates
        rw [was] at halternates
        exact prog ▸ halternates.2.1 rfl
      · rw [forksLeft_of_idle ctrl, forksLeft, place, if_pos rfl, was, prog, List.tail_cons]
  | goesOn op rest was ne prog child =>
    refine ⟨_, hquiet (by simp [forks, was, ne]), ?_, honest_congr (by rw [child])⟩
    refine hr.moved child (prog ▸ hr.alternates) (fun hgone => ?_) (fun _ => .inr ?_) hraised
    · obtain ⟨hraise, hnil⟩ | hwaited | ⟨-, hhead⟩ := hr.awaited.resolve_left hgone
      · exact .inl ⟨hraised hraise, prog.trans hnil⟩
      · exact .inr (.inl (prog ▸ hwaited))
      · simp [was, ne] at hhead
    · rw [forksLeft_of_not_attach was ne, forksLeft_of_not_attach (prog.trans was) ne]
  | returns op rest was ne wait prog ctrl child =>
    refine ⟨_, hquiet (by simp [forks, was, ne]), ?_, honest_congr (by rw [child])⟩
    refine hr.moved child (prog ▸ hr.alternates_rest was) (fun hgone => ?_) (fun _ => .inr ?_)
      hraised
    · obtain ⟨-, hnil⟩ | hwaited | ⟨-, hhead⟩ := hr.awaited.resolve_left hgone
      · rw [was] at hnil
        cases hnil
      · rw [was] at hwaited
        exact .inr (.inl (prog ▸ (hwaited.resolve_left (by simp [wait])).2))
      · simp [was, ne] at hhead
    · rw [forksLeft_of_not_attach was ne, forksLeft_of_idle ctrl, prog]
  | awaits op rest was ne prog ctrl before gone =>
    exact ⟨_, hquiet (by simp [forks, was, ne]),
      hr.waited was ne prog ctrl before gone hraised⟩
  | raises fails prog raised child =>
    refine ⟨_, hquiet fails, ?_, honest_congr (by rw [child])⟩
    exact hr.moved child (by rw [prog]; trivial) (fun _ => .inl ⟨raised, prog⟩)
      (fun _ => .inl raised) hraised

/-- A step that is no call of the parent keeps its place in the program. -/
theorem background (hr : Tended n r) (h : Acts sees r.state t l)
    (hlength : launches.length = r.launches.length)
    (hstub : ∀ todo, t.child = .stub todo →
      (∃ k ≤ 4, todo = attachChild.drop k) ∧ launches.head? = some false)
    (hprogram : t.child = .program → launches.head? = some true) : Tended n ⟨t, launches⟩ := by
  have hb := h.background
  refine ⟨hb.prog ▸ hr.alternates, ?_, hstub, hprogram, ?_⟩
  · rw [hb.prog, hb.ctrl, hb.raised]
    exact hr.awaited.imp_left fun hgone => by rwa [Gone, (hgone.background h).1]
  · simp only [forksLeft, hb.prog, hb.ctrl, hb.raised, hlength]
    exact hr.count

/-- Before its `execve`, and after one that failed, the child leaves the record as it is. -/
theorem stub_moved (hr : Tended n r) (h : Acts sees r.state t (.stub ok))
    (hhead : r.launches.head? = some false) {j : ℕ} (hj : j ≤ 4)
    (hnext : t.child = .stub (attachChild.drop j)) : Tended n ⟨t, r.launches⟩ := by
  refine hr.background h rfl (fun todo htodo => ?_) (fun hp => ?_)
  · rw [hnext, Child.stub.injEq] at htodo
    exact ⟨⟨j, hj, htodo.symm⟩, hhead⟩
  · rw [hnext] at hp
    cases hp

/-- What a call of the forked child does to the record. -/
theorem stubbed (hr : Tended n r) (h : stubStep ok r.state = some t) :
    ∃ launches, launchStep sees r (.stub ok) = some ⟨t, launches⟩ ∧ Tended n ⟨t, launches⟩ ∧
      (Recorded.Honest ⟨t, launches⟩ ↔ r.Honest ∧ Executes r (.stub ok)) := by
  have hacts : Acts sees r.state t (.stub ok) := .stub ok h
  have hstep : Process.step sees r.state (.stub ok) = some t := h
  have hquiet (hexec : execs r.state (.stub ok) = false) :
      launchStep sees r (.stub ok) = some ⟨t, r.launches⟩ := launchStep_quiet hstep rfl hexec
  obtain ⟨todo, hchild⟩ : ∃ todo, r.state.child = .stub todo := by
    obtain ⟨todo, hchild, -⟩ | ⟨todo, hchild, -⟩ := stubStep_stubs h <;> exact ⟨_, hchild⟩
  obtain ⟨⟨k, hk, rfl⟩, hhead⟩ := hr.stub todo hchild
  obtain ⟨rest, hlaunches⟩ := List.head?_eq_some_iff.mp hhead
  -- the three calls before `execve`
  have hbefore (j : ℕ) (hj : j ≤ 3) (hnext : t.child = .stub (attachChild.drop j))
      (hmay : r.state.child.mayExec = true) (hat : r.state.child.atExec = false) :
      ∃ launches, launchStep sees r (.stub ok) = some ⟨t, launches⟩ ∧ Tended n ⟨t, launches⟩ ∧
        (Recorded.Honest ⟨t, launches⟩ ↔ r.Honest ∧ Executes r (.stub ok)) := by
    have hmay' : t.child.mayExec = true := by
      rw [hnext]
      interval_cases j <;> rfl
    refine ⟨_, hquiet (by simp [execs, hat]), hr.stub_moved hacts hhead (by omega) hnext, ?_⟩
    rw [honest_congr (hmay'.trans hmay.symm)]
    simp [Executes, hat]
  interval_cases k <;> simp only [stubStep, hchild, attachChild, List.drop] at h
  · cases h
    exact hbefore 1 (by omega) rfl (by rw [hchild]; rfl) (by rw [hchild]; rfl)
  · split at h <;> cases h
    exact hbefore 2 (by omega) rfl (by rw [hchild]; rfl) (by rw [hchild]; rfl)
  · cases h
    exact hbefore 3 (by omega) rfl (by rw [hchild]; rfl) (by rw [hchild]; rfl)
  · have hat : r.state.child.atExec = true := by rw [hchild]; rfl
    have hmay : r.state.child.mayExec = true := by rw [hchild]; rfl
    cases ok with
    | true =>
      cases h
      refine ⟨true :: r.launches.tail, by simp [launchStep, hstep, forks, execs, hat],
        hr.background hacts (by simp [hlaunches]) (fun todo htodo => by cases htodo) fun _ => rfl,
        ?_⟩
      have hmay' : (execve r.state).child.mayExec = false := rfl
      simp [Recorded.Honest, Recorded.settled, Executes, hmay, hmay']
    | false =>
      cases h
      refine ⟨_, hquiet rfl, hr.stub_moved hacts hhead (j := 4) le_rfl rfl, ?_⟩
      simp [Recorded.Honest, Recorded.settled, Executes, Child.mayExec, hat, hlaunches]
  · have hat : r.state.child.atExec = false := by rw [hchild]; rfl
    have hmay : Child.zombie.mayExec = r.state.child.mayExec := by rw [hchild]; rfl
    cases h
    refine ⟨_, hquiet (by simp [execs, hat]), hr.background hacts rfl
      (fun todo htodo => by cases htodo) (fun hp => by cases hp),
      (honest_congr hmay).trans ?_⟩
    simp [Executes, hat]

/-- Every step keeps the record, and keeps it honest unless a launch comes to nothing. -/
theorem step {r' : Recorded U} (hr : Tended n r) (h : launchStep sees r l = some r') :
    Tended n r' ∧ (r'.Honest ↔ r.Honest ∧ Executes r l) := by
  obtain ⟨t, ht, -⟩ := Option.map_eq_some_iff.mp h
  suffices hex : ∃ launches, launchStep sees r l = some ⟨t, launches⟩ ∧ Tended n ⟨t, launches⟩ ∧
      (Recorded.Honest ⟨t, launches⟩ ↔ r.Honest ∧ Executes r l) by
    obtain ⟨launches, heq, hkept⟩ := hex
    rw [h, Option.some.injEq] at heq
    rwa [heq]
  obtain ⟨ok, rfl, hcall⟩ | hacts := step_cases ht
  · exact (hr.parent hcall).imp fun launches ⟨heq, htended, hhonest⟩ =>
      ⟨heq, htended, hhonest.trans (and_iff_left trivial).symm⟩
  cases hacts with
  | stub ok call => exact hr.stubbed call
  | work u child eq =>
    have hc : t.child = r.state.child := by rw [eq]; rfl
    refine ⟨_, launchStep_quiet ht rfl rfl, hr.background (.work u child eq) rfl (hc ▸ hr.stub)
      (hc ▸ hr.program), (honest_congr (by rw [hc])).trans ?_⟩
    simp [Executes]
  | exit may eq =>
    have hc : t.child = .zombie := by rw [eq]
    have hexit : Acts sees r.state t .exit := .exit may eq
    refine ⟨_, launchStep_quiet ht rfl rfl, hr.background hexit rfl (fun todo htodo => ?_)
      (fun hp => ?_), ?_⟩
    · rw [hc] at htodo
      cases htodo
    · rw [hc] at hp
      cases hp
    · have hmay : Child.zombie.mayExec = false := rfl
      cases hchild : r.state.child with
      | program => simp [Recorded.Honest, Recorded.settled, hc, hchild, Child.mayExec, Executes]
      | stub todo =>
        obtain ⟨-, hhead⟩ := hr.stub todo hchild
        obtain ⟨rest, hlaunches⟩ := List.head?_eq_some_iff.mp hhead
        simp [Recorded.Honest, Recorded.settled, hc, hmay, hchild, Executes, hlaunches]
      | none | zombie | reaped => simp [MayExit, hchild] at may
  | tick ns clock le eq =>
    have hc : t.child = r.state.child := by rw [eq]
    have htick : Acts sees r.state t (.tick ns) := .tick ns clock le eq
    refine ⟨_, launchStep_quiet ht rfl rfl, hr.background htick rfl (hc ▸ hr.stub)
      (hc ▸ hr.program), (honest_congr (by rw [hc])).trans ?_⟩
    simp [Executes]

end Tended

/-! ### Whole executions -/

/-- Nothing has been launched. -/
def recorded (prog : List Op) (clock : Clock) : Recorded U := { state := initial prog clock }

/-- All calls have been made, and none has raised. -/
def Recorded.Returned (r : Recorded U) : Prop := r.state.prog = [] ∧ r.state.raised = false

theorem tended_recorded {prog : List Op} (h : Alternates prog) (clock : Clock) :
    Tended (prog.countP Op.isAttach) (recorded prog clock : Recorded U) where
  alternates := h
  awaited := .inl (.inl rfl)
  stub _ htodo := by cases htodo
  program hp := by cases hp
  count := .inr (by simp [recorded, forksLeft, initial, Ctrl.past])

section Run
variable {prog : List Op} {clock : Clock} {ls : List (Label U)} {r : Recorded U}

/-- An execution has an honest record exactly when every launch succeeds. -/
theorem honest_iff (hprog : Alternates prog)
    (h : run (launchStep sees) (recorded prog clock) ls = some r) :
    Tended (prog.countP Op.isAttach) r ∧
      (r.Honest ↔ Along (launchStep sees) Executes (recorded prog clock) ls) := by
  have hinit := tended_recorded (U := U) hprog clock
  refine ⟨run_invariant (fun _ _ _ hr h => (hr.step h).1) hinit h, ?_⟩
  have hiff := run_iff_along (fun _ _ _ hr h => (hr.step h).1) (fun _ _ _ hr h => (hr.step h).2)
    hinit h
  exact hiff.trans (and_iff_right fun b hb => by cases hb)

/-- When it returns, all launches are decided, one for each `process_attach`. -/
theorem Tended.returned {n : ℕ} (hr : Tended n r) (h : r.Returned) :
    r.launches.length = n ∧ r.settled = r.launches := by
  obtain ⟨hprog, hraised⟩ := h
  have hgone : Gone r.state := by
    obtain hgone | ⟨hraise, -⟩ | hwaited | ⟨-, hhead⟩ := hr.awaited
    · exact hgone
    · rw [hraised] at hraise
      cases hraise
    · rw [hprog] at hwaited
      exact hwaited.elim
    · simp [hprog] at hhead
  have hcount := hr.count.resolve_left (by simp [hraised])
  refine ⟨?_, by simp [Recorded.settled, hgone.mayExec]⟩
  simpa [forksLeft, hprog] using hcount

theorem launches_iff (hprog : Alternates prog)
    (h : run (launchStep sees) (recorded prog clock) ls = some r) (hr : r.Returned) :
    r.launches.length = prog.countP Op.isAttach ∧
      ((∀ b ∈ r.launches, b = true) ↔
        Along (launchStep sees) Executes (recorded prog clock) ls) := by
  obtain ⟨htended, hiff⟩ := honest_iff hprog h
  obtain ⟨hlength, hsettled⟩ := htended.returned hr
  exact ⟨hlength, by rw [← hiff, Recorded.Honest, hsettled]⟩

end Run

end Bbench.Process
