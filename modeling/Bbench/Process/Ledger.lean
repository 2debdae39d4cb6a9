import Bbench.Process.Counting
import Bbench.Process.Sequence

/-! What the measurements of one execution have found. A ledger goes along with the two
processes and keeps, for the measurement under way, the work that has been done and the
readings of the clock. A measurement that returns is entered with its counters. Whatever
the interleaving, they have counted the work of their own child and of no other. -/

namespace Bbench.Process

open Perf Transition Cli

variable {U : Type*} {sees : ℕ → U → Bool} {s t : State U} {ok : Bool} {l : Label U}
  {opts : BenchmarkOpts} {supported : Bool} {cli : CliOpts}

/-- One measurement, when `gr.end()` returns: how many counters it stops and what they
hold, the work done since the measurement before, and the clock at `cl.begin` and `cl.end`.
The counters are read a little later, but nothing changes them any more. -/
structure Measured (U : Type*) where
  size : ℕ
  counters : ℕ → Counter U
  units : List U
  start : ℕ
  stop : ℕ

structure Ledger (U : Type*) where
  state : State U
  units : List U := []
  start : ℕ := 0
  stop : ℕ := 0
  results : List (Measured U) := []

/-- The ledger after a step that leads to `t`. -/
def Ledger.after (r : Ledger U) (l : Label U) (t : State U) : Ledger U :=
  match l, r.state.prog.head? with
  | .work u, _ => { r with state := t, units := r.units ++ [u] }
  | .parent _, some .clockBegin => { r with state := t, start := r.state.clock.ns }
  | .parent _, some .clockEnd => { r with state := t, stop := r.state.clock.ns }
  | .parent _, some (.stop n) =>
    if t.ctrl = .idle then
      { r with
        state := t
        units := []
        results := r.results ++ [⟨n, t.counters, r.units, r.start, r.stop⟩] }
    else { r with state := t }
  | _, _ => { r with state := t }

def ledgerStep (sees : ℕ → U → Bool) (r : Ledger U) (l : Label U) : Option (Ledger U) :=
  (step sees r.state l).map (r.after l)

/-- Nothing has been measured. -/
def ledger (prog : List Op) (clock : Clock) : Ledger U := { state := initial prog clock }

/-! ### Programs that measure -/

/-- Where a program stands between its measurements and in them: without a child, with `n`
counters on a child, or with the child gone and `n` counters to stop; and whether the
clock runs. -/
inductive Phase
  | free
  | attached (n : ℕ) (timed : Bool)
  | awaited (n : ℕ) (timed : Bool)
  deriving DecidableEq

/-- The phase after a call, if the call may be made. -/
def Phase.next : Phase → Op → Option Phase
  | .free, .runToEnd => some .free
  | .free, .processAttach attrs =>
    if ∀ attr ∈ attrs, attr.enableOnExec = true then some (.attached attrs.length false) else none
  | .attached n timed, .sleepMs _ => some (.attached n timed)
  | .attached n false, .clockBegin => some (.attached n true)
  | .attached n timed, .waitpid => some (.awaited n timed)
  | .attached n timed, .waitWithTimeout _ => some (.awaited n timed)
  | .awaited n true, .clockEnd => some (.awaited n false)
  | .awaited n false, .stop m => if m = n then some .free else none
  | _, _ => none

/-- The calls left to make finish what is under way, and measure. -/
def Proceeds (p : Phase) (ops : List Op) : Prop := run Phase.next p ops = some .free

instance (p : Phase) (ops : List Op) : Decidable (Proceeds p ops) :=
  inferInstanceAs (Decidable (_ = _))

theorem Proceeds.cons {p : Phase} {op : Op} {rest : List Op} (h : Proceeds p (op :: rest)) :
    ∃ q, p.next op = some q ∧ Proceeds q rest :=
  run_cons_eq_some.mp h

theorem Proceeds.append {p : Phase} {ops more : List Op} (h : Proceeds p ops)
    (hmore : Proceeds .free more) : Proceeds p (ops ++ more) := run_trans h hmore

theorem Proceeds.flatMap {α : Type*} {as : List α} {f : α → List Op}
    (h : ∀ a ∈ as, Proceeds .free (f a)) : Proceeds .free (as.flatMap f) := by
  induction as with
  | nil => rfl
  | cons a as ih =>
    rw [List.flatMap_cons]
    exact (h a (by simp)).append (ih fun b hb => h b (by simp [hb]))

theorem measures_hookOps (cmd : Option String) : Proceeds .free (hookOps cmd) := by
  cases cmd <;> rfl

theorem measures_measureOps {attrs : List PerfEventAttr}
    (hattrs : ∀ attr ∈ attrs, attr.enableOnExec = true) (opts : BenchmarkOpts) :
    Proceeds .free (measureOps opts attrs) := by
  have hfinish : Proceeds (.awaited attrs.length true) (finishOps opts attrs.length) := by
    have hstop : Phase.next (.awaited attrs.length false) (.stop attrs.length) = some .free :=
      if_pos rfl
    refine run_cons_eq_some.mpr ⟨.awaited attrs.length false, rfl, ?_⟩
    exact run_cons_eq_some.mpr ⟨.free, hstop, measures_hookOps _⟩
  have htimed : Proceeds (.attached attrs.length false) (timedOps opts attrs.length) := by
    unfold timedOps delayOps
    split <;> exact hfinish
  have hattach : Phase.next .free (.processAttach attrs) = some (.attached attrs.length false) :=
    if_pos hattrs
  exact (measures_hookOps _).append (run_cons_eq_some.mpr ⟨_, hattach, htimed⟩)

theorem measures_measureBinOps (opts : BenchmarkOpts) :
    Proceeds .free (measureBinOps true opts) := by
  have hattrs : ∀ attr ∈ Topdown.group opts, attr.enableOnExec = true := by
    intro attr hattr
    obtain ⟨config, -, rfl⟩ := List.mem_map.mp hattr
    rfl
  have hattach : Phase.next .free (.processAttach (Topdown.group opts)) =
      some (.attached 5 false) := by
    rw [Phase.next, if_pos hattrs]
    rfl
  have hstop : Phase.next (.awaited 5 false) (.stop 5) = some .free := rfl
  refine (measures_hookOps _).append (run_cons_eq_some.mpr ⟨_, hattach, ?_⟩)
  refine run_cons_eq_some.mpr ⟨.awaited 5 false, rfl, ?_⟩
  exact run_cons_eq_some.mpr ⟨.free, hstop, measures_hookOps _⟩

theorem runAttrs_enableOnExec (cli : CliOpts) :
    ∀ attr ∈ runAttrs cli, attr.enableOnExec = true := by
  unfold runAttrs
  split
  · exact (AttachedAttrs.benchmarkBinDynamic _).enableOnExec
  · exact AttachedAttrs.benchmarkBin.enableOnExec

theorem measures_mainOps (supported : Bool) (cli : CliOpts) :
    Proceeds .free (mainOps supported cli) := by
  rw [mainOps_eq]
  refine .append (.flatMap fun _ _ => .flatMap fun _ _ =>
    measures_measureOps (runAttrs_enableOnExec cli) _) ?_
  unfold topdownOps
  split
  · exact .flatMap fun _ _ => measures_measureBinOps _
  · rfl

/-! ### What the calls of a phase are -/

theorem next_free {op : Op} {q : Phase} (h : Phase.next .free op = some q) :
    op = .runToEnd ∧ q = .free ∨ ∃ attrs : List PerfEventAttr, op = .processAttach attrs ∧
      (∀ attr ∈ attrs, attr.enableOnExec = true) ∧ q = .attached attrs.length false := by
  cases op with
  | runToEnd => exact .inl ⟨rfl, (Option.some.inj h).symm⟩
  | processAttach attrs =>
    simp only [Phase.next] at h
    split at h <;> cases h
    exact .inr ⟨attrs, rfl, ‹_›, rfl⟩
  | spawn | reopen _ | start _ | stop _ | sleepMs _ | clockBegin | clockEnd | waitpid
  | waitWithTimeout _ => cases h

theorem next_attached {n : ℕ} {timed : Bool} {op : Op} {q : Phase}
    (h : Phase.next (.attached n timed) op = some q) :
    (∃ ms, op = .sleepMs ms ∧ q = .attached n timed) ∨
      (op = .clockBegin ∧ q = .attached n true) ∨ op.isWait = true ∧ q = .awaited n timed := by
  cases op with
  | sleepMs ms => exact .inl ⟨ms, rfl, (Option.some.inj h).symm⟩
  | clockBegin =>
    cases timed <;> cases h
    exact .inr (.inl ⟨rfl, rfl⟩)
  | waitpid | waitWithTimeout _ => exact .inr (.inr ⟨rfl, (Option.some.inj h).symm⟩)
  | runToEnd | processAttach _ | spawn | reopen _ | start _ | stop _ | clockEnd => cases h

theorem next_awaited {n : ℕ} {timed : Bool} {op : Op} {q : Phase}
    (h : Phase.next (.awaited n timed) op = some q) :
    (op = .clockEnd ∧ timed = true ∧ q = .awaited n false) ∨
      op = .stop n ∧ timed = false ∧ q = .free := by
  cases timed with
  | true =>
    cases op with
    | clockEnd => exact .inl ⟨rfl, rfl, (Option.some.inj h).symm⟩
    | runToEnd | processAttach _ | spawn | reopen _ | start _ | stop _ | sleepMs _ | clockBegin
    | waitpid | waitWithTimeout _ => cases h
  | false =>
    cases op with
    | stop m =>
      simp only [Phase.next] at h
      split at h <;> cases h
      exact .inr ⟨by rw [‹m = n›], rfl, rfl⟩
    | runToEnd | processAttach _ | spawn | reopen _ | start _ | sleepMs _ | clockBegin | clockEnd
    | waitpid | waitWithTimeout _ => cases h

/-! ### The counters of the measurement under way -/

/-- The state as the first `n` counters see it, with the work `us`. -/
def State.view (s : State U) (n : ℕ) (us : List U) : State U :=
  { s with executed := us, counters := fun k => if k < n then s.counters k else {} }

theorem counters_view {n k : ℕ} (hk : k < n) (us : List U) :
    (s.view n us).counters k = s.counters k := if_pos hk

theorem view_setCounter (s : State U) {n i : ℕ} (us : List U) (c : Counter U) (hi : i < n) :
    (s.setCounter i c).view n us = (s.view n us).setCounter i c := by
  simp only [State.view, State.setCounter, State.mk.injEq, and_true, true_and]
  funext k
  by_cases hk : k = i
  · subst hk
    simp [hi]
  · simp [hk]

theorem view_setCounter_of_le (s : State U) {n i : ℕ} (us : List U) (c : Counter U) (hi : n ≤ i) :
    (s.setCounter i c).view n us = s.view n us := by
  simp only [State.view, State.setCounter, State.mk.injEq, and_true, true_and]
  funext k
  by_cases hk : k = i
  · subst hk
    simp [Nat.not_lt.mpr hi]
  · simp [hk]

/-- One more counter is opened. -/
theorem view_perfEventOpen (s : State U) (i : ℕ) (us : List U) (attr : PerfEventAttr) :
    ((s.perfEventOpen ok i attr).view (i + 1) us) = (s.view i us).perfEventOpen ok i attr := by
  simp only [State.view, State.perfEventOpen, State.setCounter, State.mk.injEq, and_true, true_and]
  funext k
  by_cases hk : k = i
  · subst hk
    simp
  · have hlt : k < i + 1 ↔ k < i := by omega
    simp [hk, hlt]

/-- The work in a step. -/
def Label.units : Label U → List U
  | .work u => [u]
  | .parent _ | .stub _ | .exit | .tick _ => []

theorem view_execve (s : State U) (n : ℕ) (us : List U) :
    (execve s).view n us = execve (s.view n us) := by
  simp only [State.view, execve, State.mk.injEq, and_true, true_and]
  funext k
  split <;> rfl

theorem view_work (sees : ℕ → U → Bool) (s : State U) (n : ℕ) (us : List U) (u : U) :
    (work sees u s).view n (us ++ [u]) = work sees u (s.view n us) := by
  simp only [State.view, work, State.mk.injEq, and_true, true_and]
  refine ⟨?_, rfl⟩
  funext k
  by_cases hk : k < n
  · simp [hk]
  · simp [hk]

theorem stubStep_view (n : ℕ) (us : List U) (h : stubStep ok s = some t) :
    stubStep ok (s.view n us) = some (t.view n us) := by
  unfold stubStep at h
  split at h
  case h_1 todo hc => cases h; simp only [stubStep, State.view, hc]
  case h_2 todo hc =>
    split at h <;> cases h
    simp only [stubStep, State.view, hc]
    exact if_pos ‹_›
  case h_3 todo hc => cases h; simp only [stubStep, State.view, hc]
  case h_4 todo hc =>
    cases h
    simp only [stubStep]
    rw [show (s.view n us).child = s.child from rfl, hc]
    cases ok with
    | true => exact congrArg some (view_execve s n us).symm
    | false => rfl
  case h_5 todo hc => cases h; simp only [stubStep, State.view, hc]
  case h_6 => cases h

/-- What is no call of the parent goes on in the same way under the view. -/
theorem Acts.view (h : Acts sees s t l) (n : ℕ) (us : List U) :
    Acts sees (s.view n us) (t.view n (us ++ l.units)) l := by
  have hquiet (l : Label U) (hl : l.units = []) : us ++ l.units = us := by
    rw [hl, List.append_nil]
  cases h with
  | stub ok call =>
    rw [hquiet (.stub ok) rfl]
    exact .stub ok (stubStep_view n us call)
  | work u child eq =>
    subst eq
    exact .work u child (view_work sees s n us u)
  | exit may eq =>
    subst eq
    rw [hquiet .exit rfl]
    exact .exit may rfl
  | tick ns clock le eq =>
    subst eq
    rw [hquiet (.tick ns) rfl]
    exact .tick ns clock le rfl

/-! ### The invariant of the ledger -/

/-- The first `n` counters have counted what they see of the work so far, and go on. -/
def CountingUpTo (sees : ℕ → U → Bool) (r : Ledger U) (n : ℕ) : Prop :=
  Counting sees (r.state.view n r.units)

/-- The readings of the clock are in order. -/
def Ledger.Clocked (r : Ledger U) (timed : Bool) : Prop :=
  if timed then r.start ≤ r.state.clock.ns else r.start ≤ r.stop

/-- Where an execution stands between its measurements and in them. -/
inductive Entering (sees : ℕ → U → Bool) (r : Ledger U) : Prop
  /-- Up to the `fork`, and after the last call on the counters. -/
  | free (prog : Proceeds .free r.state.prog) (gone : Gone r.state)
    (ctrl : r.state.ctrl = .idle ∨
      r.state.ctrl = .forking ∧ r.state.pipe.bytes = 0 ∧ r.state.pipe.parentWrite = true)
    (units : r.units = []) (clocked : r.Clocked false)
  /-- The child is held while the counters are opened, `i` of them so far. -/
  | opening (attrs : List PerfEventAttr) (rest : List Op) (i : ℕ)
    (was : r.state.prog = .processAttach attrs :: rest)
    (onExec : ∀ attr ∈ attrs, attr.enableOnExec = true)
    (next : Proceeds (.attached attrs.length false) rest) (held : Held r.state)
    (ctrl : r.state.ctrl = .closeRead ∧ i = 0 ∨
      i ≤ attrs.length ∧ r.state.ctrl = atMember attrs.length i (.attach i) .write)
    (units : r.units = []) (counting : CountingUpTo sees r i) (clocked : r.Clocked false)
  /-- The byte is written. -/
  | releasing (attrs : List PerfEventAttr) (rest : List Op)
    (was : r.state.prog = .processAttach attrs :: rest)
    (next : Proceeds (.attached attrs.length false) rest) (ctrl : r.state.ctrl = .closeWrite)
    (counting : CountingUpTo sees r attrs.length) (clocked : r.Clocked false)
  | attached (n : ℕ) (timed : Bool) (prog : Proceeds (.attached n timed) r.state.prog)
    (counting : CountingUpTo sees r n) (clocked : r.Clocked timed)
  | awaited (n : ℕ) (timed : Bool) (prog : Proceeds (.awaited n timed) r.state.prog)
    (gone : Gone r.state) (counting : CountingUpTo sees r n) (clocked : r.Clocked timed)

/-- The counters of a measurement have counted the work of its own child. -/
structure Measured.Own (sees : ℕ → U → Bool) (m : Measured U) : Prop where
  counted : ∀ k < m.size, (m.counters k).opened = true →
    (m.counters k).counted = m.units.filter (sees k)
  clock : m.start ≤ m.stop

theorem after_acts {r : Ledger U} (h : Acts sees r.state t l) :
    r.after l t = { r with state := t, units := r.units ++ l.units } := by
  cases h <;> simp [Ledger.after, Label.units]

/-- A call that neither reads the clock nor stops the counters. -/
theorem after_call {r : Ledger U} {op : Op} {rest : List Op} (hprog : r.state.prog = op :: rest)
    (hop : op ≠ .clockBegin ∧ op ≠ .clockEnd ∧ ∀ n, op ≠ .stop n) :
    r.after (.parent ok) t = { r with state := t } := by
  unfold Ledger.after
  rw [hprog, List.head?_cons]
  cases op with
  | clockBegin => exact absurd rfl hop.1
  | clockEnd => exact absurd rfl hop.2.1
  | stop n => exact absurd rfl (hop.2.2 n)
  | runToEnd | processAttach _ | spawn | reopen _ | start _ | sleepMs _ | waitpid
  | waitWithTimeout _ => rfl

theorem countingUpTo_zero (r : Ledger U) : CountingUpTo sees r 0 := by
  have hnone (k : ℕ) : ((r.state.view 0 r.units).counters k).opened = false := by
    simp [State.view]
  exact ⟨fun k hk => absurd hk (by simp [hnone]), fun k hk => absurd hk (by simp [hnone]),
    fun _ k hk => absurd hk (by simp [hnone])⟩

theorem parentStep_waits {op : Op} {rest : List Op} (hprog : s.prog = op :: rest)
    (hwait : op.isWait = true) (h : parentStep ok s = some t) : Waits s t := by
  cases op with
  | waitpid =>
    simp only [parentStep, hprog] at h
    exact waitpidStep_waits h
  | waitWithTimeout timeoutMs =>
    simp only [parentStep, hprog] at h
    exact waitStep_waits h
  | spawn | runToEnd | processAttach _ | reopen _ | start _ | stop _ | sleepMs _ | clockBegin
  | clockEnd => cases hwait

/-- What stopping a counter keeps. -/
structure StopsCounting (sees : ℕ → U → Bool) (r : Ledger U) (n : ℕ) (u : State U) : Prop where
  prog : u.prog = r.state.prog
  gone : Gone u
  counting : Counting sees (u.view n r.units)

theorem stopStep_loops {r : Ledger U} {n : ℕ} (h : stopStep n r.state = some t)
    (counting : CountingUpTo sees r n) (gone : Gone r.state) :
    ∃ u i, StopsCounting sees r n u ∧ t = u.loop n i (.disable i) := by
  obtain rfl | ⟨i, rfl⟩ := stopStep_cases h
  · exact ⟨r.state, 0, ⟨rfl, gone, counting⟩, rfl⟩
  · refine ⟨r.state.setCounter i { r.state.counters i with enabled := false }, i + 1,
      ⟨rfl, gone, ?_⟩, rfl⟩
    by_cases hi : i < n
    · rw [view_setCounter _ _ _ hi, ← counters_view hi r.units]
      exact Counting.disable counting gone.ne_program i
    · rw [view_setCounter_of_le _ _ _ (Nat.not_lt.mp hi)]
      exact counting

theorem state_after (r : Ledger U) (l : Label U) (t : State U) : (r.after l t).state = t := by
  unfold Ledger.after
  split
  · rfl
  · rfl
  · rfl
  · split <;> rfl
  · rfl

/-- Only a call that stops counters enters anything. -/
theorem results_after {r : Ledger U} {op : Op} {rest : List Op} (was : r.state.prog = op :: rest)
    (hstop : ∀ n, op ≠ .stop n) : (r.after (.parent ok) t).results = r.results := by
  unfold Ledger.after
  rw [was, List.head?_cons]
  cases op with
  | stop n => exact absurd rfl (hstop n)
  | runToEnd | processAttach _ | spawn | reopen _ | start _ | sleepMs _ | clockBegin | clockEnd
  | waitpid | waitWithTimeout _ => rfl

namespace Entering
variable {r : Ledger U} {attrs : List PerfEventAttr} {rest : List Op}

theorem background (hs : Entering sees r) (h : Acts sees r.state t l) :
    Entering sees (r.after l t) := by
  have hb := h.background
  have hview (n : ℕ) (hc : CountingUpTo sees r n) :
      CountingUpTo sees { r with state := t, units := r.units ++ l.units } n :=
    hc.background (h.view n r.units)
  have hclocked (timed : Bool) (hc : r.Clocked timed) :
      Ledger.Clocked { r with state := t, units := r.units ++ l.units } timed := by
    have hle := h.clock_le
    cases timed with
    | true => exact Nat.le_trans hc hle
    | false => exact hc
  rw [after_acts h]
  cases hs with
  | free prog gone ctrl units clocked =>
    obtain ⟨hchild, hpipe, -⟩ := gone.background h
    have hunits : l.units = [] := by
      cases h with
      | work u child eq => exact absurd child gone.ne_program
      | stub | exit | tick => rfl
    have hgone : Gone t := by rwa [Gone, hchild]
    refine .free (hb.prog ▸ prog) hgone ?_ ?_ (hclocked _ clocked)
    · rw [hb.ctrl, hpipe]
      exact ctrl
    · rw [units, hunits, List.append_nil]
  | opening attrs rest i was onExec next held ctrl units counting clocked =>
    have hunits : l.units = [] := by
      obtain ⟨k, -, hchild⟩ := held.child
      cases h with
      | work u child eq => rw [hchild] at child; cases child
      | stub | exit | tick => rfl
    refine .opening attrs rest i (hb.prog.trans was) onExec next (held.background h).1 ?_ ?_
      (hview _ counting) (hclocked _ clocked)
    · rwa [hb.ctrl]
    · rw [units, hunits, List.append_nil]
  | releasing attrs rest was next ctrl counting clocked =>
    exact .releasing attrs rest (hb.prog.trans was) next (hb.ctrl.trans ctrl) (hview _ counting)
      (hclocked _ clocked)
  | attached n timed prog counting clocked =>
    exact .attached n timed (hb.prog ▸ prog) (hview _ counting) (hclocked _ clocked)
  | awaited n timed prog gone counting clocked =>
    have hgone : Gone t := by rwa [Gone, (gone.background h).1]
    exact .awaited n timed (hb.prog ▸ prog) hgone (hview _ counting) (hclocked _ clocked)

/-- A hook runs while no child is there. -/
theorem runToEnd (was : r.state.prog = .runToEnd :: rest) (next : Proceeds .free rest)
    (gone : Gone r.state) (units : r.units = []) (clocked : r.Clocked false)
    (h : parentStep ok r.state = some t) : Entering sees (r.after (.parent ok) t) := by
  rw [after_call was ⟨Op.noConfusion, Op.noConfusion, fun _ => Op.noConfusion⟩]
  simp only [parentStep, was, Option.some.injEq] at h
  cases ok with
  | true =>
    subst h
    have hprog : r.state.ret.prog = rest := by simp [State.ret, was]
    exact .free (hprog ▸ next) gone (.inl rfl) units clocked
  | false =>
    subst h
    exact .free rfl gone (.inl rfl) units clocked

/-- Up to the `fork`, no counter of the new measurement is open. -/
theorem launch (was : r.state.prog = .processAttach attrs :: rest)
    (onExec : ∀ attr ∈ attrs, attr.enableOnExec = true)
    (next : Proceeds (.attached attrs.length false) rest) (prog : Proceeds .free r.state.prog)
    (gone : Gone r.state) (ctrl : r.state.ctrl = .idle ∨
      r.state.ctrl = .forking ∧ r.state.pipe.bytes = 0 ∧ r.state.pipe.parentWrite = true)
    (units : r.units = []) (clocked : r.Clocked false) (h : attachStep ok attrs r.state = some t) :
    Entering sees (r.after (.parent ok) t) := by
  rw [after_call was ⟨Op.noConfusion, Op.noConfusion, fun _ => Op.noConfusion⟩]
  cases attachStep_cases h with
  | pipes place succeeds eq =>
    subst eq
    exact .free prog gone (.inr ⟨rfl, rfl, rfl⟩) units clocked
  | forks place succeeds eq =>
    subst eq
    obtain hctrl | ⟨-, hbytes, hwrite⟩ := ctrl
    · rw [place] at hctrl
      cases hctrl
    · exact .opening attrs rest 0 was onExec next ⟨⟨0, by omega, rfl⟩, hbytes, hwrite, rfl⟩
        (.inl ⟨rfl, rfl⟩) units (countingUpTo_zero _) clocked
  | raises place fails pipe eq =>
    subst eq
    exact .free rfl gone (.inl rfl) units clocked
  | closesRead place eq | opens i attr place member eq | writes place eq | returns place eq =>
    rcases ctrl with hctrl | ⟨hctrl, -⟩ <;> rw [place] at hctrl <;> cases hctrl

/-- While the child is held, the counters are opened one after the other. -/
theorem attach {i : ℕ} (was : r.state.prog = .processAttach attrs :: rest)
    (onExec : ∀ attr ∈ attrs, attr.enableOnExec = true)
    (next : Proceeds (.attached attrs.length false) rest) (held : Held r.state)
    (ctrl : r.state.ctrl = .closeRead ∧ i = 0 ∨
      i ≤ attrs.length ∧ r.state.ctrl = atMember attrs.length i (.attach i) .write)
    (units : r.units = []) (counting : CountingUpTo sees r i) (clocked : r.Clocked false)
    (h : attachStep ok attrs r.state = some t) : Entering sees (r.after (.parent ok) t) := by
  have hpast : r.state.ctrl.past = true := by
    obtain ⟨hctrl, -⟩ | ⟨-, hctrl⟩ := ctrl <;> rw [hctrl]
    · rfl
    · exact atMember_past _ _
  rw [after_call was ⟨Op.noConfusion, Op.noConfusion, fun _ => Op.noConfusion⟩]
  cases attachStep_cases h with
  | pipes place succeeds eq =>
    rw [place] at hpast
    cases hpast
  | forks place succeeds eq =>
    rw [place] at hpast
    cases hpast
  | raises place fails pipe eq =>
    rcases place with place | place <;> rw [place] at hpast <;> cases hpast
  | closesRead place eq =>
    subst eq
    obtain ⟨-, rfl⟩ | ⟨-, hctrl⟩ := ctrl
    · exact .opening attrs rest 0 was onExec next
        ⟨held.child, held.bytes, held.parentWrite, held.log⟩ (.inr ⟨Nat.zero_le _, rfl⟩) units
        (countingUpTo_zero _) clocked
    · rw [place, atMember] at hctrl
      split at hctrl <;> cases hctrl
  | opens j attr place member eq =>
    subst eq
    obtain ⟨hctrl, -⟩ | ⟨-, hctrl⟩ := ctrl
    · rw [place] at hctrl
      cases hctrl
    · rw [place, atMember] at hctrl
      split at hctrl <;> cases hctrl
      have hlt : i < attrs.length := ‹_›
      have hattr : attr.enableOnExec = true := onExec attr (List.mem_of_getElem? member)
      have hchild : (r.state.view i r.units).child ≠ .program := by
        obtain ⟨k, -, hchild⟩ := held.child
        exact fun hprogram => by rw [State.view, hchild] at hprogram; cases hprogram
      have hopened : Counting sees ((r.state.perfEventOpen ok i attr).view (i + 1) r.units) := by
        rw [view_perfEventOpen]
        exact Counting.perfEventOpen counting units hchild hattr i
      exact .opening attrs rest (i + 1) was onExec next
        ⟨held.child, held.bytes, held.parentWrite, held.log⟩ (.inr ⟨hlt, rfl⟩) units
        (hopened.quiet rfl rfl id) clocked
  | writes place eq =>
    subst eq
    obtain ⟨hctrl, -⟩ | ⟨hle, hctrl⟩ := ctrl
    · rw [place] at hctrl
      cases hctrl
    · rw [place, atMember] at hctrl
      split at hctrl
      · cases hctrl
      · obtain rfl : i = attrs.length := by omega
        exact .releasing attrs rest was next rfl (Counting.quiet counting rfl rfl id) clocked
  | returns place eq =>
    obtain ⟨hctrl, -⟩ | ⟨-, hctrl⟩ := ctrl
    · rw [place] at hctrl
      cases hctrl
    · rw [place, atMember] at hctrl
      split at hctrl <;> cases hctrl

theorem release (was : r.state.prog = .processAttach attrs :: rest)
    (next : Proceeds (.attached attrs.length false) rest) (ctrl : r.state.ctrl = .closeWrite)
    (counting : CountingUpTo sees r attrs.length) (clocked : r.Clocked false)
    (h : attachStep ok attrs r.state = some t) : Entering sees (r.after (.parent ok) t) := by
  rw [after_call was ⟨Op.noConfusion, Op.noConfusion, fun _ => Op.noConfusion⟩]
  simp only [attachStep, ctrl, Option.some.injEq] at h
  subst h
  have hprog : r.state.ret.prog = rest := by simp [State.ret, was]
  exact .attached attrs.length false (hprog ▸ next) (Counting.quiet counting rfl rfl id) clocked

/-- With the counters on the child, the parent sleeps, starts the clock and waits. -/
theorem watch {n : ℕ} {timed : Bool} {op : Op} {q : Phase} (was : r.state.prog = op :: rest)
    (hnext : Phase.next (.attached n timed) op = some q) (hrest : Proceeds q rest)
    (prog : Proceeds (.attached n timed) r.state.prog) (counting : CountingUpTo sees r n)
    (clocked : r.Clocked timed) (h : parentStep ok r.state = some t) :
    Entering sees (r.after (.parent ok) t) := by
  obtain ⟨ms, rfl, rfl⟩ | ⟨rfl, rfl⟩ | ⟨hwait, rfl⟩ := next_attached hnext
  · rw [after_call was ⟨Op.noConfusion, Op.noConfusion, fun _ => Op.noConfusion⟩]
    simp only [parentStep, was] at h
    obtain rfl | ⟨-, rfl⟩ := sleepStep_cases h
    · have hprog : r.state.ret.prog = rest := by simp [State.ret, was]
      exact .attached n timed (hprog ▸ hrest) (Counting.quiet counting rfl rfl id) clocked
    · exact .attached n timed prog (Counting.quiet counting rfl rfl id) clocked
  · have hafter : r.after (.parent ok) t = { r with state := t, start := r.state.clock.ns } := by
      simp [Ledger.after, was]
    rw [hafter]
    simp only [parentStep, was, Option.some.injEq] at h
    subst h
    have hprog : r.state.ret.prog = rest := by simp [State.ret, was]
    exact .attached n true (hprog ▸ hrest) (Counting.quiet counting rfl rfl id) (Nat.le_refl _)
  · have hplain : op ≠ .clockBegin ∧ op ≠ .clockEnd ∧ ∀ n, op ≠ .stop n := by
      refine ⟨?_, ?_, fun n => ?_⟩ <;> rintro rfl <;> cases hwait
    rw [after_call was hplain]
    obtain ⟨ctrl, log, rfl⟩ | ⟨child, log, gone, rfl⟩ := parentStep_waits was hwait h
    · exact .attached n timed prog (Counting.quiet counting rfl rfl id) clocked
    · have hprog : r.state.prog.tail = rest := by simp [was]
      exact .awaited n timed (hprog ▸ hrest) gone
        (Counting.quiet counting rfl rfl fun hchild => absurd hchild gone.ne_program) clocked

theorem endClock {n : ℕ} (was : r.state.prog = .clockEnd :: rest)
    (hrest : Proceeds (.awaited n false) rest) (gone : Gone r.state)
    (counting : CountingUpTo sees r n) (clocked : r.Clocked true)
    (h : parentStep ok r.state = some t) : Entering sees (r.after (.parent ok) t) := by
  have hafter : r.after (.parent ok) t = { r with state := t, stop := r.state.clock.ns } := by
    simp [Ledger.after, was]
  rw [hafter]
  simp only [parentStep, was, Option.some.injEq] at h
  subst h
  have hprog : r.state.ret.prog = rest := by simp [State.ret, was]
  exact .awaited n false (hprog ▸ hrest) gone (Counting.quiet counting rfl rfl id) clocked

/-- When the counters are stopped, they hold the work of the measurement, and it is entered. -/
theorem stop {n : ℕ} (was : r.state.prog = .stop n :: rest) (next : Proceeds .free rest)
    (prog : Proceeds (.awaited n false) r.state.prog) (gone : Gone r.state)
    (counting : CountingUpTo sees r n) (clocked : r.Clocked false)
    (h : parentStep ok r.state = some t) : Entering sees (r.after (.parent ok) t) ∧
      ∀ m ∈ (r.after (.parent ok) t).results, m ∈ r.results ∨ m.Own sees := by
  simp only [parentStep, was] at h
  obtain ⟨u, i, hu, rfl⟩ := stopStep_loops h counting gone
  unfold State.loop
  split
  · have hafter : r.after (.parent ok) (u.goto (.disable i)) =
        { r with state := u.goto (.disable i) } := by
      simp [Ledger.after, was, State.goto]
    rw [hafter]
    refine ⟨.awaited n false (hu.prog ▸ prog) hu.gone (hu.counting.quiet rfl rfl id) ?_,
      fun m hm => .inl hm⟩
    exact clocked
  · have hafter : r.after (.parent ok) u.ret = { r with
        state := u.ret
        units := []
        results := r.results ++ [⟨n, u.counters, r.units, r.start, r.stop⟩] } := by
      simp [Ledger.after, was, State.ret]
    have hprog : u.ret.prog = rest := by simp [State.ret, hu.prog, was]
    rw [hafter]
    refine ⟨.free (hprog ▸ next) hu.gone (.inl rfl) rfl clocked, fun m hm => ?_⟩
    rcases List.mem_append.mp hm with hm | hm
    · exact .inl hm
    · rw [List.mem_singleton.mp hm]
      refine .inr ⟨fun k hk hopened => ?_, clocked⟩
      have hcounted := hu.counting.counted k
      rw [counters_view hk] at hcounted
      exact hcounted hopened

/-- What a call of the parent enters is about the work of its own measurement. -/
theorem parent (hs : Entering sees r) (h : parentStep ok r.state = some t) :
    Entering sees (r.after (.parent ok) t) ∧
      ∀ m ∈ (r.after (.parent ok) t).results, m ∈ r.results ∨ m.Own sees := by
  obtain ⟨op, rest, was⟩ : ∃ op rest, r.state.prog = op :: rest := by
    cases hprog : r.state.prog with
    | nil => simp [parentStep, hprog] at h
    | cons op rest => exact ⟨op, rest, rfl⟩
  have hkeeps (hstop : ∀ n, op ≠ .stop n) :
      ∀ m ∈ (r.after (.parent ok) t).results, m ∈ r.results ∨ m.Own sees := by
    rw [results_after was hstop]
    exact fun m hm => .inl hm
  cases hs with
  | free prog gone ctrl units clocked =>
    obtain ⟨q, hnext, hrest⟩ := Proceeds.cons (was ▸ prog)
    obtain ⟨rfl, rfl⟩ | ⟨attrs, rfl, onExec, rfl⟩ := next_free hnext
    · exact ⟨runToEnd was hrest gone units clocked h, hkeeps fun _ => Op.noConfusion⟩
    · simp only [parentStep, was] at h
      exact ⟨launch was onExec hrest prog gone ctrl units clocked h, hkeeps fun _ => Op.noConfusion⟩
  | opening attrs rest' i was' onExec next held ctrl units counting clocked =>
    obtain ⟨rfl, rfl⟩ := List.cons.inj (was.symm.trans was')
    simp only [parentStep, was] at h
    exact ⟨attach was onExec next held ctrl units counting clocked h,
      hkeeps fun _ => Op.noConfusion⟩
  | releasing attrs rest' was' next ctrl counting clocked =>
    obtain ⟨rfl, rfl⟩ := List.cons.inj (was.symm.trans was')
    simp only [parentStep, was] at h
    exact ⟨release was next ctrl counting clocked h, hkeeps fun _ => Op.noConfusion⟩
  | attached n timed prog counting clocked =>
    obtain ⟨q, hnext, hrest⟩ := Proceeds.cons (was ▸ prog)
    refine ⟨watch was hnext hrest prog counting clocked h, hkeeps fun m => ?_⟩
    rintro rfl
    obtain ⟨ms, hop, -⟩ | ⟨hop, -⟩ | ⟨hop, -⟩ := next_attached hnext <;> cases hop
  | awaited n timed prog gone counting clocked =>
    obtain ⟨q, hnext, hrest⟩ := Proceeds.cons (was ▸ prog)
    obtain ⟨rfl, rfl, rfl⟩ | ⟨rfl, rfl, rfl⟩ := next_awaited hnext
    · exact ⟨endClock was hrest gone counting clocked h, hkeeps fun _ => Op.noConfusion⟩
    · exact stop was hrest prog gone counting clocked h

end Entering

/-! ### Whole executions -/

/-- How many counters a call stops. -/
def Op.stops : Op → Option ℕ
  | .stop n => some n
  | _ => none

/-- What an execution keeps: the entries are about their own measurements, no work is in two
of them or in none, and there is one for each `gr.end()` that has returned. -/
structure Kept (sees : ℕ → U → Bool) (sizes : List ℕ) (r : Ledger U) : Prop where
  stands : Entering sees r
  own : ∀ m ∈ r.results, m.Own sees
  work : r.results.flatMap Measured.units ++ r.units = r.state.executed
  sizes : r.state.raised = false →
    r.results.map Measured.size ++ r.state.prog.filterMap Op.stops = sizes

/-- A call of the parent does no work; a call that stops the counters enters the work. -/
theorem work_after (r : Ledger U) (l : Label U) (t : State U) :
    (r.after l t).results.flatMap Measured.units ++ (r.after l t).units =
      r.results.flatMap Measured.units ++ r.units ++ l.units := by
  cases l with
  | work u => simp [Ledger.after, Label.units]
  | stub _ | exit | tick _ => simp [Ledger.after, Label.units]
  | parent ok =>
    simp only [Ledger.after, Label.units, List.append_nil]
    cases r.state.prog.head? with
    | none => rfl
    | some op =>
      cases op with
      | stop n => dsimp only; split <;> simp
      | runToEnd | processAttach _ | spawn | reopen _ | start _ | sleepMs _ | clockBegin
      | clockEnd | waitpid | waitWithTimeout _ => rfl

theorem executed_step (h : step sees s l = some t) : t.executed = s.executed ++ l.units := by
  obtain ⟨ok, rfl, hcall⟩ | hacts := step_cases h
  · rw [(parentStep_outcome hcall).work.1, Label.units, List.append_nil]
  · cases hacts with
    | stub ok call =>
      obtain ⟨_, -, _, _, -, rfl⟩ | ⟨_, -, rfl⟩ := stubStep_stubs call <;>
        exact (List.append_nil _).symm
    | work u child eq => subst eq; rfl
    | exit may eq => subst eq; exact (List.append_nil _).symm
    | tick ns clock le eq => subst eq; exact (List.append_nil _).symm

/-- A call of the parent stops counters exactly when it enters them. -/
theorem sizes_parent {r : Ledger U} (h : parentStep ok r.state = some t) (ht : t.raised = false) :
    (r.after (.parent ok) t).results.map Measured.size ++ t.prog.filterMap Op.stops =
      r.results.map Measured.size ++ r.state.prog.filterMap Op.stops := by
  obtain ⟨op, rest, was⟩ : ∃ op rest, r.state.prog = op :: rest := by
    cases hprog : r.state.prog with
    | nil => simp [parentStep, hprog] at h
    | cons op rest => exact ⟨op, rest, rfl⟩
  by_cases hstop : ∃ n, op = .stop n
  · obtain ⟨n, rfl⟩ := hstop
    simp only [parentStep, was] at h
    have hloop (u : State U) (hu : u.prog = r.state.prog) (i : ℕ)
        (hul : t = u.loop n i (.disable i)) :
        (r.after (.parent ok) t).results.map Measured.size ++ t.prog.filterMap Op.stops =
          r.results.map Measured.size ++ r.state.prog.filterMap Op.stops := by
      subst hul
      unfold State.loop
      split
      · simp [Ledger.after, was, State.goto, hu]
      · simp [Ledger.after, was, State.ret, hu, Op.stops]
    obtain rfl | ⟨i, rfl⟩ := stopStep_cases h
    · exact hloop r.state rfl 0 rfl
    · exact hloop (r.state.setCounter i { r.state.counters i with enabled := false }) rfl (i + 1)
        rfl
  · have hnone : op.stops = none := by
      cases op with
      | stop n => exact absurd ⟨n, rfl⟩ hstop
      | runToEnd | processAttach _ | spawn | reopen _ | start _ | sleepMs _ | clockBegin
      | clockEnd | waitpid | waitWithTimeout _ => rfl
    have hresults : (r.after (.parent ok) t).results = r.results :=
      results_after was fun n hop => hstop ⟨n, hop⟩
    rw [hresults]
    obtain ⟨-, hprog, -⟩ | ⟨-, hprog, -, -⟩ | ⟨-, -, -, hraised⟩ := parentStep_outcome h
    · rw [hprog]
    · rw [hprog, was, List.tail_cons, List.filterMap_cons_none hnone]
    · rw [ht] at hraised
      cases hraised

theorem Kept.step {sizes : List ℕ} {r r' : Ledger U} (hr : Kept sees sizes r)
    (h : ledgerStep sees r l = some r') : Kept sees sizes r' := by
  obtain ⟨t, ht, rfl⟩ := Option.map_eq_some_iff.mp h
  have hstate : (r.after l t).state = t := state_after r l t
  have hwork : (r.after l t).results.flatMap Measured.units ++ (r.after l t).units =
      (r.after l t).state.executed := by
    rw [hstate, work_after, hr.work, executed_step ht]
  obtain ⟨ok, rfl, hcall⟩ | hacts := step_cases ht
  · obtain ⟨hstands, hresults⟩ := hr.stands.parent hcall
    refine ⟨hstands, fun m hm => (hresults m hm).elim (hr.own m) id, hwork, fun hraised => ?_⟩
    rw [hstate] at hraised ⊢
    rw [sizes_parent hcall hraised]
    refine hr.sizes ?_
    by_contra hwas
    rw [step_raised ht (by simpa using hwas)] at hraised
    cases hraised
  · have hresults : (r.after l t).results = r.results := by rw [after_acts hacts]
    have hb := hacts.background
    refine ⟨hr.stands.background hacts, fun m hm => hr.own m (hresults ▸ hm), hwork,
      fun hraised => ?_⟩
    rw [hstate, hb.raised] at hraised
    rw [hresults, hstate, hb.prog]
    exact hr.sizes hraised

theorem kept_ledger {prog : List Op} (h : Proceeds .free prog) (clock : Clock) :
    Kept sees (prog.filterMap Op.stops) (ledger prog clock : Ledger U) where
  stands := .free h (.inl rfl) (.inl rfl) rfl (Nat.le_refl _)
  own _ hm := by cases hm
  work := rfl
  sizes _ := rfl

theorem kept_run {prog : List Op} (hprog : Proceeds .free prog) {clock : Clock}
    {ls : List (Label U)} {r : Ledger U}
    (h : run (ledgerStep sees) (ledger prog clock) ls = some r) :
    Kept sees (prog.filterMap Op.stops) r :=
  run_invariant (fun _ _ _ hr h => hr.step h) (kept_ledger hprog clock) h

/-- The counters of the measurements of `main`, one measurement after the other. -/
def mainSizes (supported : Bool) (cli : CliOpts) : List ℕ :=
  List.replicate (cli.paths.length * cli.nRuns) (runAttrs cli).length ++
    if TopdownMeasured supported cli then List.replicate cli.paths.length 5 else []

theorem stops_hookOps (cmd : Option String) : (hookOps cmd).filterMap Op.stops = [] := by
  cases cmd <;> rfl

theorem stops_measureOps (opts : BenchmarkOpts) (attrs : List PerfEventAttr) :
    (measureOps opts attrs).filterMap Op.stops = [attrs.length] := by
  have hdelay : (delayOps opts).filterMap Op.stops = [] := by
    unfold delayOps
    split <;> rfl
  simp [measureOps, timedOps, finishOps, List.filterMap_append, List.filterMap_cons, stops_hookOps,
    hdelay, Op.stops]

theorem stops_measureBinOps (opts : BenchmarkOpts) :
    (measureBinOps true opts).filterMap Op.stops = [5] := by
  simp [measureBinOps, List.filterMap_append, List.filterMap_cons, stops_hookOps, Op.stops]

theorem flatMap_const {α β : Type*} (as : List α) (b : List β) :
    (as.flatMap fun _ => b) = (List.replicate as.length b).flatten := by
  rw [← List.map_const', List.flatMap_def]

theorem stops_mainOps (supported : Bool) (cli : CliOpts) :
    (mainOps supported cli).filterMap Op.stops = mainSizes supported cli := by
  rw [mainOps_eq, List.filterMap_append, mainSizes]
  congr 1
  · simp only [runsOps, flatMap_const]
    simp [stops_measureOps]
  · unfold topdownOps
    split
    · simp only [flatMap_const]
      simp [stops_measureBinOps]
    · rfl

theorem Entering.units_eq_nil {r : Ledger U} (hs : Entering sees r) (hprog : r.state.prog = []) :
    r.units = [] := by
  cases hs with
  | free prog gone ctrl units clocked => exact units
  | opening attrs rest i was => rw [was] at hprog; cases hprog
  | releasing attrs rest was => rw [was] at hprog; cases hprog
  | attached n timed prog => rw [hprog] at prog; cases prog
  | awaited n timed prog => rw [hprog] at prog; cases prog

/-- No count is carried over. In every execution of `main`, whatever the interleaving, the
counters of each measurement that has returned hold the work of its own child: each one that
is open has counted the units it sees, in order, and none from before or after. All work is
in one of the measurements, and an execution that ends without an exception has one for each
run of each path and then the top-down ones. -/
theorem main_counts {clock : Clock} {ls : List (Label U)} {r : Ledger U}
    (h : run (ledgerStep sees) (ledger (mainOps supported cli) clock) ls = some r) :
    (∀ m ∈ r.results, m.Own sees) ∧
      r.results.flatMap Measured.units ++ r.units = r.state.executed ∧
      (r.state.prog = [] → r.state.raised = false →
        r.units = [] ∧ r.results.map Measured.size = mainSizes supported cli) := by
  have hkept := kept_run (measures_mainOps supported cli) h
  refine ⟨hkept.own, hkept.work, fun hprog hraised => ⟨hkept.stands.units_eq_nil hprog, ?_⟩⟩
  have hsizes := hkept.sizes hraised
  rw [hprog, List.filterMap_nil, List.append_nil] at hsizes
  exact hsizes.trans (stops_mainOps supported cli)

/-- Two runs of `bbench -e cycles`, with two units of work in the first and one in the second. -/
def twoRuns : List (Label ℕ) :=
  let one (us : List ℕ) : List (Label ℕ) :=
    List.replicate 6 (.parent true) ++ List.replicate 4 (.stub true) ++ us.map .work ++
      [.exit] ++ List.replicate 6 (.parent true)
  one [1, 2] ++ one [3]

theorem main_counts_two : ∃ r : Ledger ℕ, run (ledgerStep fun _ _ => true)
    (ledger (mainOps false { oneRun with nRuns := 2 }) ⟨0, by decide⟩) twoRuns = some r ∧
    r.results.map Measured.units = [[1, 2], [3]] ∧
    ∀ m ∈ r.results, (m.counters 0).counted = m.units := by
  have hrun : (run (ledgerStep fun _ _ => true)
      (ledger (mainOps false { oneRun with nRuns := 2 }) ⟨0, by decide⟩) twoRuns).map
        (fun r : Ledger ℕ => (r.results.map Measured.units,
          r.results.map fun m => (m.size, (m.counters 0).opened))) =
      some ([[1, 2], [3]], [(1, true), (1, true)]) := by
    decide +kernel
  obtain ⟨r, hr, heq⟩ := Option.map_eq_some_iff.mp hrun
  rw [Prod.mk.injEq] at heq
  refine ⟨r, hr, heq.1, fun m hm => ?_⟩
  have hopened : (m.size, (m.counters 0).opened) = (1, true) := by
    have hmem := List.mem_map_of_mem (f := fun m : Measured ℕ => (m.size, (m.counters 0).opened)) hm
    rw [heq.2] at hmem
    simpa using hmem
  rw [Prod.mk.injEq] at hopened
  have hcounted := ((main_counts hr).1 m hm).counted 0 (by omega) hopened.2
  rw [hcounted, List.filter_true]

end Bbench.Process
