import Bbench.Lib.Transition
import Bbench.Process.Programs

/-! What the parent can get done. Each call can return, and a whole measurement
can come to its end: the counters open, the child starts and ends, no sleep takes
its time. A run of `main` can therefore get to any of its calls. -/

namespace Bbench.Process

open Perf Transition

variable {U : Type*} {sees : ℕ → U → Bool} {P Q R : State U → Prop} {rest : List Op}

/-- The parent is about to make these calls. -/
structure Ready (prog : List Op) (P : State U → Prop) (s : State U) : Prop where
  prog : s.prog = prog
  ctrl : s.ctrl = .idle
  holds : P s

/-- The parent can complete the calls, from `P` to `Q`. -/
def Can (sees : ℕ → U → Bool) (P : State U → Prop) (ops : List Op) (Q : State U → Prop) : Prop :=
  ∀ rest, Leads (step sees) (Ready (ops ++ rest) P) (Ready rest Q)

/-- No condition. -/
def Any (_ : State U) : Prop := True

/-- The measured program runs, and nothing has been sent to it. -/
def Running (s : State U) : Prop := s.child = .program ∧ s.log = []

namespace Can

theorem nil : Can sees P [] P := fun _ => .refl _

theorem append {a b : List Op} (ha : Can sees P a Q) (hb : Can sees Q b R) :
    Can sees P (a ++ b) R := by
  intro rest
  rw [List.append_assoc]
  exact (ha (b ++ rest)).trans (hb rest)

theorem cons {op : Op} {ops : List Op} (h : Can sees P [op] Q) (hops : Can sees Q ops R) :
    Can sees P (op :: ops) R := append h hops

theorem flatMap {α : Type*} {l : List α} {f : α → List Op} (h : ∀ a ∈ l, Can sees P (f a) P) :
    Can sees P (l.flatMap f) P := by
  induction l with
  | nil => exact nil
  | cons a l ih =>
    rw [List.flatMap_cons]
    exact (h a (by simp)).append (ih fun b hb => h b (by simp [hb]))

/-- A call that can return at once. -/
theorem of_step {op : Op} (l : Label U)
    (h : ∀ s : State U, s.prog.head? = some op → s.ctrl = .idle → P s →
      ∃ t, step sees s l = some t ∧ t.prog = s.prog.tail ∧ t.ctrl = .idle ∧ Q t) :
    Can sees P [op] Q := by
  refine fun rest => .of_step l fun s ⟨hprog, hctrl, hP⟩ => ?_
  obtain ⟨t, ht, htprog, htctrl, hQ⟩ := h s (by simp [hprog]) hctrl hP
  exact ⟨t, ht, ⟨by simp [htprog, hprog], htctrl, hQ⟩⟩

end Can

/-! ### One call at a time -/

theorem can_hook (cmd : Option String) : Can sees Any (hookOps cmd) Any := by
  unfold hookOps
  split
  · refine .of_step (.parent true) fun s hprog _ _ => ⟨s.ret, ?_, rfl, rfl, trivial⟩
    obtain ⟨rest, hrest⟩ := List.head?_eq_some_iff.mp hprog
    simp [step, parentStep, hrest]
  · exact .nil

/-- The parent has opened `i` counters on the forked child. -/
structure Attaching (attrs : List PerfEventAttr) (rest : List Op) (i : ℕ) (s : State U) : Prop where
  prog : s.prog = .processAttach attrs :: rest
  ctrl : s.ctrl = atMember attrs.length i (.attach i) .write
  child : s.child = .stub attachChild
  bytes : s.pipe.bytes = 0
  log : s.log = []

theorem leads_attaching (attrs : List PerfEventAttr) (rest : List Op) :
    Leads (step sees) (Ready (.processAttach attrs :: rest) P) (Attaching attrs rest 0) := by
  refine .of_run [.parent true, .parent true, .parent true] fun s ⟨hprog, hctrl, _⟩ =>
    ⟨?_, ?_, ?_⟩
  rotate_left
  · simp only [run_cons, step, parentStep, hprog, attachStep, hctrl, if_true, State.goto,
      Option.bind_some, run_nil]
    rfl
  · exact ⟨rfl, rfl, rfl, rfl, rfl⟩

theorem attaching_next {attrs : List PerfEventAttr} {i : ℕ} (hi : i < attrs.length) :
    Leads (step sees) (Attaching attrs rest i) (Attaching attrs rest (i + 1)) := by
  refine .of_step (.parent true) fun s ⟨hprog, hctrl, hchild, hbytes, hlog⟩ => ?_
  have hattr : attrs[i]? = some attrs[i] := List.getElem?_eq_getElem hi
  rw [atMember, if_pos hi] at hctrl
  refine ⟨_, by simp only [step, parentStep, hprog, attachStep, hctrl, hattr]; rfl, ?_⟩
  exact ⟨hprog, rfl, hchild, hbytes, hlog⟩

/-- The byte is written, and the child reads it and becomes the program. -/
theorem attaching_done {attrs : List PerfEventAttr} :
    Leads (step sees) (Attaching attrs rest attrs.length) (Ready rest Running) := by
  refine .of_run [.parent true, .parent true, .stub true, .stub true, .stub true, .stub true]
    fun s ⟨hprog, hctrl, hchild, hbytes, hlog⟩ => ⟨?_, ?_, ?_⟩
  rotate_left
  · rw [atMember, if_neg (by omega)] at hctrl
    simp [run_cons, step, parentStep, hprog, attachStep, hctrl, State.goto, State.ret, stubStep,
      hchild, attachChild, hbytes]
    rfl
  · exact ⟨by simp [execve], rfl, rfl, hlog⟩

theorem can_attach (attrs : List PerfEventAttr) : Can sees P [.processAttach attrs] Running := by
  intro rest
  have hopen : Leads (step sees) (Attaching attrs rest 0) (Attaching attrs rest attrs.length) :=
    Leads.count (I := Attaching attrs rest) (fun _ hi => attaching_next hi) (Nat.zero_le _)
  exact ((leads_attaching attrs rest).trans hopen).trans attaching_done

/-- Cut short, the delay takes no time. -/
theorem can_delay (opts : BenchmarkOpts) : Can sees Running (delayOps opts) Running := by
  unfold delayOps
  split
  · intro rest s ⟨hprog, hctrl, hchild, hlog⟩
    have hready : Ready rest Running s.ret := ⟨by simp [State.ret, hprog], rfl, hchild, hlog⟩
    refine ⟨s.ret, ?_, hready⟩
    by_cases hms : opts.delayMs.toNat = 0
    · exact .of_step (.parent true) (by simp [step, parentStep, hprog, sleepStep, hctrl, hms])
    · exact ⟨[.parent true, .parent false], by
        simp [run_cons, step, parentStep, hprog, sleepStep, hctrl, hms, State.goto, State.ret]⟩
  · exact .nil

theorem can_clockBegin : Can sees Running [.clockBegin] Running := by
  refine .of_step (.parent true) fun s hprog _ hrunning =>
    ⟨{ s.ret with window := .running }, ?_, rfl, rfl, hrunning⟩
  obtain ⟨rest, hrest⟩ := List.head?_eq_some_iff.mp hprog
  simp [step, parentStep, hrest]

theorem can_clockEnd : Can sees P [.clockEnd] Any := by
  refine .of_step (.parent true) fun s hprog _ _ =>
    ⟨{ s.ret with window := .ended }, ?_, rfl, rfl, trivial⟩
  obtain ⟨rest, hrest⟩ := List.head?_eq_some_iff.mp hprog
  simp [step, parentStep, hrest]

theorem can_wait (timeoutMs : UInt32) : Can sees Running [.waitWithTimeout timeoutMs] Any := by
  intro rest
  by_cases ht : timeoutMs = 0
  · refine .of_run [.exit, .parent true, .parent true] fun s ⟨hprog, hctrl, hchild, hlog⟩ =>
      ⟨?_, ?_, ?_⟩
    rotate_left
    · simp [run_cons, step, MayExit, hchild, parentStep, hprog, hctrl, waitStep, ht, waitpidStep,
        State.goto]
      rfl
    · exact ⟨rfl, rfl, trivial⟩
  · refine .of_run [.exit, .parent true, .parent true] fun s ⟨hprog, hctrl, hchild, hlog⟩ =>
      ⟨?_, ?_, ?_⟩
    rotate_left
    · simp [run_cons, step, MayExit, hchild, parentStep, hprog, hctrl, waitStep, ht, State.goto,
        State.note]
      rfl
    · exact ⟨rfl, rfl, trivial⟩

/-- `gr.end()` has come to member `i`, and returns after the last one. -/
def Stopping (rest : List Op) (n i : ℕ) (s : State U) : Prop :=
  if i < n then s.prog = .stop n :: rest ∧ s.ctrl = .disable i
  else s.prog = rest ∧ s.ctrl = .idle

theorem stopping_loop (s : State U) {n : ℕ} (hprog : s.prog = .stop n :: rest) (i : ℕ) :
    Stopping rest n i (s.loop n i (.disable i)) := by
  unfold Stopping State.loop
  split
  · exact ⟨hprog, rfl⟩
  · exact ⟨by simp [State.ret, hprog], rfl⟩

theorem can_stop (n : ℕ) : Can sees P [.stop n] Any := by
  intro rest
  have hstart : Leads (step sees) (Ready (.stop n :: rest) P) (Stopping rest n 0) :=
    .of_step (.parent true) fun s ⟨hprog, hctrl, _⟩ =>
      ⟨_, by simp only [step, parentStep, hprog, stopStep, hctrl], stopping_loop s hprog 0⟩
  have hnext : ∀ i < n, Leads (step sees) (Stopping rest n i) (Stopping rest n (i + 1)) := by
    refine fun i hi => .of_step (.parent true) fun s hs => ?_
    obtain ⟨hprog, hctrl⟩ := (if_pos hi).mp hs
    refine ⟨(s.setCounter i { s.counters i with enabled := false }).loop n (i + 1)
      (.disable (i + 1)), ?_, stopping_loop (s.setCounter i _) hprog (i + 1)⟩
    simp only [step, parentStep, hprog, stopStep, hctrl]
  refine (hstart.trans (Leads.count hnext (Nat.zero_le n))).mono (fun _ hs => hs) fun s hs => ?_
  obtain ⟨hprog, hctrl⟩ := (if_neg (Nat.lt_irrefl n)).mp hs
  exact ⟨hprog, hctrl, trivial⟩

/-! ### Whole measurements -/

/-- Up to the wait, with the measured program running. -/
theorem can_launch (opts : BenchmarkOpts) (attrs : List PerfEventAttr) :
    Can sees Any (hookOps opts.pre ++ .processAttach attrs :: (delayOps opts ++ [.clockBegin]))
      Running :=
  (can_hook opts.pre).append ((can_attach attrs).cons ((can_delay opts).append can_clockBegin))

theorem can_measure (opts : BenchmarkOpts) (attrs : List PerfEventAttr) :
    Can sees Any (measureOps opts attrs) Any := by
  have hfinish : Can sees Any (finishOps opts attrs.length) Any :=
    can_clockEnd.cons ((can_stop _).cons (can_hook opts.post))
  have hops : measureOps opts attrs =
      (hookOps opts.pre ++ .processAttach attrs :: (delayOps opts ++ [.clockBegin])) ++
        .waitWithTimeout opts.timeoutMs :: finishOps opts attrs.length := by
    simp [measureOps, timedOps]
  rw [hops]
  exact (can_launch opts attrs).append ((can_wait opts.timeoutMs).cons hfinish)

end Bbench.Process
