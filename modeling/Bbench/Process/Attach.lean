import Bbench.Process.Frame
import Mathlib.Tactic.IntervalCases

/-! `process_attach`: the child does not become the measured program before every
counter is open, and the two processes never wait for each other in vain. Up to
the byte the parent writes, the child is held in its `read`, since the pipe is
empty and the parent holds a write end of it. From then on the byte waits for the
child. -/

namespace Bbench.Process

open Perf Transition

variable {U : Type*} {sees : ℕ → U → Bool} {attrs : List PerfEventAttr} {rest : List Op}
  {s t : State U} {ok : Bool} {l : Label U}

/-- The two processes right after `fork`, with both ends of the pipe in each. -/
def forked (attrs : List PerfEventAttr) (clock : Clock) : State U where
  prog := [.processAttach attrs]
  ctrl := .closeRead
  child := .stub attachChild
  pipe := { parentRead := true, parentWrite := true, childRead := true, childWrite := true }
  clock := clock

def ExecveCalled (s : State U) : Prop :=
  match s.child with
  | .none => False
  | .stub todo => Stub.execve ∉ todo
  | _ => True

/-- The child has not read, and nothing but the parent can end its `read`. -/
structure Held (s : State U) : Prop where
  child : ∃ k ≤ 1, s.child = .stub (attachChild.drop k)
  bytes : s.pipe.bytes = 0
  parentWrite : s.pipe.parentWrite = true
  log : s.log = []

/-- A child that has not read finds a byte in the pipe. -/
def Released (s : State U) : Prop :=
  (∃ k ≤ 4, s.child = .stub (attachChild.drop k) ∧ (k ≤ 1 → 0 < s.pipe.bytes)) ∨
    s.child = .program ∨ s.child = .zombie

/-- The parent is opening the counters, `s.opens` of them so far. -/
structure Opening (attrs : List PerfEventAttr) (rest : List Op) (s : State U) : Prop where
  held : Held s
  prog : s.prog = .processAttach attrs :: rest
  place : s.ctrl = .closeRead ∧ s.opens = 0 ∨
    s.opens ≤ attrs.length ∧ s.ctrl = atMember attrs.length s.opens (.attach s.opens) .write

/-! ### The child -/

/-- The child stays held, and works on nothing. -/
theorem Held.background (hs : Held s) (h : Acts sees s t l) :
    Held t ∧ t.counters = s.counters ∧ t.executed = s.executed ∧ t.timed = s.timed := by
  obtain ⟨⟨k, hk, hchild⟩, hbytes, hwrite, hlog⟩ := hs
  cases h with
  | stub ok call =>
    obtain rfl | rfl : k = 0 ∨ k = 1 := by omega
    · simp only [stubStep, hchild, attachChild, List.drop] at call
      cases call
      exact ⟨⟨⟨1, le_rfl, rfl⟩, hbytes, hwrite, hlog⟩, rfl, rfl, rfl⟩
    · simp [stubStep, hchild, attachChild, hbytes, hwrite] at call
  | work u child eq => rw [hchild] at child; cases child
  | exit may eq => simp [MayExit, hchild, hlog] at may
  | tick ns clock le eq =>
    subst eq
    exact ⟨⟨⟨k, hk, hchild⟩, hbytes, hwrite, hlog⟩, rfl, rfl, rfl⟩

theorem Released.background (hs : Released s) (h : Acts sees s t l) : Released t := by
  cases h with
  | stub ok call =>
    obtain ⟨k, hk, hchild, hbyte⟩ | hchild | hchild := hs
    · simp only [stubStep, hchild, attachChild] at call
      interval_cases k <;> simp only [List.drop] at call
      · cases call
        exact .inl ⟨1, by omega, rfl, fun _ => hbyte (by omega)⟩
      · rw [if_pos (.inl (hbyte le_rfl))] at call
        cases call
        exact .inl ⟨2, by omega, rfl, by omega⟩
      · cases call
        exact .inl ⟨3, by omega, rfl, by omega⟩
      · cases call
        split
        · exact .inr (.inl rfl)
        · exact .inl ⟨4, by omega, rfl, by omega⟩
      · cases call
        exact .inr (.inr rfl)
    · simp [stubStep, hchild] at call
    · simp [stubStep, hchild] at call
  | work u child eq => subst eq; exact .inr (.inl child)
  | exit may eq => subst eq; exact .inr (.inr rfl)
  | tick ns clock le eq => subst eq; exact hs

/-! ### The parent -/

/-- While the counters are opened, a call of the parent prepares that, opens the
next counter, or writes the byte once all are open. -/
inductive Opens (attrs : List PerfEventAttr) (rest : List Op) (ok : Bool) (s t : State U) : Prop
  | prepares (opening : Opening attrs rest t) (ctrl : Ctrl) (pipe : Pipe)
    (eq : t = { s with ctrl, pipe })
  | next (opening : Opening attrs rest t) (attr : PerfEventAttr) (mem : attr ∈ attrs) (ctrl : Ctrl)
    (eq : t = (s.perfEventOpen ok s.opens attr).goto ctrl)
  | writes (opens : s.opens = attrs.length)
    (eq : t = { s.goto .closeWrite with pipe := { s.pipe with bytes := s.pipe.bytes + 1 } })

theorem Opening.parent (hs : Opening attrs rest s) (h : parentStep ok s = some t) :
    Opens attrs rest ok s t := by
  obtain ⟨⟨hchild, hbytes, hwrite, hlog⟩, hprog, hplace⟩ := hs
  simp only [parentStep, hprog] at h
  obtain ⟨hctrl, hopens⟩ | ⟨hle, hctrl⟩ := hplace
  · simp only [attachStep, hctrl] at h
    cases h
    refine .prepares ⟨⟨hchild, hbytes, hwrite, hlog⟩, hprog, .inr ⟨?_, ?_⟩⟩ _ _ rfl
    · simp [State.goto, hopens]
    · simp [State.goto, hopens]
  · rcases Nat.lt_or_eq_of_le hle with hlt | heq
    · have hattr : attrs[s.opens]? = some attrs[s.opens] := List.getElem?_eq_getElem hlt
      rw [atMember, if_pos hlt] at hctrl
      simp only [attachStep, hctrl, hattr] at h
      cases h
      exact .next ⟨⟨hchild, hbytes, hwrite, hlog⟩, hprog, .inr ⟨hlt, rfl⟩⟩ _
        (List.getElem_mem hlt) _ rfl
    · rw [atMember, if_neg (by omega)] at hctrl
      simp only [attachStep, hctrl] at h
      cases h
      exact .writes heq rfl

/-- A parent that has not written the byte is never blocked. -/
theorem Opening.enabled (hs : Opening attrs rest s) (ok : Bool) :
    ∃ t, step sees s (.parent ok) = some t := by
  rw [← Option.isSome_iff_exists]
  obtain ⟨-, hprog, ⟨hctrl, -⟩ | ⟨hle, hctrl⟩⟩ := hs
  · simp only [step, parentStep, hprog, attachStep, hctrl, Option.isSome_some]
  · rcases Nat.lt_or_eq_of_le hle with hlt | heq
    · rw [atMember, if_pos hlt] at hctrl
      simp only [step, parentStep, hprog, attachStep, hctrl, List.getElem?_eq_getElem hlt,
        Option.isSome_some]
    · rw [atMember, if_neg (by omega)] at hctrl
      simp only [step, parentStep, hprog, attachStep, hctrl, Option.isSome_some]

theorem Held.written (hs : Held s) :
    Released { s.goto .closeWrite with pipe := { s.pipe with bytes := s.pipe.bytes + 1 } } := by
  obtain ⟨k, hk, hchild⟩ := hs.child
  exact .inl ⟨k, by omega, hchild, fun _ => Nat.succ_pos _⟩

/-! ### The protocol -/

/-- All counters are open, and the parent has written the byte. -/
structure Attached (attrs : List PerfEventAttr) (s : State U) : Prop where
  released : Released s
  opens : s.opens = attrs.length
  place : s.prog = [.processAttach attrs] ∧ s.ctrl = .closeWrite ∨ s.prog = []

theorem attach_step (hs : Opening attrs [] s ∨ Attached attrs s) (h : step sees s l = some t) :
    Opening attrs [] t ∨ Attached attrs t := by
  obtain ⟨ok, -, h⟩ | h := step_cases h
  · obtain hs | ⟨hr, hopens, ⟨hprog, hctrl⟩ | hprog⟩ := hs
    · obtain ⟨ho, -⟩ | ⟨ho, -⟩ | ⟨hopens, rfl⟩ := hs.parent h
      · exact .inl ho
      · exact .inl ho
      · exact .inr ⟨hs.held.written, hopens, .inl ⟨hs.prog, rfl⟩⟩
    · simp only [parentStep, hprog, attachStep, hctrl] at h
      cases h
      exact .inr ⟨hr, hopens, .inr (by simp [State.ret, hprog])⟩
    · simp [parentStep, hprog] at h
  · have hb := h.background
    obtain ⟨hheld, hprog, hplace⟩ | ⟨hr, hopens, hplace⟩ := hs
    · exact .inl ⟨(hheld.background h).1, hb.prog.trans hprog, by rwa [hb.ctrl, hb.opens]⟩
    · exact .inr ⟨hr.background h, hb.opens.trans hopens, by rwa [hb.prog, hb.ctrl]⟩

theorem forked_opening (attrs : List PerfEventAttr) (clock : Clock) :
    Opening attrs [] (forked attrs clock : State U) :=
  ⟨⟨⟨0, by omega, rfl⟩, rfl, rfl, rfl⟩, rfl, .inl ⟨rfl, rfl⟩⟩

theorem Held.not_execveCalled (hs : Held s) : ¬ ExecveCalled s := by
  obtain ⟨k, hk, hchild⟩ := hs.child
  obtain rfl | rfl : k = 0 ∨ k = 1 := by omega
  · simp [ExecveCalled, hchild, attachChild]
  · simp [ExecveCalled, hchild, attachChild]

theorem Released.enabled (hs : Released s) (hc : ¬ ExecveCalled s) :
    ∃ t, step sees s (.stub true) = some t := by
  obtain ⟨k, hk, hchild, hbyte⟩ | hchild | hchild := hs
  · simp only [ExecveCalled, hchild] at hc
    simp only [step, stubStep, hchild, attachChild]
    interval_cases k <;> simp only [List.drop]
    · exact ⟨_, rfl⟩
    · exact ⟨_, if_pos (.inl (hbyte le_rfl))⟩
    · exact ⟨_, rfl⟩
    · exact ⟨_, rfl⟩
    · exact ⟨_, rfl⟩
  · exact absurd (by simp [ExecveCalled, hchild]) hc
  · exact absurd (by simp [ExecveCalled, hchild]) hc

/-- Attach before exec. In every interleaving, a child that has called `execve`
finds all its counters open, and until the parent has returned and the child has
called `execve`, one of the two can go on. -/
theorem attach_before_exec (attrs : List PerfEventAttr) (clock : Clock) (s : State U)
    (h : Reachable (step sees) (forked attrs clock) s) :
    (ExecveCalled s → s.opens = attrs.length) ∧
    (s.prog ≠ [] ∨ ¬ ExecveCalled s →
      ∃ t, step sees s (.parent true) = some t ∨ step sees s (.stub true) = some t) := by
  have hinv : Opening attrs [] s ∨ Attached attrs s :=
    h.invariant (fun _ _ _ hs h => attach_step hs h) (.inl (forked_opening attrs clock))
  obtain hs | ⟨hr, hopens, ⟨hprog, hctrl⟩ | hprog⟩ := hinv
  · refine ⟨fun hc => absurd hc hs.held.not_execveCalled, fun _ => ?_⟩
    obtain ⟨t, ht⟩ := hs.enabled true
    exact ⟨t, .inl ht⟩
  · refine ⟨fun _ => hopens, fun _ => ?_⟩
    have hclose : parentStep true s =
        some { s.ret with pipe := { s.pipe with parentWrite := false } } := by
      simp only [parentStep, hprog, attachStep, hctrl]
    exact ⟨_, .inl hclose⟩
  · refine ⟨fun _ => hopens, fun hgo => ?_⟩
    obtain ⟨t, ht⟩ := hr.enabled (hgo.resolve_left (by simp [hprog]))
    exact ⟨t, .inr ht⟩

/-- The parent does all of its calls before the first one of the child. -/
def parentFirst : List (Label Unit) :=
  [.parent true, .parent true, .parent true, .parent true, .stub true, .stub true, .stub true,
    .stub true]

theorem attach_before_exec_one : ∃ s : State Unit,
    run (step fun _ _ => true) (forked [{}] ⟨0, by decide⟩) parentFirst = some s ∧
      s.child = .program ∧ s.opens = 1 := by
  have hrun : ((run (step fun _ _ => true) (forked [{}] ⟨0, by decide⟩) parentFirst).map
      State.child) = some .program := by
    decide +kernel
  obtain ⟨s, hs, hchild⟩ := Option.map_eq_some_iff.mp hrun
  have hcalled : ExecveCalled s := by simp [ExecveCalled, hchild]
  exact ⟨s, hs, hchild, (attach_before_exec [{}] ⟨0, by decide⟩ s ⟨parentFirst, hs⟩).1 hcalled⟩

end Bbench.Process
