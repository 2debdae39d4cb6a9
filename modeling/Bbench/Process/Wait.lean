import Bbench.Lib.Transition
import Bbench.Process.Frame

/-! `__wait_with_timeout`, started on a child that has not been reaped. The log
holds the clock readings, the signals and the reaping, newest first; it is orderly
when each entry was in order at the time it was made. The place of the parent in
its two polling loops says what the log looks like, and how far the clock is from
the deadline bounds the calls that are left. -/

namespace Bbench.Process

open Transition

variable {U : Type*} {sees : ℕ → U → Bool} {timeoutMs : UInt32} {s t : State U} {ok : Bool}
  {l : Label U}

/-! ### The log -/

/-- SIGTERM goes to a child that is overdue by the first and the latest reading. -/
structure Overdue (timeoutMs : UInt32) (earlier : List Entry) : Prop where
  ne_zero : timeoutMs ≠ 0
  late : ∃ start now, earlier.getLast? = some (.now start) ∧ earlier.head? = some (.now now) ∧
    start + timeoutMs.toNat ≤ now

/-- SIGKILL comes after SIGTERM, and 50 ms after the first reading that follows it. -/
def GraceOver (earlier : List Entry) : Prop :=
  ∃ now readings first before, earlier =
    .now now :: (readings ++ .now first :: .kill .terminate :: before) ∧ first + 50 ≤ now

/-- An entry is in order after the earlier ones. -/
def Allowed (timeoutMs : UInt32) : Entry → List Entry → Prop
  | .now _, _ => True
  | .kill .terminate, earlier =>
    .reap ∉ earlier ∧ .kill .terminate ∉ earlier ∧ Overdue timeoutMs earlier
  | .kill .kill9, earlier => .reap ∉ earlier ∧ .kill .kill9 ∉ earlier ∧ GraceOver earlier
  | .reap, earlier => .reap ∉ earlier

def Orderly (timeoutMs : UInt32) : List Entry → Prop
  | [] => True
  | e :: earlier => Allowed timeoutMs e earlier ∧ Orderly timeoutMs earlier

/-- Nothing but a reading happens twice. -/
theorem Orderly.count_le_one {log : List Entry} (h : Orderly timeoutMs log) {e : Entry}
    (he : ∀ now, e ≠ .now now) : log.count e ≤ 1 := by
  induction log with
  | nil => simp
  | cons e' earlier ih =>
    obtain ⟨hallowed, hearlier⟩ := h
    by_cases hee : e' = e
    · subst hee
      have hnot : e' ∉ earlier := by
        cases e' with
        | now now => exact absurd rfl (he now)
        | kill sig => cases sig <;> exact hallowed.2.1
        | reap => exact hallowed
      simp [List.count_eq_zero.mpr hnot]
    · rw [List.count_cons_of_ne hee]
      exact ih hearlier

/-- Without a timeout no signal is in order. -/
theorem Orderly.no_signal {log : List Entry} (h : Orderly 0 log) (sig : Signal) :
    .kill sig ∉ log := by
  induction log generalizing sig with
  | nil => simp
  | cons e earlier ih =>
    obtain ⟨hallowed, hearlier⟩ := h
    rw [List.mem_cons, not_or]
    refine ⟨fun he => ?_, ih hearlier sig⟩
    subst he
    cases sig with
    | terminate => exact hallowed.2.2.ne_zero rfl
    | kill9 =>
      obtain ⟨now, readings, first, before, rfl, -⟩ := hallowed.2.2
      exact ih hearlier .terminate (by simp)

/-- The first loop has taken nothing but readings, the first one at `start`. -/
structure Readings (start : ℕ) (log : List Entry) : Prop where
  first : log.getLast? = some (.now start)
  all : ∀ e ∈ log, ∃ now, e = .now now

theorem Readings.cons {start : ℕ} {log : List Entry} (h : Readings start log) (now : ℕ) :
    Readings start (.now now :: log) where
  first := by
    cases log with
    | nil => cases h.first
    | cons e log => rw [List.getLast?_cons_cons, h.first]
  all := by
    intro e he
    obtain rfl | he := List.mem_cons.mp he
    · exact ⟨now, rfl⟩
    · exact h.all e he

/-- Since SIGTERM there have been readings only, the first one at `first`. -/
def Grace (first : ℕ) (log : List Entry) : Prop :=
  ∃ readings before, log = readings ++ .now first :: .kill .terminate :: before ∧
    .kill .kill9 ∉ log

/-- What the place of the parent says about the log. -/
def Place (timeoutMs : UInt32) (log : List Entry) : Ctrl → Prop
  | .idle => log = []
  | .blocked => True
  | .poll deadline | .check deadline | .nap deadline _ =>
    timeoutMs ≠ 0 ∧ ∃ start, Readings start log ∧ deadline = start + timeoutMs.toNat
  | .term => Overdue timeoutMs log ∧ ∃ start, Readings start log
  | .hard => (∃ before, log = .kill .terminate :: before) ∧ .kill .kill9 ∉ log
  | .graceCheck hard | .gracePoll hard | .graceNap hard _ =>
    ∃ first, Grace first log ∧ hard = first + 50
  | .kill9 => GraceOver log ∧ .kill .kill9 ∉ log
  | .final => True
  | _ => False

/-- The child may still be signalled and waited for. -/
def Unreaped (s : State U) : Prop := s.child ≠ .none ∧ s.child ≠ .reaped

/-- The parent is in the wait. -/
structure InWait (timeoutMs : UInt32) (s : State U) : Prop where
  prog : s.prog = [.waitWithTimeout timeoutMs]
  unreaped : Unreaped s
  reap : .reap ∉ s.log
  orderly : Orderly timeoutMs s.log
  place : Place timeoutMs s.log s.ctrl

/-- The wait has returned. -/
structure Returned (timeoutMs : UInt32) (s : State U) : Prop where
  prog : s.prog = []
  child : s.child = .reaped
  reap : .reap ∈ s.log
  orderly : Orderly timeoutMs s.log

theorem nowMs_add_mod (c : Clock) {n : ℕ} (hn : n < 2 ^ 32) :
    (c.nowMs + n) % 2 ^ 64 = c.nowMs + n := by
  have hns := c.lt
  rw [c.nowMs_eq]
  omega

theorem InWait.reap_ret (hs : InWait timeoutMs s) : Returned timeoutMs s.reap.ret where
  prog := by simp [State.ret, State.reap, State.note, hs.prog]
  child := rfl
  reap := List.mem_cons_self
  orderly := ⟨hs.reap, hs.orderly⟩

/-- A reading keeps the log in order. -/
theorem InWait.note_now (hs : InWait timeoutMs s) (now : ℕ) {c : Ctrl}
    (hplace : Place timeoutMs (.now now :: s.log) c) :
    InWait timeoutMs ((s.note (.now now)).goto c) where
  prog := hs.prog
  unreaped := hs.unreaped
  reap := by simp [State.note, State.goto, hs.reap]
  orderly := ⟨trivial, hs.orderly⟩
  place := hplace

theorem InWait.goto (hs : InWait timeoutMs s) {c : Ctrl} (hplace : Place timeoutMs s.log c) :
    InWait timeoutMs (s.goto c) :=
  ⟨hs.prog, hs.unreaped, hs.reap, hs.orderly, hplace⟩

theorem InWait.kill (hs : InWait timeoutMs s) {sig : Signal} {c : Ctrl}
    (hallowed : Allowed timeoutMs (.kill sig) s.log)
    (hplace : Place timeoutMs (.kill sig :: s.log) c) :
    InWait timeoutMs ((s.note (.kill sig)).goto c) where
  prog := hs.prog
  unreaped := hs.unreaped
  reap := by simp [State.note, State.goto, hs.reap]
  orderly := ⟨hallowed, hs.orderly⟩
  place := hplace

theorem InWait.waitpid (hs : InWait timeoutMs s) (h : waitpidStep s = some t) :
    Returned timeoutMs t := by
  obtain ⟨-, rfl⟩ | ⟨hgone | hgone, -⟩ := waitpidStep_cases h
  · exact hs.reap_ret
  · exact absurd hgone hs.unreaped.1
  · exact absurd hgone hs.unreaped.2

/-- One call of the wait. -/
theorem InWait.parent (hs : InWait timeoutMs s) (h : parentStep ok s = some t) :
    InWait timeoutMs t ∨ Returned timeoutMs t := by
  have hplace := hs.place
  simp only [parentStep, hs.prog] at h
  cases waitStep_cases h with
  | blocks _ _ eq => subst eq; exact .inl (hs.goto trivial)
  | begins place limited eq =>
    subst eq
    simp only [place, Place] at hplace
    refine .inl (hs.note_now _ ⟨limited, s.clock.nowMs, ⟨?_, ?_⟩, ?_⟩)
    · rw [hplace]
      rfl
    · simp [hplace]
    · exact nowMs_add_mod s.clock (UInt32.toNat_lt timeoutMs)
  | waits _ call => exact .inr (hs.waitpid call)
  | reaps _ _ eq => subst eq; exact .inr hs.reap_ret
  -- within a round the log and the deadline stay as they are
  | polls _ place eq | wakes _ _ place _ eq | gracePolls _ place eq | graceWakes _ _ place _ eq =>
    subst eq
    rw [place] at hplace
    exact .inl (hs.goto hplace)
  | expires deadline place late eq =>
    subst eq
    simp only [place, Place] at hplace
    obtain ⟨hne, start, hreadings, hdeadline⟩ := hplace
    refine .inl (hs.note_now _ ⟨⟨hne, start, s.clock.nowMs, (hreadings.cons _).first, rfl, ?_⟩,
      start, hreadings.cons _⟩)
    omega
  | naps deadline place _ eq =>
    subst eq
    simp only [place, Place] at hplace
    obtain ⟨hne, start, hreadings, hdeadline⟩ := hplace
    exact .inl (hs.note_now _ ⟨hne, start, hreadings.cons _, hdeadline⟩)
  | terminates place eq =>
    subst eq
    simp only [place, Place] at hplace
    obtain ⟨hoverdue, start, hreadings⟩ := hplace
    have hnone : ∀ sig, .kill sig ∉ s.log := by
      intro sig hmem
      obtain ⟨now, hnow⟩ := hreadings.all _ hmem
      cases hnow
    exact .inl (hs.kill ⟨hs.reap, hnone _, hoverdue⟩ ⟨⟨s.log, rfl⟩, by simp [hnone]⟩)
  | grants place eq =>
    subst eq
    simp only [place, Place] at hplace
    obtain ⟨⟨before, hlog⟩, hkill9⟩ := hplace
    refine .inl (hs.note_now _ ⟨s.clock.nowMs, ⟨[], before, ?_, by simp [hkill9]⟩, ?_⟩)
    · rw [hlog]
      rfl
    · exact nowMs_add_mod s.clock (by decide)
  | graceLeft hard place _ eq =>
    subst eq
    simp only [place, Place] at hplace
    obtain ⟨first, ⟨readings, before, hlog, hkill9⟩, hhard⟩ := hplace
    refine .inl (hs.note_now _ ⟨first, ⟨.now s.clock.nowMs :: readings, before, ?_, ?_⟩, hhard⟩)
    · rw [hlog]
      rfl
    · simp [hkill9]
  | graceOver hard place late eq =>
    subst eq
    simp only [place, Place] at hplace
    obtain ⟨first, ⟨readings, before, hlog, hkill9⟩, hhard⟩ := hplace
    refine .inl (hs.note_now _ ⟨⟨s.clock.nowMs, readings, first, before, ?_, ?_⟩, ?_⟩)
    · rw [hlog]
    · omega
    · simp [hkill9]
  | kills place eq =>
    subst eq
    simp only [place, Place] at hplace
    exact .inl (hs.kill ⟨hs.reap, hplace.2, hplace.1⟩ trivial)

/-- The child may move on and end, but only the parent reaps it. -/
theorem Unreaped.background (hs : Unreaped s) (h : Acts sees s t l) : Unreaped t := by
  cases h with
  | stub ok call =>
    obtain ⟨todo, -, child, pipe, ⟨todo', rfl⟩ | rfl, rfl⟩ | ⟨todo, -, rfl⟩ := stubStep_stubs call
    · simp [Unreaped]
    · simp [Unreaped]
    · simp [Unreaped, execve]
  | work u child eq => subst eq; exact hs
  | exit may eq => simp [eq, Unreaped]
  | tick ns clock le eq => subst eq; exact hs

theorem wait_step (hs : InWait timeoutMs s ∨ Returned timeoutMs s) (h : step sees s l = some t) :
    InWait timeoutMs t ∨ Returned timeoutMs t := by
  obtain ⟨ok, -, h⟩ | h := step_cases h
  · obtain hs | hs := hs
    · exact hs.parent h
    · simp [parentStep, hs.prog] at h
  · have hb := h.background
    obtain ⟨hprog, hunreaped, hreap, horderly, hplace⟩ | ⟨hprog, hchild, hreap, horderly⟩ := hs
    · refine .inl ⟨hb.prog.trans hprog, hunreaped.background h, ?_, ?_, ?_⟩
      · rwa [hb.log]
      · rwa [hb.log]
      · rwa [hb.log, hb.ctrl]
    · refine .inr ⟨hb.prog.trans hprog, ?_, ?_, ?_⟩
      · rw [(Gone.background (.inr hchild) h).1, hchild]
      · rwa [hb.log]
      · rwa [hb.log]

end Bbench.Process
