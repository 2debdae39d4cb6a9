import Bbench.Process.Wait

/-! Termination of `__wait_with_timeout` and its contract. Each round of a polling
loop moves the clock closer to the deadline by the length of its sleep, so the
distance to the deadline, scaled by the calls of one round, pays for the calls
that are left. -/

namespace Bbench.Process

open Transition

variable {U : Type*} {sees : ℕ → U → Bool} {timeoutMs : UInt32} {s t : State U} {ok : Bool}
  {l : Label U}

def Ctrl.napping : Ctrl → Bool
  | .nap _ _ | .graceNap _ _ => true
  | _ => false

/-- The step does not cut a sleep of the polling loops short. -/
def SleepsFully (s : State U) : Label U → Prop
  | .parent false => s.ctrl.napping = false
  | _ => True

def Label.isCall : Label U → Bool
  | .parent _ => true
  | _ => false

/-- A bound on the calls the wait still makes. A round of the first loop takes
three calls and 1 ms, a round of the grace period three calls and 2 ms. -/
def callsLeft (timeoutMs : UInt32) (s : State U) : ℕ :=
  if s.prog = [] then 0
  else match s.ctrl with
    | .idle => 158 + 3 * timeoutMs.toNat
    | .blocked | .final => 1
    | .poll deadline => 157 + 3 * (deadline - s.clock.nowMs)
    | .check deadline => 156 + 3 * (deadline - s.clock.nowMs)
    | .nap deadline wake => 158 + 3 * (deadline - wake / 10 ^ 6)
    | .term => 155
    | .hard => 154
    | .graceCheck hard => 3 + 3 * (hard - s.clock.nowMs)
    | .gracePoll hard => 5 + 3 * (hard - s.clock.nowMs - 2)
    | .graceNap hard wake => 4 + 3 * (hard - wake / 10 ^ 6)
    | .kill9 => 2
    | _ => 0

/-- Time only shortens the wait. -/
theorem callsLeft_background (timeoutMs : UInt32) (h : Acts sees s t l) :
    callsLeft timeoutMs t ≤ callsLeft timeoutMs s := by
  have hb := h.background
  have hnow : s.clock.nowMs ≤ t.clock.nowMs := by
    rw [s.clock.nowMs_eq, t.clock.nowMs_eq]
    exact Nat.div_le_div_right h.clock_le
  unfold callsLeft
  rw [hb.prog, hb.ctrl]
  split
  · exact Nat.le_refl _
  · split <;> omega

theorem SleepsFully.awake (h : SleepsFully s (.parent ok)) (hc : s.ctrl.napping = true)
    {wake : ℕ} (hwake : ok = false ∨ wake ≤ s.clock.ns) : wake ≤ s.clock.ns := by
  rcases hwake with rfl | hwake
  · rw [SleepsFully, hc] at h
    cases h
  · exact hwake

/-- Each call of the wait is paid for. -/
theorem callsLeft_parent (hs : InWait timeoutMs s) (hsleep : SleepsFully s (.parent ok))
    (h : parentStep ok s = some t) :
    1 + callsLeft timeoutMs t ≤ callsLeft timeoutMs s := by
  have hprog := hs.prog
  have hns := s.clock.lt
  have hnow := s.clock.nowMs_eq
  have hret : s.reap.ret.prog = [] := hs.reap_ret.prog
  simp only [parentStep, hprog] at h
  cases waitStep_cases h with
  | blocks place _ eq =>
    simp [callsLeft, eq, State.goto, hprog, place]
    omega
  | begins place _ eq =>
    have hdeadline := nowMs_add_mod s.clock (UInt32.toNat_lt timeoutMs)
    simp [callsLeft, eq, State.goto, State.note, hprog, place]
    omega
  | waits place call =>
    obtain place | place := place <;> simp [callsLeft, hprog, place, (hs.waitpid call).prog]
  | reaps place _ eq =>
    obtain ⟨deadline, place⟩ | ⟨hard, place⟩ := place
    · simp [callsLeft, eq, hret, hprog, place]
      omega
    · simp [callsLeft, eq, hret, hprog, place]
      omega
  | polls deadline place eq =>
    simp [callsLeft, eq, State.goto, hprog, place]
    omega
  | expires deadline place _ eq => simp [callsLeft, eq, State.goto, State.note, hprog, place]
  | naps deadline place _ eq =>
    simp [callsLeft, eq, State.goto, State.note, hprog, place, sleepNs_eq]
    omega
  | wakes deadline wake place awake eq =>
    have hwake := hsleep.awake (by rw [place]; rfl) awake
    simp [callsLeft, eq, State.goto, hprog, place]
    omega
  | terminates place eq => simp [callsLeft, eq, State.goto, State.note, hprog, place]
  | grants place eq =>
    simp [callsLeft, eq, State.goto, State.note, hprog, place]
    omega
  | graceLeft hard place _ eq =>
    simp [callsLeft, eq, State.goto, State.note, hprog, place]
    omega
  | graceOver hard place _ eq => simp [callsLeft, eq, State.goto, State.note, hprog, place]
  | gracePolls hard place eq =>
    simp [callsLeft, eq, State.goto, hprog, place, sleepNs_eq]
    omega
  | graceWakes hard wake place awake eq =>
    have hwake := hsleep.awake (by rw [place]; rfl) awake
    simp [callsLeft, eq, State.goto, hprog, place]
    omega
  | kills place eq => simp [callsLeft, eq, State.goto, State.note, hprog, place]

/-- One step of the wait, call or not, pays its way. -/
theorem wait_pays (hs : InWait timeoutMs s ∨ Returned timeoutMs s) (hsleep : SleepsFully s l)
    (h : step sees s l = some t) :
    (if l.isCall then 1 else 0) + callsLeft timeoutMs t ≤ callsLeft timeoutMs s := by
  obtain ⟨ok, rfl, hcall⟩ | hacts := step_cases h
  · obtain hs | hs := hs
    · exact callsLeft_parent hs hsleep hcall
    · simp [parentStep, hs.prog] at hcall
  · have hfree : l.isCall = false := by cases hacts <;> rfl
    have hle := callsLeft_background timeoutMs hacts
    simpa [hfree] using hle

/-- The instance decides the condition along a schedule. -/
instance (s : State U) : ∀ l, Decidable (SleepsFully s l)
  | .parent false => inferInstanceAs (Decidable (s.ctrl.napping = false))
  | .parent true | .stub _ | .work _ | .exit | .tick _ => isTrue trivial

/-- The parent sleeps, or waits without a limit for a child that has not ended. -/
def Suspended (s : State U) : Prop :=
  (∃ limit wake, (s.ctrl = .nap limit wake ∨ s.ctrl = .graceNap limit wake) ∧ s.clock.ns < wake) ∨
    (s.ctrl = .blocked ∨ s.ctrl = .final) ∧ s.child ≠ .zombie

/-- In the wait, the parent can make its next call unless it is suspended. -/
theorem InWait.progress (hs : InWait timeoutMs s) :
    (∃ t, step sees s (.parent true) = some t) ∨ Suspended s := by
  have hplace := hs.place
  have hblocked (hc : s.ctrl = .blocked ∨ s.ctrl = .final) :
      (∃ t, waitpidStep s = some t) ∨ Suspended s := by
    by_cases hz : s.child = .zombie
    · exact .inl ⟨s.reap.ret, by simp [waitpidStep, hz]⟩
    · exact .inr (.inr ⟨hc, hz⟩)
  simp only [step, parentStep, hs.prog]
  cases hc : s.ctrl with
  | idle =>
    simp only [waitStep, hc]
    split <;> exact .inl ⟨_, rfl⟩
  | blocked =>
    simp only [waitStep, hc]
    exact hblocked (.inl hc)
  | final =>
    simp only [waitStep, hc]
    exact hblocked (.inr hc)
  | nap deadline wake =>
    by_cases hwake : wake ≤ s.clock.ns
    · exact .inl ⟨s.goto (.poll deadline), by simp [waitStep, hc, hwake]⟩
    · exact .inr (.inl ⟨deadline, wake, .inl hc, by omega⟩)
  | graceNap hard wake =>
    by_cases hwake : wake ≤ s.clock.ns
    · exact .inl ⟨s.goto (.graceCheck hard), by simp [waitStep, hc, hwake]⟩
    · exact .inr (.inl ⟨hard, wake, .inr hc, by omega⟩)
  | poll deadline => exact .inl ⟨_, by simp only [waitStep, hc]; rfl⟩
  | check deadline => exact .inl ⟨_, by simp only [waitStep, hc]; rfl⟩
  | term => exact .inl ⟨_, by simp only [waitStep, hc]; rfl⟩
  | hard => exact .inl ⟨_, by simp only [waitStep, hc]; rfl⟩
  | graceCheck hard => exact .inl ⟨_, by simp only [waitStep, hc]; rfl⟩
  | gracePoll hard => exact .inl ⟨_, by simp only [waitStep, hc]; rfl⟩
  | kill9 => exact .inl ⟨_, by simp only [waitStep, hc]; rfl⟩
  | _ => simp [hc, Place] at hplace

/-- The parent calls `__wait_with_timeout` on a child that has not been reaped. -/
structure StartsWait (timeoutMs : UInt32) (s : State U) : Prop where
  prog : s.prog = [.waitWithTimeout timeoutMs]
  ctrl : s.ctrl = .idle
  log : s.log = []
  unreaped : Unreaped s

theorem StartsWait.inWait (hs : StartsWait timeoutMs s) : InWait timeoutMs s where
  prog := hs.prog
  unreaped := hs.unreaped
  reap := by simp [hs.log]
  orderly := by rw [hs.log]; trivial
  place := by rw [hs.ctrl]; exact hs.log

/-- The contract of `__wait_with_timeout`, for every child, clock and schedule. The
child is reaped once, by the time the call returns; every signal is in order, none
is sent twice, and none at all without a timeout. If no sleep is cut short, the
number of calls is bounded, and the parent makes the next one unless it sleeps or
waits for a child that was killed or has no timeout. -/
theorem waitWithTimeout_contract (timeoutMs : UInt32) (s : State U)
    (hs : StartsWait timeoutMs s) (ls : List (Label U)) (t : State U)
    (h : run (step sees) s ls = some t) :
    (t.prog = [] → t.child = .reaped ∧ t.log.count .reap = 1) ∧
    Orderly timeoutMs t.log ∧
    (∀ sig, t.log.count (.kill sig) ≤ 1) ∧
    (timeoutMs = 0 → ∀ sig, .kill sig ∉ t.log) ∧
    (Along (step sees) SleepsFully s ls →
      ls.countP Label.isCall ≤ 158 + 3 * timeoutMs.toNat) ∧
    (t.prog ≠ [] → (∃ u, step sees t (.parent true) = some u) ∨ Suspended t) := by
  have hinv : InWait timeoutMs t ∨ Returned timeoutMs t :=
    run_invariant (I := fun s => InWait timeoutMs s ∨ Returned timeoutMs s)
      (fun _ _ _ hs h => wait_step hs h) (.inl hs.inWait) h
  have horderly : Orderly timeoutMs t.log := hinv.elim InWait.orderly Returned.orderly
  refine ⟨fun hend => ?_, horderly, fun sig => horderly.count_le_one (by simp), ?_,
    fun hsleep => ?_, fun hgo => ?_⟩
  · obtain hin | hret := hinv
    · rw [hin.prog] at hend
      cases hend
    · have hle := horderly.count_le_one (e := .reap) (by simp)
      have hpos := List.count_pos_iff.mpr hret.reap
      exact ⟨hret.child, by omega⟩
  · rintro rfl sig
    exact horderly.no_signal sig
  · have hpaid := run_potential (P := SleepsFully) Label.isCall (callsLeft timeoutMs)
      (fun _ _ _ hs _ h => wait_step hs h) (fun _ _ _ hs hl h => wait_pays hs hl h)
      (.inl hs.inWait) hsleep h
    have hstart : callsLeft timeoutMs s = 158 + 3 * timeoutMs.toNat := by
      simp [callsLeft, hs.prog, hs.ctrl]
    omega
  · obtain hin | hret := hinv
    · exact hin.progress
    · exact absurd hret.prog hgo

/-- `--timeout 1` on a program that ignores SIGTERM and ends with SIGKILL. -/
def stubborn : List (Label Unit) :=
  [.parent true, .parent true, .tick (10 ^ 6), .parent true, .parent true, .parent true,
    .tick (50 * 10 ^ 6), .parent true, .parent true, .exit, .parent true]

theorem waitWithTimeout_contract_stubborn : ∃ t : State Unit,
    run (step fun _ _ => true)
      { initial [.waitWithTimeout 1] ⟨0, by decide⟩ with child := .program } stubborn = some t ∧
    t.child = .reaped ∧ t.log.count .reap = 1 ∧ .kill .kill9 ∈ t.log ∧
    stubborn.countP Label.isCall ≤ 161 := by
  have hrun : (run (step fun _ _ => true)
      { initial [.waitWithTimeout 1] ⟨0, by decide⟩ with child := .program } stubborn).map
        (fun t => (t.prog, decide (.kill .kill9 ∈ t.log))) = some ([], true) := by
    decide +kernel
  obtain ⟨t, ht, heq⟩ := Option.map_eq_some_iff.mp hrun
  simp only [Prod.mk.injEq, decide_eq_true_eq] at heq
  have hspec := waitWithTimeout_contract 1 _ ⟨rfl, rfl, rfl, by simp [Unreaped]⟩ stubborn t ht
  exact ⟨t, ht, (hspec.1 heq.1).1, (hspec.1 heq.1).2, heq.2,
    hspec.2.2.2.2.1 (by decide +kernel)⟩

end Bbench.Process
