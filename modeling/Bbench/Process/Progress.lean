import Bbench.Process.Sequence
import Mathlib.Tactic.IntervalCases

/-! No interleaving of the two processes ends in a deadlock: from every state it can reach,
`main` can come to its end. The child is not held in its `read`, since outside
`process_attach` the parent has no write end of the pipe, and a child that can end lets
every wait return. The calls of the parent that are left are counted down. -/

namespace Bbench.Process

open Perf Transition Cli

variable {U : Type*} {sees : ℕ → U → Bool} {s t : State U} {ok : Bool} {l : Label U} {op : Op}
  {rest : List Op} {supported : Bool} {cli : CliOpts}

/-! ### The places of a call -/

/-- The places inside a call, besides its beginning. -/
def Op.hasPlace : Op → Ctrl → Bool
  | _, .idle => true
  | .processAttach attrs, .attach i => i < attrs.length
  | .processAttach _, .forking | .processAttach _, .closeRead | .processAttach _, .write
  | .processAttach _, .closeWrite => true
  | .reopen attrs, .attach i => i < attrs.length
  | .start _, .reset _ | .start _, .enable _ => true
  | .stop _, .disable _ => true
  | .sleepMs _, .sleeping _ => true
  | .waitWithTimeout _, .blocked | .waitWithTimeout _, .poll _ | .waitWithTimeout _, .check _
  | .waitWithTimeout _, .nap _ _ | .waitWithTimeout _, .term | .waitWithTimeout _, .hard
  | .waitWithTimeout _, .graceCheck _ | .waitWithTimeout _, .gracePoll _
  | .waitWithTimeout _, .graceNap _ _ | .waitWithTimeout _, .kill9
  | .waitWithTimeout _, .final => true
  | _, _ => false

theorem hasPlace_idle (op : Op) : op.hasPlace .idle = true := by
  cases op <;> rfl

/-- What keeps the two processes from waiting for each other: the parent has a write end
only inside `process_attach`, and a child that has come to its `read` has none. -/
structure Sound (s : State U) : Prop where
  place : ∀ op rest, s.prog = op :: rest → op.hasPlace s.ctrl = true
  writeEnd : ∀ op rest, s.prog = op :: rest → op.isAttach = false → s.pipe.parentWrite = false
  stub : ∀ todo, s.child = .stub todo →
    ∃ k ≤ 4, todo = attachChild.drop k ∧ (1 ≤ k → s.pipe.childWrite = false)

/-- The calls that are enough to return from a place, once the child has ended. -/
def Ctrl.waitLeft : Ctrl → ℕ
  | .idle => 6
  | .check _ => 5
  | .term => 4
  | .hard | .graceNap _ _ => 3
  | .graceCheck _ => 2
  | .nap _ _ | .kill9 => 1
  | _ => 0

def Op.left : Op → Ctrl → ℕ
  | .processAttach attrs, .idle => attrs.length + 5
  | .processAttach attrs, .forking => attrs.length + 4
  | .processAttach attrs, .closeRead => attrs.length + 3
  | .processAttach attrs, .attach i => attrs.length - i + 2
  | .processAttach _, .write => 2
  | .processAttach _, .closeWrite => 1
  | .reopen attrs, .idle => attrs.length + 1
  | .reopen attrs, .attach i => attrs.length - i
  | .start n, .idle => 2 * n + 3
  | .start n, .reset i => 2 * (n - i) + 2
  | .start n, .enable i => 2 * (n - i) + 1
  | .stop n, .idle => n + 1
  | .stop n, .disable i => n - i
  | .sleepMs _, .idle => 1
  | .waitWithTimeout _, c => c.waitLeft
  | _, _ => 0

/-- The same for a whole program, and for what is left of it. -/
def stepsOf : List Op → ℕ
  | [] => 0
  | op :: rest => op.left .idle + 1 + stepsOf rest

def stepsLeft (s : State U) : ℕ :=
  match s.prog with
  | [] => 0
  | op :: rest => op.left s.ctrl + 1 + stepsOf rest

theorem stepsLeft_idle (h : s.ctrl = .idle) : stepsLeft s = stepsOf s.prog := by
  unfold stepsLeft
  split
  · rename_i hprog
    rw [hprog, stepsOf]
  · rename_i hprog
    rw [hprog, stepsOf, h]

/-- A call that returns leaves fewer calls, and so does one that goes to a later place. -/
theorem stepsLeft_ret (hprog : s.prog = op :: rest) (ht : t.prog = rest) (hctrl : t.ctrl = .idle) :
    stepsLeft t < stepsLeft s := by
  rw [stepsLeft_idle hctrl, ht, stepsLeft, hprog]
  simp only
  omega

theorem stepsLeft_goto (hprog : s.prog = op :: rest) (ht : t.prog = s.prog)
    (hlt : op.left t.ctrl < op.left s.ctrl) : stepsLeft t < stepsLeft s := by
  rw [stepsLeft, ht, stepsLeft, hprog]
  simp only
  omega

theorem stepsLeft_loop {n i : ℕ} {body : Ctrl} (hprog : s.prog = op :: rest)
    (ht : t.prog = s.prog) (hlt : i < n → op.left body < op.left s.ctrl) :
    stepsLeft (t.loop n i body) < stepsLeft s := by
  unfold State.loop
  split
  · exact stepsLeft_goto hprog ht (hlt ‹_›)
  · exact stepsLeft_ret hprog (by simp [State.ret, ht, hprog]) rfl

/-! ### Calls of the parent -/

/-- The parent can make its next call, and has fewer calls left after it. -/
def Advances (s : State U) : Prop :=
  ∃ ok t, parentStep ok s = some t ∧ t.raised = s.raised ∧ stepsLeft t < stepsLeft s

theorem attach_advances {attrs : List PerfEventAttr} (hprog : s.prog = .processAttach attrs :: rest)
    (hplace : (Op.processAttach attrs).hasPlace s.ctrl = true) : Advances s := by
  have hmember (i : ℕ) : (Op.processAttach attrs).left
      (atMember attrs.length i (.attach i) .write) ≤ attrs.length - i + 2 := by
    unfold atMember
    split
    · exact Nat.le_refl _
    · exact Nat.le_add_left _ _
  cases hc : s.ctrl with
  | idle =>
    refine ⟨true, _, by simp only [parentStep, hprog, attachStep, hc, if_true]; rfl, ?_, ?_⟩
    · rfl
    · exact stepsLeft_goto hprog rfl (by rw [hc]; exact Nat.lt_succ_self _)
  | forking =>
    refine ⟨true, _, by simp only [parentStep, hprog, attachStep, hc, if_true]; rfl, ?_, ?_⟩
    · rfl
    · exact stepsLeft_goto hprog rfl (by rw [hc]; exact Nat.lt_succ_self _)
  | closeRead =>
    refine ⟨true, _, by simp only [parentStep, hprog, attachStep, hc]; rfl, ?_, ?_⟩
    · rfl
    · exact stepsLeft_goto hprog rfl (by rw [hc]; exact Nat.lt_succ_of_le (hmember 0))
  | attach i =>
    rw [hc] at hplace
    have hi : i < attrs.length := of_decide_eq_true hplace
    have hattr : attrs[i]? = some attrs[i] := List.getElem?_eq_getElem hi
    refine ⟨true, _, by simp only [parentStep, hprog, attachStep, hc, hattr]; rfl, ?_, ?_⟩
    · rfl
    · refine stepsLeft_goto hprog rfl (Nat.lt_of_le_of_lt (hmember (i + 1)) ?_)
      rw [hc, Op.left]
      omega
  | write =>
    refine ⟨true, _, by simp only [parentStep, hprog, attachStep, hc]; rfl, ?_, ?_⟩
    · rfl
    · exact stepsLeft_goto hprog rfl (by rw [hc]; exact Nat.lt_succ_self _)
  | closeWrite =>
    refine ⟨true, _, by simp only [parentStep, hprog, attachStep, hc]; rfl, ?_, ?_⟩
    · rfl
    · exact stepsLeft_ret hprog (by simp [State.ret, hprog]) rfl
  | _ => simp [Op.hasPlace, hc] at hplace

theorem reopen_advances {attrs : List PerfEventAttr} (hprog : s.prog = .reopen attrs :: rest)
    (hplace : (Op.reopen attrs).hasPlace s.ctrl = true) : Advances s := by
  cases hc : s.ctrl with
  | idle =>
    refine ⟨true, _, by simp only [parentStep, hprog, reopenStep, hc]; rfl, ?_, ?_⟩
    · exact loop_raised _ _ _ _
    · exact stepsLeft_loop hprog rfl fun _ => by rw [hc]; exact Nat.lt_succ_self _
  | attach i =>
    rw [hc] at hplace
    have hi : i < attrs.length := of_decide_eq_true hplace
    have hattr : attrs[i]? = some attrs[i] := List.getElem?_eq_getElem hi
    refine ⟨true, _, by simp only [parentStep, hprog, reopenStep, hc, hattr]; rfl, ?_, ?_⟩
    · exact loop_raised _ _ _ _
    · refine stepsLeft_loop hprog rfl fun _ => ?_
      rw [hc, Op.left, Op.left]
      omega
  | _ => simp [Op.hasPlace, hc] at hplace

theorem start_advances {n : ℕ} (hprog : s.prog = .start n :: rest)
    (hplace : (Op.start n).hasPlace s.ctrl = true) : Advances s := by
  cases hc : s.ctrl with
  | idle =>
    refine ⟨true, _, by simp only [parentStep, hprog, startStep, hc]; rfl, ?_, ?_⟩
    · exact loop_raised _ _ _ _
    · refine stepsLeft_loop hprog rfl fun _ => ?_
      rw [hc, Op.left, Op.left]
      omega
  | reset i =>
    refine ⟨true, _, by simp only [parentStep, hprog, startStep, hc]; rfl, ?_, ?_⟩
    · rfl
    · exact stepsLeft_goto hprog rfl (by rw [hc]; exact Nat.lt_succ_self _)
  | enable i =>
    refine ⟨true, _, by simp only [parentStep, hprog, startStep, hc]; rfl, ?_, ?_⟩
    · exact loop_raised _ _ _ _
    · refine stepsLeft_loop hprog rfl fun hi => ?_
      rw [hc, Op.left, Op.left]
      omega
  | _ => simp [Op.hasPlace, hc] at hplace

theorem stop_advances {n : ℕ} (hprog : s.prog = .stop n :: rest)
    (hplace : (Op.stop n).hasPlace s.ctrl = true) : Advances s := by
  cases hc : s.ctrl with
  | idle =>
    refine ⟨true, _, by simp only [parentStep, hprog, stopStep, hc]; rfl, ?_, ?_⟩
    · exact loop_raised _ _ _ _
    · refine stepsLeft_loop hprog rfl fun _ => ?_
      rw [hc, Op.left, Op.left]
      omega
  | disable i =>
    refine ⟨true, _, by simp only [parentStep, hprog, stopStep, hc]; rfl, ?_, ?_⟩
    · exact loop_raised _ _ _ _
    · refine stepsLeft_loop hprog rfl fun hi => ?_
      rw [hc, Op.left, Op.left]
      omega
  | _ => simp [Op.hasPlace, hc] at hplace

/-- The sleep is cut short. -/
theorem sleep_advances {ms : ℕ} (hprog : s.prog = .sleepMs ms :: rest)
    (hplace : (Op.sleepMs ms).hasPlace s.ctrl = true) : Advances s := by
  have hret : s.ret.prog = rest := by simp [State.ret, hprog]
  cases hc : s.ctrl with
  | idle =>
    refine ⟨true, _, by simp only [parentStep, hprog, sleepStep, hc]; rfl, ?_, ?_⟩
    · split <;> rfl
    · split
      · exact stepsLeft_ret hprog hret rfl
      · exact stepsLeft_goto hprog rfl (by rw [hc]; exact Nat.lt_succ_self _)
  | sleeping wake =>
    refine ⟨false, s.ret, by simp [parentStep, hprog, sleepStep, hc], rfl, ?_⟩
    exact stepsLeft_ret hprog hret rfl
  | _ => simp [Op.hasPlace, hc] at hplace

theorem waitpidStep_advances (hprog : s.prog = op :: rest) (hchild : s.child = .zombie) :
    ∃ t, waitpidStep s = some t ∧ t.raised = s.raised ∧ stepsLeft t < stepsLeft s := by
  refine ⟨s.reap.ret, by simp [waitpidStep, hchild], rfl, ?_⟩
  exact stepsLeft_ret hprog (by simp [State.ret, State.reap, State.note, hprog]) rfl

theorem wait_advances {timeoutMs : UInt32} (hprog : s.prog = .waitWithTimeout timeoutMs :: rest)
    (hplace : (Op.waitWithTimeout timeoutMs).hasPlace s.ctrl = true) (hchild : s.child = .zombie) :
    Advances s := by
  have hgoes (ok : Bool) {t : State U} (h : waitStep ok timeoutMs s = some t)
      (hraised : t.raised = s.raised) (hlt : stepsLeft t < stepsLeft s) : Advances s :=
    ⟨ok, t, by simpa only [parentStep, hprog] using h, hraised, hlt⟩
  have hgoto {u : State U} (hu : u.prog = s.prog) (hlt : u.ctrl.waitLeft < s.ctrl.waitLeft) :
      stepsLeft u < stepsLeft s :=
    stepsLeft_goto hprog hu hlt
  obtain ⟨u, hu, hraised, hlt⟩ := waitpidStep_advances hprog hchild
  have hreap : stepsLeft s.reap.ret < stepsLeft s :=
    stepsLeft_ret hprog (by simp [State.ret, State.reap, State.note, hprog]) rfl
  cases hc : s.ctrl with
  | idle =>
    by_cases ht : timeoutMs = 0
    · exact hgoes true (t := s.goto .blocked) (by simp [waitStep, hc, ht]) rfl
        (hgoto rfl (by simp [hc, State.goto, Ctrl.waitLeft]))
    · refine hgoes true (by simp only [waitStep, hc, if_neg ht]; rfl) ?_ ?_
      · rfl
      · exact hgoto rfl (by simp [hc, State.goto, Ctrl.waitLeft])
  | blocked | final => exact hgoes true (by simpa only [waitStep, hc] using hu) hraised hlt
  | poll deadline | gracePoll hard =>
    exact hgoes true (t := s.reap.ret) (by simp [waitStep, hc, hchild]) rfl hreap
  | check deadline =>
    refine hgoes true (by simp only [waitStep, hc]; rfl) ?_ ?_
    · split <;> rfl
    · refine hgoto ?_ ?_
      · split <;> rfl
      · split <;> simp [hc, State.goto, Ctrl.waitLeft]
  | nap deadline wake | graceNap hard wake =>
    refine hgoes false (by simp only [waitStep, hc, true_or, if_true]; rfl) ?_ ?_
    · rfl
    · exact hgoto rfl (by simp [hc, State.goto, Ctrl.waitLeft])
  | term | hard | kill9 =>
    refine hgoes true (by simp only [waitStep, hc]; rfl) ?_ ?_
    · rfl
    · exact hgoto rfl (by simp [hc, State.goto, Ctrl.waitLeft])
  | graceCheck hard =>
    refine hgoes true (by simp only [waitStep, hc]; rfl) ?_ ?_
    · rfl
    · refine hgoto rfl ?_
      simp only [State.goto, hc]
      split <;> simp [Ctrl.waitLeft]
  | _ => simp [Op.hasPlace, hc] at hplace

/-- A call that can be made: inside its places, and with an ended child for a wait. -/
theorem parent_advances (hprog : s.prog = op :: rest) (hplace : op.hasPlace s.ctrl = true)
    (hwait : op.isWait = true → s.child = .zombie) : Advances s := by
  have hret : s.ret.prog = rest := by simp [State.ret, hprog]
  cases op with
  | runToEnd | spawn =>
    refine ⟨true, _, by simp only [parentStep, hprog, if_true]; rfl, ?_, ?_⟩
    · rfl
    · exact stepsLeft_ret hprog hret rfl
  | processAttach attrs => exact attach_advances hprog hplace
  | reopen attrs => exact reopen_advances hprog hplace
  | start n => exact start_advances hprog hplace
  | stop n => exact stop_advances hprog hplace
  | sleepMs ms => exact sleep_advances hprog hplace
  | clockBegin | clockEnd =>
    refine ⟨true, _, by simp only [parentStep, hprog]; rfl, ?_, ?_⟩
    · rfl
    · exact stepsLeft_ret hprog hret rfl
  | waitpid =>
    obtain ⟨t, ht, hraised, hlt⟩ := waitpidStep_advances hprog (hwait rfl)
    exact ⟨true, t, by simpa only [parentStep, hprog] using ht, hraised, hlt⟩
  | waitWithTimeout timeoutMs => exact wait_advances hprog hplace (hwait rfl)

/-! ### What every step keeps -/

theorem loop_place {n i : ℕ} {body : Ctrl} (hbody : i < n → op.hasPlace body = true) :
    (s.loop n i body).ctrl = .idle ∨ op.hasPlace (s.loop n i body).ctrl = true := by
  unfold State.loop
  split
  · exact .inr (hbody ‹_›)
  · exact .inl rfl

theorem attachStep_place {attrs : List PerfEventAttr} (h : attachStep ok attrs s = some t) :
    t.ctrl = .idle ∨ (Op.processAttach attrs).hasPlace t.ctrl = true := by
  have hmember (i : ℕ) : (Op.processAttach attrs).hasPlace
      (atMember attrs.length i (.attach i) .write) = true := by
    unfold atMember
    split
    · exact decide_eq_true ‹_›
    · rfl
  cases attachStep_cases h with
  | pipes _ _ eq | forks _ _ eq | writes _ eq => subst eq; exact .inr rfl
  | raises _ _ _ eq | returns _ eq => subst eq; exact .inl rfl
  | closesRead _ eq | opens _ _ _ _ eq => subst eq; exact .inr (hmember _)

theorem parentStep_place (hprog : s.prog = op :: rest) (h : parentStep ok s = some t) :
    t.ctrl = .idle ∨ op.hasPlace t.ctrl = true := by
  cases op with
  | runToEnd | spawn =>
    simp only [parentStep, hprog, Option.some.injEq] at h
    subst h
    cases ok <;> exact .inl rfl
  | processAttach attrs =>
    simp only [parentStep, hprog] at h
    exact attachStep_place h
  | reopen attrs =>
    simp only [parentStep, hprog] at h
    obtain rfl | ⟨i, attr, rfl⟩ := reopenStep_cases h
    · exact loop_place fun hi => decide_eq_true hi
    · exact loop_place fun hi => decide_eq_true hi
  | start n =>
    simp only [parentStep, hprog] at h
    obtain ⟨-, rfl⟩ | ⟨i, -, rfl⟩ | ⟨i, -, rfl⟩ := startStep_cases h
    · exact loop_place fun _ => rfl
    · exact .inr rfl
    · exact loop_place fun _ => rfl
  | stop n =>
    simp only [parentStep, hprog] at h
    obtain rfl | ⟨i, rfl⟩ := stopStep_cases h <;> exact loop_place fun _ => rfl
  | sleepMs ms =>
    simp only [parentStep, hprog] at h
    obtain rfl | ⟨-, rfl⟩ := sleepStep_cases h
    · exact .inl rfl
    · exact .inr rfl
  | clockBegin | clockEnd =>
    simp only [parentStep, hprog] at h
    cases h
    exact .inl rfl
  | waitpid =>
    simp only [parentStep, hprog] at h
    exact .inl (waitpidStep_before h).2.2.2
  | waitWithTimeout timeoutMs =>
    simp only [parentStep, hprog] at h
    cases waitStep_cases h with
    | waits _ call => exact .inl (waitpidStep_before call).2.2.2
    | reaps _ _ eq => subst eq; exact .inl rfl
    | blocks _ _ eq | begins _ _ eq | polls _ _ eq | expires _ _ _ eq | naps _ _ _ eq
    | wakes _ _ _ _ eq | terminates _ eq | grants _ eq | graceLeft _ _ _ eq | graceOver _ _ _ eq
    | gracePolls _ _ eq | graceWakes _ _ _ _ eq | kills _ eq => subst eq; exact .inr rfl

/-- Outside `process_attach` the pipe stays as it is, and no child is forked. -/
theorem parentStep_pipe (hprog : s.prog = op :: rest) (hattach : op.isAttach = false)
    (h : parentStep ok s = some t) :
    t.pipe = s.pipe ∧ ∀ todo, t.child = .stub todo → s.child = .stub todo := by
  cases op with
  | processAttach attrs => cases hattach
  | runToEnd =>
    simp only [parentStep, hprog, Option.some.injEq] at h
    subst h
    cases ok <;> exact ⟨rfl, fun _ h => h⟩
  | spawn =>
    simp only [parentStep, hprog, Option.some.injEq] at h
    subst h
    cases ok
    · exact ⟨rfl, fun _ h => h⟩
    · exact ⟨rfl, fun _ h => Child.noConfusion h⟩
  | waitpid =>
    simp only [parentStep, hprog] at h
    obtain ⟨-, rfl⟩ | ⟨-, rfl⟩ := waitpidStep_cases h
    · exact ⟨rfl, fun _ h => Child.noConfusion h⟩
    · exact ⟨rfl, fun _ h => h⟩
  | waitWithTimeout timeoutMs =>
    simp only [parentStep, hprog] at h
    obtain ⟨_, _, rfl⟩ | ⟨child, _, hgone, rfl⟩ := waitStep_waits h
    · exact ⟨rfl, fun _ h => h⟩
    · refine ⟨rfl, fun todo hstub => ?_⟩
      simp only at hstub
      rcases hgone with hgone | hgone <;> simp [hstub] at hgone
  | reopen _ | start _ | stop _ | sleepMs _ | clockBegin | clockEnd =>
    obtain ⟨-, hchild, hpipe⟩ := parentStep_plain hprog rfl h
    exact ⟨hpipe, fun _ h => hchild ▸ h⟩

namespace Sound

theorem attach {attrs : List PerfEventAttr} (hs : Sound s) (h : attachStep ok attrs s = some t) :
    (t.prog = s.prog ∨ t.prog = [] ∨ t.pipe.parentWrite = false) ∧
    ∀ todo, t.child = .stub todo →
      ∃ k ≤ 4, todo = attachChild.drop k ∧ (1 ≤ k → t.pipe.childWrite = false) := by
  cases attachStep_cases h with
  | pipes _ _ eq =>
    subst eq
    refine ⟨.inl rfl, fun todo hstub => ?_⟩
    obtain ⟨k, hk, htodo, -⟩ := hs.stub todo hstub
    exact ⟨k, hk, htodo, fun _ => rfl⟩
  | forks _ _ eq =>
    subst eq
    refine ⟨.inl rfl, fun todo hstub => ?_⟩
    cases hstub
    exact ⟨0, Nat.zero_le _, rfl, fun h => absurd h (Nat.not_succ_le_zero 0)⟩
  | raises place fails pipe eq =>
    rcases place with place | place
    · simp only [attachStep, place, fails] at h
      cases h
      exact ⟨.inr (.inl rfl), hs.stub⟩
    · simp only [attachStep, place, fails] at h
      cases h
      exact ⟨.inr (.inl rfl), hs.stub⟩
  | closesRead _ eq | opens _ _ _ _ eq | writes _ eq =>
    subst eq
    exact ⟨.inl rfl, hs.stub⟩
  | returns _ eq =>
    subst eq
    exact ⟨.inr (.inr rfl), hs.stub⟩

theorem parent (hs : Sound s) (h : parentStep ok s = some t) : Sound t := by
  cases hprog : s.prog with
  | nil => simp [parentStep, hprog] at h
  | cons op rest =>
    have hplace := parentStep_place hprog h
    have hprog' : t.prog = s.prog ∨ t.ctrl = .idle := by
      obtain ⟨-, hp, -⟩ | ⟨-, -, hc, -⟩ | ⟨-, -, hc, -⟩ := parentStep_outcome h
      · exact .inl hp
      · exact .inr hc
      · exact .inr hc
    have htplace (op' : Op) (rest' : List Op) (ht : t.prog = op' :: rest') :
        op'.hasPlace t.ctrl = true := by
      rcases hprog' with hp | hc
      · rw [hp, hprog, List.cons.injEq] at ht
        obtain ⟨rfl, -⟩ := ht
        exact hplace.elim (fun hc => hc ▸ hasPlace_idle _) id
      · exact hc ▸ hasPlace_idle _
    cases hattach : op.isAttach with
    | false =>
      obtain ⟨hpipe, hstub⟩ := parentStep_pipe hprog hattach h
      refine ⟨htplace, fun _ _ _ _ => hpipe ▸ hs.writeEnd op rest hprog hattach, fun todo ht => ?_⟩
      rw [hpipe]
      exact hs.stub todo (hstub todo ht)
    | true =>
      obtain ⟨attrs, rfl⟩ : ∃ attrs, op = .processAttach attrs := by
        cases op <;> first | exact ⟨_, rfl⟩ | cases hattach
      simp only [parentStep, hprog] at h
      obtain ⟨hp, hstub⟩ := hs.attach h
      refine ⟨htplace, fun op' rest' ht hop' => ?_, hstub⟩
      obtain hp | hp | hp := hp
      · rw [ht, hprog, List.cons.injEq] at hp
        rw [hp.1] at hop'
        cases hop'
      · rw [hp] at ht
        cases ht
      · exact hp

/-- A forked child goes on to its next call, or is no copy of the parent any more. -/
theorem stubs (hs : Sound s) (h : stubStep ok s = some t) :
    t.pipe.parentWrite = s.pipe.parentWrite ∧ ∀ todo, t.child = .stub todo →
      ∃ k ≤ 4, todo = attachChild.drop k ∧ (1 ≤ k → t.pipe.childWrite = false) := by
  have hchild : ∃ todo, s.child = .stub todo := by
    obtain ⟨todo, hc, -⟩ | ⟨todo, hc, -⟩ := stubStep_stubs h <;> exact ⟨_, hc⟩
  obtain ⟨todo, hchild⟩ := hchild
  obtain ⟨k, hk, rfl, hwrite⟩ := hs.stub todo hchild
  simp only [stubStep, hchild, attachChild] at h
  interval_cases k <;> simp only [List.drop] at h
  · cases h
    exact ⟨rfl, fun todo ht => ⟨1, by omega, by cases ht; rfl, fun _ => rfl⟩⟩
  · split at h <;> cases h
    exact ⟨rfl, fun todo ht => ⟨2, by omega, by cases ht; rfl, fun _ => hwrite (by omega)⟩⟩
  · cases h
    exact ⟨rfl, fun todo ht => ⟨3, by omega, by cases ht; rfl, fun _ => hwrite (by omega)⟩⟩
  · cases h
    split
    · exact ⟨rfl, fun todo ht => Child.noConfusion ht⟩
    · exact ⟨rfl, fun todo ht => ⟨4, by omega, by cases ht; rfl, fun _ => hwrite (by omega)⟩⟩
  · cases h
    exact ⟨rfl, fun todo ht => Child.noConfusion ht⟩

theorem background (hs : Sound s) (h : Acts sees s t l) : Sound t := by
  have hb := h.background
  have hpipe : t.pipe.parentWrite = s.pipe.parentWrite ∧ ∀ todo, t.child = .stub todo →
      ∃ k ≤ 4, todo = attachChild.drop k ∧ (1 ≤ k → t.pipe.childWrite = false) := by
    cases h with
    | stub ok call => exact hs.stubs call
    | work u child eq => subst eq; exact ⟨rfl, hs.stub⟩
    | exit may eq => subst eq; exact ⟨rfl, fun _ ht => Child.noConfusion ht⟩
    | tick ns clock le eq => subst eq; exact ⟨rfl, hs.stub⟩
  refine ⟨fun op rest ht => ?_, fun op rest ht hop => ?_, hpipe.2⟩
  · exact hb.ctrl ▸ hs.place op rest (hb.prog ▸ ht)
  · exact hpipe.1.trans (hs.writeEnd op rest (hb.prog ▸ ht) hop)

theorem step (hs : Sound s) (h : Process.step sees s l = some t) : Sound t := by
  obtain ⟨ok, -, h⟩ | h := step_cases h
  · exact hs.parent h
  · exact hs.background h

end Sound

/-! ### The child -/

/-- The steps that are enough for a child to end. -/
def Child.left : Child → ℕ
  | .stub todo => todo.length + 1
  | .program => 1
  | _ => 0

/-- Outside `process_attach`, a child can take a step towards its end. -/
theorem child_step (sees : ℕ → U → Bool) (hs : Sound s) (hwrite : s.pipe.parentWrite = false)
    (hgone : ¬ Gone s) (hchild : s.child ≠ .zombie) :
    ∃ l t, step sees s l = some t ∧ Acts sees s t l ∧ t.child.left < s.child.left := by
  cases hc : s.child with
  | none => exact absurd (.inl hc) hgone
  | reaped => exact absurd (.inr hc) hgone
  | zombie => exact absurd hc hchild
  | program =>
    have hmay : MayExit s := by simp [MayExit, hc]
    exact ⟨.exit, _, by simp only [step, if_pos hmay], .exit hmay rfl, Nat.zero_lt_one⟩
  | stub todo =>
    obtain ⟨k, hk, rfl, hend⟩ := hs.stub todo hc
    have hcall : ∃ t, stubStep false s = some t ∧
        t.child.left < (Child.stub (attachChild.drop k)).left := by
      simp only [stubStep, hc, attachChild]
      interval_cases k <;> simp only [List.drop]
      · exact ⟨_, rfl, Nat.lt_succ_self _⟩
      · exact ⟨_, if_pos (.inr ⟨hwrite, hend le_rfl⟩), Nat.lt_succ_self _⟩
      · exact ⟨_, rfl, Nat.lt_succ_self _⟩
      · exact ⟨_, rfl, Nat.lt_succ_self _⟩
      · exact ⟨_, rfl, Nat.zero_lt_succ _⟩
    obtain ⟨t, ht, hlt⟩ := hcall
    exact ⟨.stub false, t, ht, .stub false ht, hlt⟩

/-- The parent stands where it stood in `s`, and has a child to wait for. -/
structure Stands (s u : State U) : Prop where
  sound : Sound u
  prog : u.prog = s.prog
  ctrl : u.ctrl = s.ctrl
  raised : u.raised = s.raised
  child : ¬ Gone u

theorem child_ends (hs : Sound s) (hprog : s.prog = op :: rest) (hattach : op.isAttach = false)
    (hgone : ¬ Gone s) :
    ∃ t, Reachable (step sees) s t ∧ Stands s t ∧ t.child = .zombie := by
  refine Leads.of_rank (I := Stands s) (fun u => u.child.left) (fun u hu => ?_) s
    ⟨hs, rfl, rfl, rfl, hgone⟩
  by_cases hchild : u.child = .zombie
  · exact .inl ⟨hu, hchild⟩
  · have hwrite := hu.sound.writeEnd op rest (hu.prog.trans hprog) hattach
    obtain ⟨l, t, ht, hacts, hlt⟩ := child_step sees hu.sound hwrite hu.child hchild
    have hb := hacts.background
    exact .inr ⟨t, .of_step l ht, ⟨hu.sound.step ht, hb.prog.trans hu.prog, hb.ctrl.trans hu.ctrl,
      hb.raised.trans hu.raised, hacts.not_gone hu.child⟩, hlt⟩

/-! ### The end of `main` -/

/-- A state of `main`: what it has shown, and what keeps the two processes going. -/
structure Going (all : List Effect) (s : State U) : Prop where
  sound : Sound s
  shows : ∃ os, Shows all os s

namespace Going
variable {all : List Effect}

theorem step (hs : Going all s) (h : Process.step sees s l = some t) : Going all t := by
  obtain ⟨os, hshows⟩ := hs.shows
  exact ⟨hs.sound.step h, _, hshows.step h⟩

theorem reachable (hs : Going all s) (h : Reachable (Process.step sees) s t) : Going all t :=
  h.invariant (fun _ _ _ hs h => hs.step h) hs

/-- The parent comes to a wait only with a child to wait for. -/
theorem child (hs : Going all s) (hprog : s.prog = op :: rest) (hwait : op.isWait = true) :
    ¬ Gone s := by
  obtain ⟨os, hshows⟩ := hs.shows
  cases hshows with
  | raised prog raised gone shown => rw [hprog] at prog; cases prog
  | attaching attrs rest' was past paired child raised shown => exact child
  | between busy paired child place raised shown =>
    rw [hprog] at paired
    have hbusy : busy = true := by
      cases op with
      | waitpid | waitWithTimeout timeoutMs => exact paired.1
      | spawn | runToEnd | processAttach _ | reopen _ | start _ | stop _ | sleepMs _ | clockBegin
      | clockEnd => cases hwait
    exact fun hgone => by rw [child.mp hgone] at hbusy; cases hbusy

/-- The next call can be made, after the end of the child if it is a wait. -/
theorem advances (sees : ℕ → U → Bool) (hs : Going all s) (hprog : s.prog = op :: rest) :
    ∃ t, Reachable (Process.step sees) s t ∧ t.raised = s.raised ∧ stepsLeft t < stepsLeft s := by
  have hready : ∃ u, Reachable (Process.step sees) s u ∧ Going all u ∧ u.prog = s.prog ∧
      u.ctrl = s.ctrl ∧ u.raised = s.raised ∧ (op.isWait = true → u.child = .zombie) := by
    cases hwait : op.isWait with
    | false => exact ⟨s, .refl s, hs, rfl, rfl, rfl, Bool.noConfusion⟩
    | true =>
      have hattach : op.isAttach = false := by
        cases op <;> first | rfl | cases hwait
      obtain ⟨u, hu, hstands, hchild⟩ :=
        child_ends hs.sound hprog hattach (hs.child hprog hwait)
      exact ⟨u, hu, hs.reachable hu, hstands.prog, hstands.ctrl, hstands.raised, fun _ => hchild⟩
  obtain ⟨u, hu, hgoing, hp, hc, hr, hchild⟩ := hready
  have huprog : u.prog = op :: rest := hp.trans hprog
  obtain ⟨ok, t, ht, hraised, hlt⟩ :=
    parent_advances huprog (hgoing.sound.place op rest huprog) hchild
  have hsame : stepsLeft u = stepsLeft s := by
    rw [stepsLeft, stepsLeft, hp, hc]
  exact ⟨t, hu.trans (.of_step (.parent ok) ht), hraised.trans hr, hsame ▸ hlt⟩

end Going

theorem main_going {clock : Clock}
    (h : Reachable (step sees) (initial (mainOps supported cli) clock) s) :
    Going (mainEffects supported cli) s := by
  refine Going.reachable ⟨⟨fun op _ _ => hasPlace_idle op, fun _ _ _ _ => rfl,
    fun _ hstub => Child.noConfusion hstub⟩, [], ?_⟩ h
  exact shows_initial supported cli clock

/-- `main` never gets stuck. In every state it can reach, under every interleaving and
whatever has failed, it can still come to its end, without an exception if it is not
ending by one already. -/
theorem main_finishes {clock : Clock}
    (h : Reachable (step sees) (initial (mainOps supported cli) clock) s) :
    ∃ t, Reachable (step sees) s t ∧ t.prog = [] ∧ t.raised = s.raised := by
  have hall : Leads (step sees)
      (fun u => Going (mainEffects supported cli) u ∧ u.raised = s.raised)
      (fun u => u.prog = [] ∧ u.raised = s.raised) := by
    refine .of_rank stepsLeft fun u ⟨hgoing, hraised⟩ => ?_
    cases hprog : u.prog with
    | nil => exact .inl ⟨rfl, hraised⟩
    | cons op rest =>
      obtain ⟨t, ht, hr, hlt⟩ := hgoing.advances sees hprog
      exact .inr ⟨t, ht, ⟨hgoing.reachable ht, hr.trans hraised⟩, hlt⟩
  exact hall s ⟨main_going h, rfl⟩

/-- `bbench -e cycles ./a`, with the child in its `read`. -/
theorem main_finishes_held : ∃ s : State ℕ,
    run (step fun _ _ => true) (initial (mainOps false oneRun) ⟨0, by decide⟩)
      [.parent true, .parent true, .stub true] = some s ∧
    ∃ t, Reachable (step fun _ _ => true) s t ∧ t.prog = [] ∧ t.raised = s.raised := by
  have hrun : (run (step fun _ _ => true) (initial (mainOps false oneRun) ⟨0, by decide⟩)
      [.parent true, .parent true, .stub true] : Option (State ℕ)).isSome := by
    decide +kernel
  obtain ⟨s, hs⟩ := Option.isSome_iff_exists.mp hrun
  exact ⟨s, hs, main_finishes ⟨_, hs⟩⟩

end Bbench.Process
