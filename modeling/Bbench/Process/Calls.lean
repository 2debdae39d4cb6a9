import Bbench.Process.Frame

/-! What a call of the parent does to the child it has forked. In a program without
`process<false>` that awaits each child before the next `process_attach`, a call forks,
goes on inside a `process_attach`, ends a wait, or leaves the child alone. -/

namespace Bbench.Process

open Perf Transition

variable {U : Type*} {s t : State U} {ok : Bool}

def Op.isAttach : Op → Bool
  | .processAttach _ => true
  | _ => false

/-- The call is a `fork` that succeeds. -/
def forks (s : State U) : Label U → Bool
  | .parent ok => ok && s.ctrl = .forking && s.prog.head?.any Op.isAttach
  | _ => false

def Op.isWait : Op → Bool
  | .waitpid | .waitWithTimeout _ => true
  | _ => false

/-- Inside a call, and for `process_attach` after its `fork`. -/
def Ctrl.past : Ctrl → Bool
  | .idle | .forking => false
  | _ => true

/-- What a call that starts no `process<false>` does to the child. -/
inductive Calls (ok : Bool) (s t : State U) : Prop
  | forks (attrs : List PerfEventAttr) (rest : List Op)
    (was : s.prog = .processAttach attrs :: rest) (forking : s.ctrl = .forking)
    (succeeds : ok = true) (prog : t.prog = s.prog)
    (ctrl : t.ctrl.past = true) (child : t.child = .stub attachChild)
  | attaches (attrs : List PerfEventAttr) (rest : List Op)
    (was : s.prog = .processAttach attrs :: rest) (place : s.ctrl ≠ .forking)
    (prog : t.prog = s.prog) (ctrl : t.ctrl.past = s.ctrl.past) (child : t.child = s.child)
  | attached (attrs : List PerfEventAttr) (rest : List Op)
    (was : s.prog = .processAttach attrs :: rest) (place : s.ctrl.past = true)
    (prog : t.prog = rest) (ctrl : t.ctrl = .idle) (child : t.child = s.child)
  | goesOn (op : Op) (rest : List Op) (was : s.prog = op :: rest) (ne : op.isAttach = false)
    (prog : t.prog = s.prog) (child : t.child = s.child)
  | returns (op : Op) (rest : List Op) (was : s.prog = op :: rest) (ne : op.isAttach = false)
    (wait : op.isWait = false) (prog : t.prog = rest) (ctrl : t.ctrl = .idle)
    (child : t.child = s.child)
  | awaits (op : Op) (rest : List Op) (was : s.prog = op :: rest) (ne : op.isAttach = false)
    (prog : t.prog = rest) (ctrl : t.ctrl = .idle) (before : Gone s ∨ s.child = .zombie)
    (gone : Gone t)
  | raises (fails : Process.forks s (.parent ok) = false) (prog : t.prog = [])
    (raised : t.raised = true) (child : t.child = s.child)

theorem attachStep_calls {attrs : List PerfEventAttr} {rest : List Op}
    (hprog : s.prog = .processAttach attrs :: rest) (h : attachStep ok attrs s = some t) :
    Calls ok s t := by
  have hmember (n i : ℕ) : (atMember n i (.attach i) .write).past = true := by
    unfold atMember
    split <;> rfl
  cases attachStep_cases h with
  | pipes place _ eq =>
    subst eq
    exact .attaches _ _ hprog (by simp [place]) rfl (by rw [place]; rfl) rfl
  | forks place succeeds eq => subst eq; exact .forks _ _ hprog place succeeds rfl rfl rfl
  | raises _ fails _ eq => subst eq; exact .raises (by simp [forks, fails]) rfl rfl rfl
  | closesRead place eq =>
    subst eq
    exact .attaches _ _ hprog (by simp [place]) rfl (by rw [place]; exact hmember _ _) rfl
  | opens i attr place _ eq =>
    subst eq
    exact .attaches _ _ hprog (by simp [place]) rfl (by rw [place]; exact hmember _ _) rfl
  | writes place eq =>
    subst eq
    exact .attaches _ _ hprog (by simp [place]) rfl (by rw [place]; rfl) rfl
  | returns place eq =>
    subst eq
    exact .attached _ _ hprog (by rw [place]; rfl) (by simp [State.ret, hprog]) rfl rfl

theorem waitpidStep_before (h : waitpidStep s = some t) :
    (Gone s ∨ s.child = .zombie) ∧ Gone t ∧ t.prog = s.prog.tail ∧ t.ctrl = .idle := by
  obtain ⟨hc, rfl⟩ | ⟨hc, rfl⟩ := waitpidStep_cases h
  · exact ⟨.inr hc, .inr rfl, rfl, rfl⟩
  · exact ⟨.inl hc, hc, rfl, rfl⟩

/-- `__wait_with_timeout` goes on, or finds no child or one that has ended. -/
theorem waitStep_before {timeoutMs : UInt32} (h : waitStep ok timeoutMs s = some t) :
    (t.prog = s.prog ∧ t.child = s.child) ∨
      (Gone s ∨ s.child = .zombie) ∧ Gone t ∧ t.prog = s.prog.tail ∧ t.ctrl = .idle := by
  cases waitStep_cases h with
  | waits _ call => exact .inr (waitpidStep_before call)
  | reaps _ ended eq => subst eq; exact .inr ⟨.inr ended, .inr rfl, rfl, rfl⟩
  | blocks _ _ eq | begins _ _ eq | polls _ _ eq | expires _ _ _ eq | naps _ _ _ eq
  | wakes _ _ _ _ eq | terminates _ eq | grants _ eq | graceLeft _ _ _ eq | graceOver _ _ _ eq
  | gracePolls _ _ eq | graceWakes _ _ _ _ eq | kills _ eq =>
    subst eq
    exact .inl ⟨rfl, rfl⟩

/-- A loop goes on, or returns after its last member. -/
theorem loop_calls {op : Op} {rest : List Op} {n i : ℕ} {body : Ctrl} (hprog : s.prog = op :: rest)
    (ne : op.isAttach = false) (wait : op.isWait = false) (hp : t.prog = s.prog)
    (hc : t.child = s.child) : Calls ok s (t.loop n i body) := by
  unfold State.loop
  split
  · exact .goesOn _ _ hprog ne hp hc
  · exact .returns _ _ hprog ne wait (by simp [State.ret, hp, hprog]) rfl hc

theorem parentStep_calls (hspawn : s.prog.head? ≠ some .spawn) (h : parentStep ok s = some t) :
    Calls ok s t := by
  unfold parentStep at h
  split at h
  case h_1 => cases h
  case h_2 rest hprog =>
    split at h <;> cases h
    · exact .returns _ _ hprog rfl rfl (by simp [State.ret, hprog]) rfl rfl
    · exact .raises (by simp [forks, hprog, Op.isAttach]) rfl rfl rfl
  case h_3 attrs rest hprog => exact attachStep_calls hprog h
  case h_4 rest hprog => simp [hprog] at hspawn
  case h_5 attrs rest hprog =>
    obtain rfl | ⟨i, attr, rfl⟩ := reopenStep_cases h <;> exact loop_calls hprog rfl rfl rfl rfl
  case h_6 n rest hprog =>
    obtain ⟨-, rfl⟩ | ⟨i, -, rfl⟩ | ⟨i, -, rfl⟩ := startStep_cases h
    · exact loop_calls hprog rfl rfl rfl rfl
    · exact .goesOn _ _ hprog rfl rfl rfl
    · exact loop_calls hprog rfl rfl rfl rfl
  case h_7 n rest hprog =>
    obtain rfl | ⟨i, rfl⟩ := stopStep_cases h <;> exact loop_calls hprog rfl rfl rfl rfl
  case h_8 ms rest hprog =>
    obtain rfl | ⟨-, rfl⟩ := sleepStep_cases h
    · exact .returns _ _ hprog rfl rfl (by simp [State.ret, hprog]) rfl rfl
    · exact .goesOn _ _ hprog rfl rfl rfl
  case h_9 rest hprog =>
    cases h
    exact .returns _ _ hprog rfl rfl (by simp [State.ret, hprog]) rfl rfl
  case h_10 rest hprog =>
    cases h
    exact .returns _ _ hprog rfl rfl (by simp [State.ret, hprog]) rfl rfl
  case h_11 rest hprog =>
    obtain ⟨hbefore, hgone, hp, hctrl⟩ := waitpidStep_before h
    exact .awaits _ _ hprog rfl (by simp [hp, hprog]) hctrl hbefore hgone
  case h_12 timeoutMs rest hprog =>
    obtain ⟨hp, hc⟩ | ⟨hbefore, hgone, hp, hctrl⟩ := waitStep_before h
    · exact .goesOn _ _ hprog rfl hp hc
    · exact .awaits _ _ hprog rfl (by simp [hp, hprog]) hctrl hbefore hgone

/-! ### Each child is awaited -/

/-- A wait comes before the next `process_attach`. -/
def Waited : List Op → Prop
  | [] => False
  | op :: rest => op.isWait = true ∨ op.isAttach = false ∧ Waited rest

/-- There is no `process<false>`, and the child of each `process_attach` is awaited. -/
def Alternates : List Op → Prop
  | [] => True
  | op :: rest => op ≠ .spawn ∧ (op.isAttach = true → Waited rest) ∧ Alternates rest

theorem Waited.append {ops more : List Op} (h : Waited ops) : Waited (ops ++ more) := by
  induction ops with
  | nil => exact absurd h id
  | cons op ops ih => exact h.imp_right fun ⟨hattach, hrest⟩ => ⟨hattach, ih hrest⟩

/-- Calls before it that are no `process_attach` do not matter. -/
theorem Waited.append_left {ops more : List Op} (hops : ∀ op ∈ ops, op.isAttach = false)
    (h : Waited more) : Waited (ops ++ more) := by
  induction ops with
  | nil => exact h
  | cons op ops ih =>
    exact .inr ⟨hops op (by simp), ih fun op' hop' => hops op' (by simp [hop'])⟩

theorem Alternates.of_not_attach {ops : List Op}
    (h : ∀ op ∈ ops, op ≠ .spawn ∧ op.isAttach = false) : Alternates ops := by
  induction ops with
  | nil => trivial
  | cons op ops ih =>
    obtain ⟨hspawn, hattach⟩ := h op (by simp)
    exact ⟨hspawn, fun h => absurd h (by simp [hattach]), ih fun op' hop' => h op' (by simp [hop'])⟩

theorem Alternates.append {ops more : List Op} (h : Alternates ops) (hmore : Alternates more) :
    Alternates (ops ++ more) := by
  induction ops with
  | nil => exact hmore
  | cons op ops ih => exact ⟨h.1, fun hattach => (h.2.1 hattach).append, ih h.2.2⟩

theorem Alternates.flatMap {α : Type*} {as : List α} {f : α → List Op}
    (h : ∀ a ∈ as, Alternates (f a)) : Alternates (as.flatMap f) := by
  induction as with
  | nil => trivial
  | cons a as ih =>
    rw [List.flatMap_cons]
    exact (h a (by simp)).append (ih fun b hb => h b (by simp [hb]))

end Bbench.Process
