import Bbench.Process.Launch

/-! `main` from the outside: its hooks, its forks and its waits, in the order in which
they take effect. Each fork follows the end of the child before it, so the measured
programs never overlap, no hook runs while one of them does, and nothing is left to
wait for when `main` ends, by an exception or not; unless the clock cannot be read
while there is a child, which `main` then leaves behind. -/

namespace Bbench.Process

open Perf Transition Cli

variable {U : Type*} {sees : ℕ → U → Bool} {s t : State U} {ok : Bool} {l : Label U}
  {opts : BenchmarkOpts} {supported : Bool} {cli : CliOpts} {op : Op} {ops rest : List Op}

/-! ### What a program should show -/

inductive Effect
  /-- The command of `--pre` or `--post` has run. -/
  | hook
  | forked
  /-- The child has ended and been waited for. -/
  | reaped
  deriving DecidableEq, Repr

def hookEffects (cmd : Option String) : List Effect := if cmd.isSome then [.hook] else []

/-- One measurement. -/
def measureEffects (opts : BenchmarkOpts) : List Effect :=
  hookEffects opts.pre ++ [.forked, .reaped] ++ hookEffects opts.post

/-- One measurement after the other: all runs of a path before the next path, and the
top-down measurements after the runs. -/
def mainEffects (supported : Bool) (cli : CliOpts) : List Effect :=
  (cli.paths.flatMap fun _ => (List.range cli.nRuns).flatMap fun _ =>
    measureEffects cli.benchOpts) ++
  if TopdownMeasured supported cli then cli.paths.flatMap fun _ => measureEffects cli.benchOpts
  else []

def Op.effects : Op → List Effect
  | .runToEnd => [.hook]
  | .processAttach _ => [.forked]
  | .waitpid | .waitWithTimeout _ => [.reaped]
  | _ => []

theorem effects_hookOps (cmd : Option String) :
    (hookOps cmd).flatMap Op.effects = hookEffects cmd := by
  cases cmd <;> rfl

theorem effects_measureOps (opts : BenchmarkOpts) (attrs : List PerfEventAttr) :
    (measureOps opts attrs).flatMap Op.effects = measureEffects opts := by
  have hdelay : (delayOps opts).flatMap Op.effects = [] :=
    List.flatMap_eq_nil_iff.mpr fun op hop => by rw [mem_delayOps hop]; rfl
  simp [measureOps, timedOps, finishOps, effects_hookOps, hdelay, Op.effects, measureEffects]

theorem effects_measureBinOps (opts : BenchmarkOpts) :
    (measureBinOps true opts).flatMap Op.effects = measureEffects opts := by
  simp [measureBinOps, effects_hookOps, Op.effects, measureEffects]

theorem effects_mainOps (supported : Bool) (cli : CliOpts) :
    (mainOps supported cli).flatMap Op.effects = mainEffects supported cli := by
  rw [mainOps_eq, List.flatMap_append, runsOps, topdownOps, mainEffects]
  congr 1
  · simp only [List.flatMap_assoc, effects_measureOps]
  · split
    · simp only [List.flatMap_assoc, effects_measureBinOps]
    · rfl

/-! ### Each fork has its wait -/

/-- From a state with a child to wait for (`busy`) or without one, the calls fork and
wait in turn, and end without a child. -/
def Paired : Bool → List Op → Prop
  | busy, [] => busy = false
  | busy, op :: rest =>
    match op with
    | .spawn => False
    | .runToEnd => busy = false ∧ Paired false rest
    | .processAttach _ => busy = false ∧ Paired true rest
    | .waitpid | .waitWithTimeout _ => busy = true ∧ Paired false rest
    | _ => Paired busy rest

theorem Paired.append {busy : Bool} (h : Paired busy ops) (hrest : Paired false rest) :
    Paired busy (ops ++ rest) := by
  induction ops generalizing busy with
  | nil => exact (h : busy = false) ▸ hrest
  | cons op ops ih =>
    rw [List.cons_append]
    cases op with
    | spawn => exact h
    | runToEnd | processAttach _ | waitpid | waitWithTimeout _ => exact ⟨h.1, ih h.2⟩
    | reopen _ | start _ | stop _ | sleepMs _ | clockBegin | clockEnd => exact ih h

theorem Paired.flatMap {α : Type*} {as : List α} {f : α → List Op}
    (h : ∀ a ∈ as, Paired false (f a)) : Paired false (as.flatMap f) := by
  induction as with
  | nil => rfl
  | cons a as ih =>
    rw [List.flatMap_cons]
    exact (h a (by simp)).append (ih fun b hb => h b (by simp [hb]))

theorem paired_hookOps (cmd : Option String) : Paired false (hookOps cmd) := by
  cases cmd with
  | none => rfl
  | some cmd => exact ⟨rfl, rfl⟩

theorem paired_measureOps (opts : BenchmarkOpts) (attrs : List PerfEventAttr) :
    Paired false (measureOps opts attrs) := by
  have hwait : Paired true (.clockBegin :: .waitWithTimeout opts.timeoutMs ::
      finishOps opts attrs.length) := ⟨rfl, paired_hookOps _⟩
  refine (paired_hookOps _).append ⟨rfl, ?_⟩
  unfold timedOps delayOps
  split <;> exact hwait

theorem paired_measureBinOps (opts : BenchmarkOpts) : Paired false (measureBinOps true opts) :=
  (paired_hookOps _).append ⟨rfl, rfl, paired_hookOps _⟩

theorem paired_mainOps (supported : Bool) (cli : CliOpts) :
    Paired false (mainOps supported cli) := by
  rw [mainOps_eq]
  refine .append (.flatMap fun _ _ => .flatMap fun _ _ => paired_measureOps _ _) ?_
  unfold topdownOps
  split
  · exact .flatMap fun _ _ => paired_measureBinOps _
  · rfl

/-! ### What an execution shows -/

instance (s : State U) : Decidable (Gone s) := inferInstanceAs (Decidable (_ ∨ _))

/-- What a step shows: a hook that has run, a `fork` that succeeds, a child that is gone. -/
def effect (s : State U) (l : Label U) (t : State U) : List Effect :=
  match l with
  | .parent ok =>
    if ok && s.prog.head? = some .runToEnd then [.hook]
    else if forks s l then [.forked]
    else if ¬ Gone s ∧ Gone t then [.reaped]
    else []
  | _ => []

theorem effect_hook {rest : List Op} (hprog : s.prog = .runToEnd :: rest) :
    effect s (.parent true) t = [.hook] := by
  simp [effect, hprog]

theorem effect_forked (hhook : s.prog.head? ≠ some .runToEnd)
    (hforks : forks s (.parent ok) = true) :
    effect s (.parent ok) t = [.forked] := by
  simp [effect, hhook, hforks]

theorem effect_reaped (hhook : s.prog.head? ≠ some .runToEnd)
    (hforks : forks s (.parent ok) = false) (hs : ¬ Gone s) (ht : Gone t) :
    effect s (.parent ok) t = [.reaped] := by
  simp [effect, hhook, hforks, hs, ht]

theorem effect_none (hhook : ok = true → s.prog.head? ≠ some .runToEnd)
    (hforks : forks s (.parent ok) = false) (hchild : t.child = s.child) :
    effect s (.parent ok) t = [] := by
  have hgone : Gone t ↔ Gone s := by rw [Gone, Gone, hchild]
  cases ok with
  | false => simp [effect, hforks, hgone]
  | true => simp [effect, hhook, hforks, hgone]

/-- Where a program stands that is to show `all` and has shown `os`. -/
inductive Shows (all os : List Effect) (s : State U) : Prop
  /-- Inside a `process_attach` that has forked. -/
  | attaching (attrs : List PerfEventAttr) (rest : List Op)
    (was : s.prog = .processAttach attrs :: rest) (past : s.ctrl.past = true)
    (paired : Paired true rest) (child : ¬ Gone s) (raised : s.raised = false)
    (shown : os ++ rest.flatMap Op.effects = all)
  | between (busy : Bool) (paired : Paired busy s.prog) (child : Gone s ↔ busy = false)
    (place : s.prog.head?.any Op.isAttach = true → s.ctrl.past = false)
    (raised : s.raised = false) (shown : os ++ s.prog.flatMap Op.effects = all)
  | raised (prog : s.prog = []) (raised : s.raised = true) (gone : Gone s) (shown : os <+: all)

/-- A call that neither starts a process nor waits for one. -/
def Op.isPlain (op : Op) : Bool := !(op.isAttach || op.isWait || op = .spawn || op = .runToEnd)

theorem Paired.plain (busy : Bool) (rest : List Op) (hplain : op.isPlain = true) :
    (Paired busy (op :: rest) ↔ Paired busy rest) ∧ op.effects = [] ∧ op.isAttach = false ∧
      op ≠ .runToEnd := by
  cases op with
  | spawn | runToEnd | processAttach _ | waitpid | waitWithTimeout _ => cases hplain
  | reopen _ | start _ | stop _ | sleepMs _ | clockBegin | clockEnd =>
    exact ⟨Iff.rfl, rfl, rfl, Op.noConfusion⟩

/-- A plain call does not raise, and leaves the child and the pipe alone. -/
theorem parentStep_plain (hprog : s.prog = op :: rest) (hplain : op.isPlain = true)
    (h : parentStep ok s = some t) :
    t.raised = s.raised ∧ t.child = s.child ∧ t.pipe = s.pipe := by
  have hloop (u : State U) (n i : ℕ) (body : Ctrl) : (u.loop n i body).raised = u.raised ∧
      (u.loop n i body).child = u.child ∧ (u.loop n i body).pipe = u.pipe :=
    ⟨loop_raised _ _ _ _, loop_child _ _ _ _, loop_pipe _ _ _ _⟩
  cases op with
  | spawn | runToEnd | processAttach _ | waitpid | waitWithTimeout _ => cases hplain
  | reopen attrs =>
    simp only [parentStep, hprog] at h
    obtain rfl | ⟨i, attr, rfl⟩ := reopenStep_cases h <;> exact hloop _ _ _ _
  | start n =>
    simp only [parentStep, hprog] at h
    obtain ⟨-, rfl⟩ | ⟨i, -, rfl⟩ | ⟨i, -, rfl⟩ := startStep_cases h
    · exact hloop _ _ _ _
    · exact ⟨rfl, rfl, rfl⟩
    · exact hloop _ _ _ _
  | stop n =>
    simp only [parentStep, hprog] at h
    obtain rfl | ⟨i, rfl⟩ := stopStep_cases h <;> exact hloop _ _ _ _
  | sleepMs ms =>
    simp only [parentStep, hprog] at h
    obtain rfl | ⟨-, rfl⟩ := sleepStep_cases h <;> exact ⟨rfl, rfl, rfl⟩
  | clockBegin | clockEnd =>
    simp only [parentStep, hprog] at h
    cases h
    exact ⟨rfl, rfl, rfl⟩

/-- A wait goes on, or leaves no child. -/
theorem parentStep_wait (hprog : s.prog = op :: rest) (hwait : op.isWait = true)
    (h : parentStep ok s = some t) : t.raised = s.raised ∧
      ((t.prog = s.prog ∧ t.child = s.child) ∨ t.prog = rest ∧ t.ctrl = .idle ∧ Gone t) := by
  cases op with
  | waitpid =>
    simp only [parentStep, hprog] at h
    obtain ⟨-, hgone, hp, hctrl⟩ := waitpidStep_before h
    refine ⟨?_, .inr ⟨by simp [hp, hprog], hctrl, hgone⟩⟩
    obtain ⟨-, rfl⟩ | ⟨-, rfl⟩ := waitpidStep_cases h <;> rfl
  | waitWithTimeout timeoutMs =>
    simp only [parentStep, hprog] at h
    refine ⟨by obtain ⟨_, _, rfl⟩ | ⟨_, _, -, rfl⟩ := waitStep_waits h <;> rfl, ?_⟩
    obtain hgoesOn | ⟨-, hgone, hp, hctrl⟩ := waitStep_before h
    · exact .inl hgoesOn
    · exact .inr ⟨by simp [hp, hprog], hctrl, hgone⟩
  | spawn | runToEnd | processAttach _ | reopen _ | start _ | stop _ | sleepMs _ | clockBegin
  | clockEnd => cases hwait

/-- Only a wait takes a child away. -/
theorem Acts.not_gone (h : Acts sees s t l) (hs : ¬ Gone s) : ¬ Gone t := by
  cases h with
  | stub ok call =>
    obtain ⟨_, -, child, _, hnow, rfl⟩ | ⟨_, -, rfl⟩ := stubStep_stubs call
    · obtain ⟨todo, rfl⟩ | rfl := hnow <;> simp [Gone]
    · simp [Gone, execve]
  | work u child eq => subst eq; exact hs
  | exit may eq => subst eq; simp [Gone]
  | tick ns clock le eq => subst eq; exact hs

theorem atMember_past (n i : ℕ) : (atMember n i (.attach i) .write).past = true := by
  unfold atMember
  split <;> rfl

namespace Shows
variable {all os : List Effect} {attrs : List PerfEventAttr}

/-- After the `fork`, `process_attach` shows nothing more. -/
theorem attachPast (was : s.prog = .processAttach attrs :: rest) (past : s.ctrl.past = true)
    (paired : Paired true rest) (child : ¬ Gone s) (raised : s.raised = false)
    (shown : os ++ rest.flatMap Op.effects = all) (h : attachStep ok attrs s = some t) :
    Shows all (os ++ effect s (.parent ok) t) t := by
  have hnone (hchild : t.child = s.child) : effect s (.parent ok) t = [] := by
    refine effect_none (by simp [was]) ?_ hchild
    have hplace : s.ctrl ≠ .forking := fun hctrl => by rw [hctrl] at past; cases past
    simp [forks, hplace]
  cases attachStep_cases h with
  | pipes place succeeds eq => rw [place] at past; cases past
  | forks place succeeds eq => rw [place] at past; cases past
  | raises place fails pipe eq =>
    rcases place with place | place <;> rw [place] at past <;> cases past
  | closesRead place eq =>
    subst eq
    rw [hnone rfl, List.append_nil]
    exact .attaching attrs rest was (atMember_past _ _) paired child raised shown
  | opens i attr place member eq =>
    subst eq
    rw [hnone rfl, List.append_nil]
    exact .attaching attrs rest was (atMember_past _ _) paired child raised shown
  | writes place eq =>
    subst eq
    rw [hnone rfl, List.append_nil]
    exact .attaching attrs rest was rfl paired child raised shown
  | returns place eq =>
    subst eq
    have hprog : s.ret.prog = rest := by simp [State.ret, was]
    rw [hnone rfl, List.append_nil]
    refine .between true ?_ ?_ (fun _ => rfl) raised ?_
    · exact hprog ▸ paired
    · exact ⟨fun hgone => absurd hgone child, Bool.noConfusion⟩
    · exact hprog ▸ shown

/-- Up to the `fork`, there is no child. -/
theorem attachBefore (was : s.prog = .processAttach attrs :: rest) (past : s.ctrl.past = false)
    (paired : Paired true rest) (gone : Gone s) (raised : s.raised = false)
    (shown : os ++ s.prog.flatMap Op.effects = all) (h : attachStep ok attrs s = some t) :
    Shows all (os ++ effect s (.parent ok) t) t := by
  have hhook : s.prog.head? ≠ some .runToEnd := by simp [was]
  cases attachStep_cases h with
  | pipes place succeeds eq =>
    have heffect : effect s (.parent ok) t = [] :=
      effect_none (fun _ => hhook) (by simp [Process.forks, place]) (by rw [eq]; rfl)
    rw [heffect, List.append_nil]
    subst eq
    exact .between false (was ▸ ⟨rfl, paired⟩) ⟨fun _ => rfl, fun _ => gone⟩ (fun _ => rfl) raised
      shown
  | forks place succeeds eq =>
    subst eq
    rw [effect_forked hhook (by simp [Process.forks, place, succeeds, was, Op.isAttach])]
    refine .attaching attrs rest was rfl paired (by simp [Gone]) raised ?_
    rw [was, List.flatMap_cons] at shown
    simpa [Op.effects] using shown
  | raises place fails pipe eq =>
    have heffect : effect s (.parent ok) t = [] :=
      effect_none (fun _ => hhook) (by simp [Process.forks, fails]) (by rw [eq]; rfl)
    rw [heffect, List.append_nil]
    subst eq
    exact .raised rfl rfl gone ⟨_, shown⟩
  | closesRead place eq | writes place eq | returns place eq | opens i attr place member eq =>
    rw [place] at past
    cases past

theorem hook (was : s.prog = .runToEnd :: rest) (paired : Paired false rest) (gone : Gone s)
    (raised : s.raised = false) (shown : os ++ s.prog.flatMap Op.effects = all)
    (h : parentStep ok s = some t) : Shows all (os ++ effect s (.parent ok) t) t := by
  simp only [parentStep, was, Option.some.injEq] at h
  rw [was, List.flatMap_cons] at shown
  cases ok with
  | true =>
    subst h
    have hprog : s.ret.prog = rest := by simp [State.ret, was]
    rw [if_pos rfl, effect_hook was]
    refine .between false ?_ ⟨fun _ => rfl, fun _ => gone⟩ (fun _ => rfl) raised ?_
    · exact hprog ▸ paired
    · rw [hprog, List.append_assoc]
      exact shown
  | false =>
    have heffect : effect s (.parent false) t = [] :=
      effect_none Bool.noConfusion (by simp [Process.forks]) (by rw [← h]; rfl)
    rw [heffect, List.append_nil]
    subst h
    exact .raised rfl rfl gone ⟨_, shown⟩

theorem plain {busy : Bool} (was : s.prog = op :: rest) (hplain : op.isPlain = true)
    (paired : Paired busy s.prog) (child : Gone s ↔ busy = false) (raised : s.raised = false)
    (shown : os ++ s.prog.flatMap Op.effects = all) (h : parentStep ok s = some t) :
    Shows all (os ++ effect s (.parent ok) t) t := by
  obtain ⟨hpaired, heffects, hattach, hhook⟩ := Paired.plain busy rest hplain
  obtain ⟨hraised, hchild, -⟩ := parentStep_plain was hplain h
  have heffect : effect s (.parent ok) t = [] :=
    effect_none (fun _ => by simp [was, hhook]) (by simp [Process.forks, was, hattach]) hchild
  have hgone : Gone t ↔ busy = false := by rwa [Gone, hchild]
  rw [heffect, List.append_nil]
  obtain ⟨-, hprog, -⟩ | ⟨-, hprog, hctrl, -⟩ | ⟨-, -, -, hr⟩ := parentStep_outcome h
  · refine .between busy (hprog ▸ paired) hgone ?_ (hraised.trans raised) (hprog ▸ shown)
    rw [hprog, was]
    exact fun h => absurd h (by simp [hattach])
  · have hrest : t.prog = rest := by simp [hprog, was]
    refine .between busy ?_ hgone (fun _ => by rw [hctrl]; rfl) (hraised.trans raised) ?_
    · rw [was] at paired
      exact hrest ▸ hpaired.mp paired
    · rwa [was, List.flatMap_cons, heffects, List.nil_append, ← hrest] at shown
  · rw [hraised, raised] at hr
    cases hr

theorem wait (was : s.prog = op :: rest) (hwait : op.isWait = true)
    (hop : op ≠ .runToEnd ∧ op.isAttach = false ∧ op.effects = [.reaped])
    (paired : Paired true s.prog ∧ Paired false rest) (child : ¬ Gone s) (raised : s.raised = false)
    (shown : os ++ s.prog.flatMap Op.effects = all) (h : parentStep ok s = some t) :
    Shows all (os ++ effect s (.parent ok) t) t := by
  obtain ⟨hhook, hattach, heffects⟩ := hop
  have hforks : Process.forks s (.parent ok) = false := by simp [Process.forks, was, hattach]
  obtain ⟨hraised, ⟨hprog, hchild⟩ | ⟨hprog, hctrl, hgone⟩⟩ := parentStep_wait was hwait h
  · have hgone : ¬ Gone t := by rwa [Gone, hchild]
    rw [effect_none (fun _ => by simp [was, hhook]) hforks hchild, List.append_nil]
    refine .between true (hprog ▸ paired.1) ⟨fun h => absurd h hgone, Bool.noConfusion⟩ ?_
      (hraised.trans raised) (hprog ▸ shown)
    rw [hprog, was]
    exact fun h => absurd h (by simp [hattach])
  · rw [effect_reaped (by simp [was, hhook]) hforks child hgone]
    refine .between false (hprog ▸ paired.2) ⟨fun _ => rfl, fun _ => hgone⟩
      (fun _ => by rw [hctrl]; rfl) (hraised.trans raised) ?_
    rwa [was, List.flatMap_cons, heffects, ← List.append_assoc, ← hprog] at shown

theorem parent (hs : Shows all os s) (h : parentStep ok s = some t) :
    Shows all (os ++ effect s (.parent ok) t) t := by
  cases hs with
  | raised prog raised gone shown => simp [parentStep, prog] at h
  | attaching attrs rest was past paired child raised shown =>
    simp only [parentStep, was] at h
    exact attachPast was past paired child raised shown h
  | between busy paired child place raised shown =>
    cases hprog : s.prog with
    | nil => simp [parentStep, hprog] at h
    | cons op rest =>
      have hpaired := paired
      rw [hprog] at hpaired
      cases op with
      | spawn => cases hpaired
      | runToEnd => exact hook hprog hpaired.2 (child.mpr hpaired.1) raised shown h
      | processAttach attrs =>
        have hpast := place (by simp [hprog, Op.isAttach])
        simp only [parentStep, hprog] at h
        exact attachBefore hprog hpast hpaired.2 (child.mpr hpaired.1) raised shown h
      | waitpid | waitWithTimeout _ =>
        obtain ⟨rfl, hrest⟩ := hpaired
        exact wait hprog rfl ⟨Op.noConfusion, rfl, rfl⟩ ⟨paired, hrest⟩
          (fun hgone => Bool.noConfusion (child.mp hgone)) raised shown h
      | reopen _ | start _ | stop _ | sleepMs _ | clockBegin | clockEnd =>
        exact plain hprog rfl paired child raised shown h

/-- What is no call of the parent shows nothing, and leaves a child a child. -/
theorem background (hs : Shows all os s) (h : Acts sees s t l) :
    Shows all (os ++ effect s l t) t := by
  have hb := h.background
  have heffect : effect s l t = [] := by cases h <;> rfl
  have hgone : Gone t ↔ Gone s :=
    ⟨fun ht => by_contra fun hs => h.not_gone hs ht, fun hs => by rwa [Gone, (hs.background h).1]⟩
  rw [heffect, List.append_nil]
  cases hs with
  | raised prog raised gone shown =>
    exact .raised (hb.prog.trans prog) (hb.raised.trans raised) (hgone.mpr gone) shown
  | attaching attrs rest was past paired child raised shown =>
    exact .attaching attrs rest (hb.prog.trans was) (by rwa [hb.ctrl]) paired
      (fun ht => child (hgone.mp ht)) (hb.raised.trans raised) shown
  | between busy paired child place raised shown =>
    exact .between busy (by rwa [hb.prog]) (hgone.trans child) (by rwa [hb.prog, hb.ctrl])
      (hb.raised.trans raised) (by rwa [hb.prog])

theorem step (hs : Shows all os s) (h : Process.step sees s l = some t) :
    Shows all (os ++ effect s l t) t := by
  obtain ⟨ok, rfl, h⟩ | h := step_cases h
  · exact hs.parent h
  · exact hs.background h

end Shows

theorem shows_initial (supported : Bool) (cli : CliOpts) (clock : Clock) :
    Shows (mainEffects supported cli) [] (initial (mainOps supported cli) clock : State U) :=
  .between false (paired_mainOps supported cli) ⟨fun _ => rfl, fun _ => .inl rfl⟩ (fun _ => rfl)
    rfl (effects_mainOps supported cli)

/-! ### A clock that cannot be read -/

/-- A step, or a reading of the clock that fails: `start_get` and `stop_get` then raise. -/
def stepOrRaise (sees : ℕ → U → Bool) (s : State U) : Option (Label U) → Option (State U)
  | some l => Process.step sees s l
  | none =>
    match s.prog with
    | .clockBegin :: _ | .clockEnd :: _ => some s.raise
    | _ => none

/-- A reading that fails shows nothing. -/
def shown (s : State U) (l : Option (Label U)) (t : State U) : List Effect :=
  l.elim [] fun l => effect s l t

/-- `main` is over, and has left a child behind. -/
structure Abandons (all os : List Effect) (s : State U) : Prop where
  prog : s.prog = []
  raised : s.raised = true
  child : ¬ Gone s
  shown : os <+: all

section Clock
variable {all os : List Effect} {l : Option (Label U)}

theorem stepOrRaise_none (h : stepOrRaise sees s none = some t) :
    s.prog ≠ [] ∧ t = s.raise := by
  simp only [stepOrRaise] at h
  split at h <;> cases h <;> exact ⟨by simp [*], rfl⟩

theorem Shows.begins (hs : Shows all os s) : os <+: all := by
  cases hs with
  | attaching attrs rest was past paired child raised shown => exact ⟨_, shown⟩
  | between busy paired child place raised shown => exact ⟨_, shown⟩
  | raised prog raised gone shown => exact shown

theorem Shows.gone (hs : Shows all os s) (hprog : s.prog = []) : Gone s := by
  cases hs with
  | attaching attrs rest was past paired child raised shown => rw [hprog] at was; cases was
  | between busy paired child place raised shown =>
    rw [hprog] at paired
    exact child.mpr paired
  | raised prog raised gone shown => exact gone

theorem Abandons.step {l : Label U} (hs : Abandons all os s) (h : Process.step sees s l = some t) :
    Abandons all (os ++ effect s l t) t := by
  obtain ⟨ok, -, h⟩ | h := step_cases h
  · simp [parentStep, hs.prog] at h
  · have hb := h.background
    have heffect : effect s l t = [] := by cases h <;> rfl
    rw [heffect, List.append_nil]
    exact ⟨hb.prog.trans hs.prog, hb.raised.trans hs.raised, h.not_gone hs.child, hs.shown⟩

/-- A failing reading leaves a child behind exactly when there is one. -/
theorem Shows.raise (hs : Shows all os s) :
    (Gone s → Shows all os s.raise) ∧ (¬ Gone s → Abandons all os s.raise) :=
  ⟨fun hgone => .raised rfl rfl hgone hs.begins, fun hchild => ⟨rfl, rfl, hchild, hs.begins⟩⟩

theorem shown_step (hs : Shows all os s ∨ Abandons all os s)
    (h : stepOrRaise sees s l = some t) :
    Shows all (os ++ shown s l t) t ∨ Abandons all (os ++ shown s l t) t := by
  cases l with
  | some l => exact hs.imp (·.step h) (·.step h)
  | none =>
    obtain ⟨hprog, rfl⟩ := stepOrRaise_none h
    rw [shown, Option.elim_none, List.append_nil]
    obtain hs | hs := hs
    · by_cases hgone : Gone s
      · exact .inl (hs.raise.1 hgone)
      · exact .inr (hs.raise.2 hgone)
    · exact absurd hs.prog hprog

/-- A step leaves a child to an ended `main` only by a reading that fails while there is one. -/
theorem gone_step_iff (hs : Shows all os s ∨ Abandons all os s)
    (h : stepOrRaise sees s l = some t) :
    (t.prog = [] → Gone t) ↔ (s.prog = [] → Gone s) ∧ (l = none → Gone s) := by
  cases l with
  | some l =>
    simp only [reduceCtorEq, false_imp_iff, and_true]
    obtain hs | hs := hs
    · exact iff_of_true (hs.step h).gone hs.gone
    · have ht := hs.step h
      exact iff_of_false (fun hgone => ht.child (hgone ht.prog))
        fun hgone => hs.child (hgone hs.prog)
  | none =>
    obtain ⟨hprog, rfl⟩ := stepOrRaise_none h
    simp [hprog, State.raise, Gone]

end Clock

/-- `main` shows its measurements one after the other: the hook before, the fork, the end
of the child, the hook after. In every execution what it has shown so far is a beginning
of that. When it ends, by an exception or not, a child is left exactly if the clock could not
be read while there was one, and without an exception `main` has shown everything. -/
theorem main_sequential {clock : Clock} {ls : List (Option (Label U))}
    (h : run (stepOrRaise sees) (initial (mainOps supported cli) clock) ls = some s) :
    observe (stepOrRaise sees) shown (initial (mainOps supported cli) clock) ls <+:
        mainEffects supported cli ∧
      (s.prog = [] →
        (Gone s ↔ Along (stepOrRaise sees) (fun s l => l = none → Gone s)
          (initial (mainOps supported cli) clock) ls) ∧
        (s.raised = false →
          observe (stepOrRaise sees) shown (initial (mainOps supported cli) clock) ls =
            mainEffects supported cli)) := by
  have hinitial : Shows (mainEffects supported cli) []
      (initial (mainOps supported cli) clock : State U) := shows_initial supported cli clock
  have hstep (os : List Effect) (s : State U) (l : Option (Label U)) (t : State U)
      (hs : Shows (mainEffects supported cli) os s ∨ Abandons (mainEffects supported cli) os s)
      (h : stepOrRaise sees s l = some t) :
      Shows (mainEffects supported cli) (os ++ shown s l t) t ∨
        Abandons (mainEffects supported cli) (os ++ shown s l t) t := shown_step hs h
  have hstands := run_observe hstep (.inl hinitial) h
  rw [List.nil_append] at hstands
  have hended : (s.prog = [] → Gone s) ↔
      ((initial (mainOps supported cli) clock : State U).prog = [] → Gone _) ∧
        Along (stepOrRaise sees) (fun s l => l = none → Gone s) _ ls :=
    run_iff_along (I := fun s => ∃ os, Shows (mainEffects supported cli) os s ∨
        Abandons (mainEffects supported cli) os s)
      (fun _ _ _ ⟨_, hs⟩ h => ⟨_, shown_step hs h⟩) (fun _ _ _ ⟨_, hs⟩ h => gone_step_iff hs h)
      ⟨_, .inl hinitial⟩ h
  rw [and_iff_right hinitial.gone] at hended
  have hgone (hend : s.prog = []) : Gone s ↔ Along (stepOrRaise sees) (fun s l => l = none → Gone s)
      (initial (mainOps supported cli) clock) ls :=
    ⟨fun hg => hended.mp fun _ => hg, fun halong => hended.mpr halong hend⟩
  obtain hs | hs := hstands
  · refine ⟨hs.begins, fun hend => ⟨hgone hend, fun hraised => ?_⟩⟩
    cases hs with
    | raised prog raised gone shown => rw [raised] at hraised; cases hraised
    | attaching attrs rest was past paired child raised shown => rw [hend] at was; cases was
    | between busy paired child place raised shown => simpa [hend] using shown
  · refine ⟨hs.shown, fun hend => ⟨hgone hend, fun hraised => ?_⟩⟩
    rw [hs.raised] at hraised
    cases hraised

/-- `bbench -e cycles ./a`, with a program that ends; and with a clock that cannot be read
once the program has been let go. -/
theorem main_sequential_one :
    (∃ s : State ℕ, run (stepOrRaise fun _ _ => true)
        (initial (mainOps false oneRun) ⟨0, by decide⟩) ((launchRun true).map some) = some s ∧
      Gone s ∧
      observe (stepOrRaise fun _ _ => true) shown (initial (mainOps false oneRun) ⟨0, by decide⟩)
        ((launchRun true).map some) = [.forked, .reaped]) ∧
    ∃ s : State ℕ, run (stepOrRaise fun _ _ => true)
        (initial (mainOps false oneRun) ⟨0, by decide⟩)
        (List.replicate 6 (some (.parent true)) ++ [none]) = some s ∧ s.prog = [] ∧ ¬ Gone s := by
  constructor
  · have hrun : (run (stepOrRaise fun _ _ => true)
        (initial (mainOps false oneRun) ⟨0, by decide⟩) ((launchRun true).map some)).map
          (fun s : State ℕ => (s.prog, s.raised)) = some ([], false) := by
      decide +kernel
    obtain ⟨s, hs, heq⟩ := Option.map_eq_some_iff.mp hrun
    simp only [Prod.mk.injEq] at heq
    obtain ⟨hgone, hall⟩ := (main_sequential hs).2 heq.1
    refine ⟨s, hs, hgone.mpr (by decide +kernel), (hall heq.2).trans ?_⟩
    decide
  · have hrun : (run (stepOrRaise fun _ _ => true)
        (initial (mainOps false oneRun) ⟨0, by decide⟩)
        (List.replicate 6 (some (.parent true)) ++ [none])).map (fun s : State ℕ => s.prog) =
          some [] := by
      decide +kernel
    obtain ⟨s, hs, hprog⟩ := Option.map_eq_some_iff.mp hrun
    have hgone := ((main_sequential hs).2 hprog).1
    exact ⟨s, hs, hprog, fun h => absurd (hgone.mp h) (by decide +kernel)⟩

end Bbench.Process
