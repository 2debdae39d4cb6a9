import Bbench.Process.Attach
import Bbench.Process.Programs

/-! What the counters of an attached child count. They are opened while the child
is held, `execve` enables them, and they stay enabled until no child is left, so
each open counter counts all the work it sees. The stages of a measurement carry
that through a whole run. -/

namespace Bbench.Process

open Perf Transition

variable {U : Type*} {sees : ℕ → U → Bool} {attrs : List PerfEventAttr} {opts : BenchmarkOpts}
  {s t : State U} {ok : Bool} {l : Label U}

/-- Every open counter has counted all the work it sees, and will go on doing so. -/
structure Counting (sees : ℕ → U → Bool) (s : State U) : Prop where
  counted : ∀ k, (s.counters k).opened = true →
    (s.counters k).counted = s.executed.filter (sees k)
  onExec : ∀ k, (s.counters k).opened = true → (s.counters k).onExec = true
  enabled : s.child = .program → ∀ k, (s.counters k).opened = true →
    (s.counters k).enabled = true

namespace Counting

theorem initial (prog : List Op) (clock : Clock) : Counting sees (initial prog clock : State U) :=
  ⟨fun _ h => (by cases h), fun _ h => (by cases h), fun _ _ h => (by cases h)⟩

/-- A step that leaves the counters and the work alone and starts no program. -/
theorem quiet (hs : Counting sees s) (hcounters : t.counters = s.counters)
    (hexecuted : t.executed = s.executed) (hchild : t.child = .program → s.child = .program) :
    Counting sees t where
  counted k hk := by
    rw [hcounters] at hk ⊢
    rw [hexecuted]
    exact hs.counted k hk
  onExec k hk := by
    rw [hcounters] at hk ⊢
    exact hs.onExec k hk
  enabled hc k hk := by
    rw [hcounters] at hk ⊢
    exact hs.enabled (hchild hc) k hk

/-- Before and after the program, a counter may be replaced by one that has the
same to show. -/
theorem setCounter (hs : Counting sees s) (hchild : s.child ≠ .program) {i : ℕ} {c : Counter U}
    (hc : c.opened = true → c.counted = s.executed.filter (sees i) ∧ c.onExec = true) :
    Counting sees (s.setCounter i c) where
  counted k hk := by
    by_cases hki : k = i
    · subst hki
      rw [State.setCounter_self] at hk ⊢
      exact (hc hk).1
    · rw [State.setCounter_of_ne s hki] at hk ⊢
      exact hs.counted k hk
  onExec k hk := by
    by_cases hki : k = i
    · subst hki
      rw [State.setCounter_self] at hk ⊢
      exact (hc hk).2
    · rw [State.setCounter_of_ne s hki] at hk ⊢
      exact hs.onExec k hk
  enabled hprogram := absurd hprogram hchild

/-- A counter is opened before the child has done any work. -/
theorem perfEventOpen (hs : Counting sees s) (hexecuted : s.executed = [])
    (hchild : s.child ≠ .program) {attr : PerfEventAttr} (hattr : attr.enableOnExec = true)
    (i : ℕ) : Counting sees (s.perfEventOpen ok i attr) := by
  have hnew : Counting sees
      (s.setCounter i { opened := ok, onExec := attr.enableOnExec, counted := [] }) :=
    hs.setCounter hchild fun _ => ⟨by simp [hexecuted], hattr⟩
  exact hnew.quiet rfl rfl id

/-- Disabling a counter once the child is gone loses nothing. -/
theorem disable (hs : Counting sees s) (hchild : s.child ≠ .program) (i : ℕ) :
    Counting sees (s.setCounter i { s.counters i with enabled := false }) :=
  hs.setCounter hchild fun hk => ⟨hs.counted i hk, hs.onExec i hk⟩

theorem execve (hs : Counting sees s) : Counting sees (execve s) where
  counted k hk := hs.counted k hk
  onExec k hk := hs.onExec k hk
  enabled _ k hk := by
    have hopened : (s.counters k).opened = true := hk
    simp [Process.execve, hopened, hs.onExec k hopened]

theorem work (hs : Counting sees s) (hchild : s.child = .program) (u : U) :
    Counting sees (work sees u s) := by
  have hfield : ∀ k, ((Process.work sees u s).counters k).opened = (s.counters k).opened ∧
      ((Process.work sees u s).counters k).onExec = (s.counters k).onExec ∧
      ((Process.work sees u s).counters k).enabled = (s.counters k).enabled := by
    intro k
    simp only [Process.work]
    split <;> exact ⟨rfl, rfl, rfl⟩
  refine ⟨fun k hk => ?_, fun k hk => ?_, fun _ k hk => ?_⟩
  · rw [(hfield k).1] at hk
    have hcounted := hs.counted k hk
    have henabled := hs.enabled hchild k hk
    by_cases hsees : sees k u = true
    · simp [Process.work, henabled, hsees, hcounted]
    · simp [Process.work, hsees, hcounted]
  · rw [(hfield k).1] at hk
    rw [(hfield k).2.1]
    exact hs.onExec k hk
  · rw [(hfield k).1] at hk
    rw [(hfield k).2.2]
    exact hs.enabled hchild k hk

theorem background (hs : Counting sees s) (h : Acts sees s t l) : Counting sees t := by
  cases h with
  | stub ok call =>
    obtain ⟨todo, -, child, pipe, hnow, rfl⟩ | ⟨todo, -, rfl⟩ := stubStep_stubs call
    · refine hs.quiet rfl rfl fun hc => ?_
      obtain ⟨todo', rfl⟩ | rfl := hnow <;> cases hc
    · exact hs.execve
  | work u child eq => subst eq; exact hs.work child u
  | exit may eq => subst eq; exact hs.quiet rfl rfl fun hc => by cases hc
  | tick ns clock le eq => subst eq; exact hs.quiet rfl rfl id

end Counting

/-! ### The stages of a measurement -/

/-- Where a measurement stands. The clock runs in the last call of `waits` and is
stopped once no child is left. -/
inductive Stage (opts : BenchmarkOpts) (attrs : List PerfEventAttr) (s : State U) : Prop
  | launches (pre : List Op) (suffix : pre <:+ hookOps opts.pre)
    (prog : s.prog = pre ++ .processAttach attrs :: timedOps opts attrs.length)
    (ctrl : s.ctrl = .idle ∨
      pre = [] ∧ s.ctrl = .forking ∧ s.pipe.bytes = 0 ∧ s.pipe.parentWrite = true)
    (child : s.child = .none)
    (executed : s.executed = []) (timed : s.timed = []) (window : s.window = .before)
    (opens : s.opens = 0)
  | opens (opening : Opening attrs (timedOps opts attrs.length) s)
    (executed : s.executed = []) (timed : s.timed = []) (window : s.window = .before)
  | closes (prog : s.prog = .processAttach attrs :: timedOps opts attrs.length)
    (ctrl : s.ctrl = .closeWrite) (timed : s.timed = []) (window : s.window = .before)
  | delays (delay : List Op) (suffix : delay <:+ delayOps opts)
    (prog : s.prog = delay ++ .clockBegin :: .waitWithTimeout opts.timeoutMs ::
      finishOps opts attrs.length)
    (timed : s.timed = []) (window : s.window = .before)
  | waits (prog : s.prog = .waitWithTimeout opts.timeoutMs :: finishOps opts attrs.length)
    (window : s.window = .running)
  | finishes (prog : s.prog <:+ finishOps opts attrs.length) (gone : Gone s)

namespace Stage

theorem initial (opts : BenchmarkOpts) (attrs : List PerfEventAttr) (clock : Clock) :
    Stage opts attrs (initial (measureOps opts attrs) clock : State U) :=
  .launches _ List.suffix_rfl rfl (.inl rfl) rfl rfl rfl rfl rfl

theorem background (hs : Stage opts attrs s) (h : Acts sees s t l) : Stage opts attrs t := by
  have hb := h.background
  cases hs with
  | launches pre suffix prog ctrl child executed timed window opens =>
    obtain ⟨hchild, hpipe, hexecuted⟩ := Gone.background (.inl child) h
    have htimed := h.timed (by simp [window])
    exact .launches pre suffix (hb.prog.trans prog) (by rwa [hb.ctrl, hpipe])
      (hchild.trans child) (hexecuted.trans executed) (htimed.trans timed)
      (hb.window.trans window) (hb.opens.trans opens)
  | opens opening executed timed window =>
    obtain ⟨hheld, -, hexecuted, htimed⟩ := opening.held.background h
    exact .opens ⟨hheld, hb.prog.trans opening.prog, by rw [hb.ctrl, hb.opens]; exact opening.place⟩
      (hexecuted.trans executed) (htimed.trans timed) (hb.window.trans window)
  | closes prog ctrl timed window =>
    have htimed := h.timed (by simp [window])
    exact .closes (hb.prog.trans prog) (hb.ctrl.trans ctrl) (htimed.trans timed)
      (hb.window.trans window)
  | delays delay suffix prog timed window =>
    have htimed := h.timed (by simp [window])
    exact .delays delay suffix (hb.prog.trans prog) (htimed.trans timed) (hb.window.trans window)
  | waits prog window => exact .waits (hb.prog.trans prog) (hb.window.trans window)
  | finishes prog gone =>
    have hgone : Gone t := by rwa [Gone, (gone.background h).1]
    exact .finishes (hb.prog ▸ prog) hgone

end Stage

/-- The last calls stop the counters and run the hook; the child is gone. -/
theorem Stage.parent_finishes (prog : s.prog <:+ finishOps opts attrs.length) (gone : Gone s)
    (hc : Counting sees s) (h : parentStep ok s = some t) :
    Stage opts attrs t ∧ Counting sees t := by
  have hprog : t.prog <:+ finishOps opts attrs.length := (parentStep_outcome h).prog.trans prog
  cases hp : s.prog with
  | nil => simp [parentStep, hp] at h
  | cons op rest =>
    have hop : op ∈ finishOps opts attrs.length := prog.subset (by simp [hp])
    obtain rfl | rfl | rfl := eq_of_mem_finishOps hop <;> simp only [parentStep, hp] at h
    · cases h
      exact ⟨.finishes hprog gone, hc.quiet rfl rfl id⟩
    · obtain rfl | ⟨i, rfl⟩ := stopStep_cases h
      · exact ⟨.finishes hprog (by simpa [Gone] using gone),
          hc.quiet (by simp) (by simp) (by simp)⟩
      · exact ⟨.finishes hprog (by simpa [Gone, State.setCounter] using gone),
          (hc.disable gone.ne_program i).quiet (by simp) (by simp) (by simp)⟩
    · cases h
      cases ok
      · exact ⟨.finishes hprog gone, hc.quiet rfl rfl id⟩
      · exact ⟨.finishes hprog gone, hc.quiet rfl rfl id⟩

/-- A call of the parent leads to the next stage, and no count is lost on the way. -/
theorem Stage.parent (hattrs : ∀ attr ∈ attrs, attr.enableOnExec = true)
    (hs : Stage opts attrs s) (hc : Counting sees s) (h : parentStep ok s = some t) :
    Stage opts attrs t ∧ Counting sees t := by
  cases hs with
  | launches pre suffix prog ctrl child executed timed window opens =>
    obtain rfl | rfl := eq_of_suffix_hookOps suffix
    · simp only [parentStep, prog, List.nil_append] at h
      obtain hctrl | ⟨-, hctrl, hbytes, hwrite⟩ := ctrl <;> simp only [attachStep, hctrl] at h
      · split at h <;> cases h
        · exact ⟨.launches [] suffix prog (.inr ⟨rfl, rfl, rfl, rfl⟩) child executed timed window
            opens, hc.quiet rfl rfl id⟩
        · exact ⟨.finishes List.nil_suffix (.inl child), hc.quiet rfl rfl id⟩
      · split at h <;> cases h
        · exact ⟨.opens ⟨⟨⟨0, by omega, rfl⟩, hbytes, hwrite, rfl⟩, prog, .inl ⟨rfl, opens⟩⟩
            executed timed window, hc.quiet rfl rfl fun hp => by cases hp⟩
        · exact ⟨.finishes List.nil_suffix (.inl child), hc.quiet rfl rfl id⟩
    · simp only [parentStep, prog, List.cons_append] at h
      cases h
      split
      · refine ⟨.launches [] List.nil_suffix ?_ (.inl rfl) child executed timed window opens,
          hc.quiet rfl rfl id⟩
        simp [State.ret, prog]
      · exact ⟨.finishes List.nil_suffix (.inl child), hc.quiet rfl rfl id⟩
  | opens opening executed timed window =>
    have hchild : s.child ≠ .program := by
      obtain ⟨k, -, hk⟩ := opening.held.child
      simp [hk]
    obtain ⟨ho, ctrl, pipe, rfl⟩ | ⟨ho, attr, hattr, ctrl, rfl⟩ | ⟨-, rfl⟩ := opening.parent h
    · exact ⟨.opens ho executed timed window, hc.quiet rfl rfl id⟩
    · exact ⟨.opens ho executed timed window,
        (hc.perfEventOpen executed hchild (hattrs attr hattr) _).quiet rfl rfl id⟩
    · exact ⟨.closes opening.prog rfl timed window, hc.quiet rfl rfl id⟩
  | closes prog ctrl timed window =>
    simp only [parentStep, prog, attachStep, ctrl] at h
    cases h
    exact ⟨.delays _ List.suffix_rfl (by simp [State.ret, prog, timedOps]) timed window,
      hc.quiet rfl rfl id⟩
  | delays delay suffix prog timed window =>
    obtain rfl | rfl := eq_of_suffix_delayOps suffix
    · simp only [parentStep, prog, List.nil_append] at h
      cases h
      exact ⟨.waits (by simp [State.ret, prog]) rfl, hc.quiet rfl rfl id⟩
    · simp only [parentStep, prog, List.cons_append] at h
      obtain rfl | ⟨-, rfl⟩ := sleepStep_cases h
      · exact ⟨.delays [] List.nil_suffix (by simp [State.ret, prog]) timed window,
          hc.quiet rfl rfl id⟩
      · exact ⟨.delays _ suffix prog timed window, hc.quiet rfl rfl id⟩
  | waits prog window =>
    simp only [parentStep, prog] at h
    obtain ⟨ctrl, log, rfl⟩ | ⟨child, log, hgone, rfl⟩ := waitStep_waits h
    · exact ⟨.waits prog window, hc.quiet rfl rfl id⟩
    · exact ⟨.finishes (by simp [prog]) hgone,
        hc.quiet rfl rfl fun hp => absurd hp hgone.ne_program⟩
  | finishes prog gone => exact Stage.parent_finishes prog gone hc h

theorem measure_step (hattrs : ∀ attr ∈ attrs, attr.enableOnExec = true)
    (hs : Stage opts attrs s ∧ Counting sees s) (h : step sees s l = some t) :
    Stage opts attrs t ∧ Counting sees t := by
  obtain ⟨ok, -, h⟩ | h := step_cases h
  · exact hs.1.parent hattrs hs.2 h
  · exact ⟨hs.1.background h, hs.2.background h⟩

/-- In every run of a measurement through `process_attach`, each open counter has
counted all the work it sees. -/
theorem measure_invariant (hattrs : AttachedAttrs opts attrs) {clock : Clock}
    {ls : List (Label U)}
    (h : run (step sees) (initial (measureOps opts attrs) clock) ls = some t) :
    Stage opts attrs t ∧ Counting sees t :=
  run_invariant (I := fun s => Stage opts attrs s ∧ Counting sees s)
    (fun _ _ _ hs h => measure_step hattrs.enableOnExec hs h)
    ⟨.initial opts attrs clock, .initial _ clock⟩ h

end Bbench.Process
