import Bbench.Process.Counting

/-! The timed part of a run against the counted part. The counters of an attached
child count from its `execve`, the clock runs from `cl.begin`, which comes after
the parent has released the child and slept for the delay. The two agree exactly
when nothing the counter sees happens in between. -/

namespace Bbench.Process

open Perf Transition

variable {U : Type*} {sees : ℕ → U → Bool} {attrs : List PerfEventAttr} {opts : BenchmarkOpts}
  {s t : State U} {l : Label U}

/-- The step is not work for counter `k` before `cl.begin`. -/
def NotEarly (sees : ℕ → U → Bool) (k : ℕ) (s : State U) : Label U → Prop
  | .work u => s.window = .before → sees k u = false
  | _ => True

instance (k : ℕ) (s : State U) : ∀ l, Decidable (NotEarly sees k s l)
  | .work u => inferInstanceAs (Decidable (s.window = .before → sees k u = false))
  | .parent _ | .stub _ | .exit | .tick _ => isTrue trivial

/-- For counter `k`, the timed work is all the work. -/
def TimedAll (sees : ℕ → U → Bool) (k : ℕ) (s : State U) : Prop :=
  s.executed.filter (sees k) = s.timed.filter (sees k)

/-- The child works before `cl.begin` or while the clock runs, never after `cl.end`. -/
theorem Stage.window (hs : Stage opts attrs s) (hchild : s.child = .program) :
    s.window = .before ∧ s.timed = [] ∨ s.window = .running := by
  cases hs with
  | launches pre suffix prog ctrl child executed timed window opens =>
    rw [child] at hchild
    cases hchild
  | opens opening executed timed window => exact .inl ⟨window, timed⟩
  | closes prog ctrl timed window => exact .inl ⟨window, timed⟩
  | delays delay suffix prog timed window => exact .inl ⟨window, timed⟩
  | waits prog window => exact .inr window
  | finishes prog gone => exact absurd hchild gone.ne_program

/-- One unit of work keeps the account unless it comes before `cl.begin`. -/
theorem timedAll_work (hs : Stage opts attrs s) (hchild : s.child = .program) (k : ℕ) (u : U) :
    TimedAll sees k (work sees u s) ↔ TimedAll sees k s ∧ NotEarly sees k s (.work u) := by
  simp only [TimedAll, NotEarly, work, List.filter_append]
  obtain ⟨hwindow, htimed⟩ | hwindow := hs.window hchild
  · simp [hwindow, htimed]
  · simp [hwindow]

theorem timedAll_step (hs : Stage opts attrs s) (k : ℕ) (h : step sees s l = some t) :
    TimedAll sees k t ↔ TimedAll sees k s ∧ NotEarly sees k s l := by
  have hsame (hw : SameWork s t) (hl : NotEarly sees k s l) :
      TimedAll sees k t ↔ TimedAll sees k s ∧ NotEarly sees k s l := by
    rw [TimedAll, TimedAll, hw.1, hw.2, and_iff_left hl]
  obtain ⟨ok, rfl, hcall⟩ | hacts := step_cases h
  · exact hsame (parentStep_outcome hcall).work trivial
  cases hacts with
  | stub ok call =>
    obtain ⟨_, -, _, _, -, rfl⟩ | ⟨_, -, rfl⟩ := stubStep_stubs call
    · exact hsame ⟨rfl, rfl⟩ trivial
    · exact hsame ⟨rfl, rfl⟩ trivial
  | work u child eq => subst eq; exact timedAll_work hs child k u
  | exit may eq => subst eq; exact hsame ⟨rfl, rfl⟩ trivial
  | tick ns clock le eq => subst eq; exact hsame ⟨rfl, rfl⟩ trivial

/-- When the counted window is the timed window. In every run of a measurement
through `process_attach`, an open counter has counted the timed work, and nothing
else, exactly when the child did nothing the counter sees before `cl.begin`. -/
theorem counted_eq_timed_iff (opts : BenchmarkOpts) (attrs : List PerfEventAttr)
    (hattrs : AttachedAttrs opts attrs) (clock : Clock) (ls : List (Label U)) (t : State U)
    (h : run (step sees) (initial (measureOps opts attrs) clock) ls = some t) (k : ℕ)
    (hk : (t.counters k).opened = true) :
    (t.counters k).counted = t.timed.filter (sees k) ↔
      Along (step sees) (NotEarly sees k) (initial (measureOps opts attrs) clock) ls := by
  have hinv := measure_invariant hattrs h
  have haccount : TimedAll sees k t ↔ TimedAll sees k (initial (measureOps opts attrs) clock) ∧
      Along (step sees) (NotEarly sees k) (initial (measureOps opts attrs) clock) ls :=
    run_iff_along (I := fun s => Stage opts attrs s ∧ Counting sees s)
      (fun _ _ _ hs h => measure_step hattrs.enableOnExec hs h)
      (fun _ _ _ hs h => timedAll_step hs.1 k h)
      ⟨.initial opts attrs clock, .initial _ clock⟩ h
  rw [hinv.2.counted k hk]
  exact haccount.trans (and_iff_right rfl)

/-! ### Two runs with one counter -/

/-- One `-e` event. -/
def oneEvent (opts : BenchmarkOpts) : List PerfEventAttr :=
  dynamicGroup opts (parseEventList "cycles" []).2

/-- `-e cycles -D 100`, with the work `early` during the delay and `late` while the clock runs. -/
def delayed (early late : List ℕ) : List (Label ℕ) :=
  List.replicate 6 (.parent true) ++ List.replicate 4 (.stub true) ++ early.map .work ++
    [.parent true, .tick (100 * 10 ^ 6), .parent true, .parent true] ++ late.map .work ++
    .exit :: List.replicate 5 (.parent true)

/-- Work during the delay is counted, but not timed. -/
theorem not_counted_eq_timed : ¬ ∀ (sees : ℕ → ℕ → Bool) (opts : BenchmarkOpts)
    (attrs : List PerfEventAttr), AttachedAttrs opts attrs →
    ∀ clock ls (t : State ℕ), run (step sees) (initial (measureOps opts attrs) clock) ls = some t →
      t.prog = [] → t.raised = false → ∀ k, (t.counters k).opened = true →
      (t.counters k).counted = t.timed.filter (sees k) := by
  intro hall
  have hrun : (run (step fun _ _ => true)
      (initial (measureOps { delayMs := 100 } (oneEvent { delayMs := 100 })) ⟨0, by decide⟩)
      (delayed [1] [2])).map
        (fun t => (t.prog, t.raised, (t.counters 0).opened, (t.counters 0).counted, t.timed)) =
      some ([], false, true, [1, 2], [2]) := by
    decide +kernel
  obtain ⟨t, ht, heq⟩ := Option.map_eq_some_iff.mp hrun
  simp only [Prod.mk.injEq] at heq
  obtain ⟨hprog, hraised, hopened, hcounted, htimed⟩ := heq
  have heq := hall _ _ _ (.benchmarkBinDynamic _) _ _ t ht hprog hraised 0 hopened
  rw [hcounted, htimed] at heq
  exact absurd heq (by decide)

/-- Without work during the delay the two agree. -/
theorem counted_eq_timed_delayed : ∃ t : State ℕ, run (step fun _ _ => true)
    (initial (measureOps { delayMs := 100 } (oneEvent { delayMs := 100 })) ⟨0, by decide⟩)
    (delayed [] [2]) = some t ∧ (t.counters 0).counted = t.timed.filter fun _ => true := by
  have hrun : (run (step fun _ _ => true)
      (initial (measureOps { delayMs := 100 } (oneEvent { delayMs := 100 })) ⟨0, by decide⟩)
      (delayed [] [2])).map (fun t => (t.counters 0).opened) = some true := by
    decide +kernel
  obtain ⟨t, ht, hopened⟩ := Option.map_eq_some_iff.mp hrun
  exact ⟨t, ht, (counted_eq_timed_iff _ _ (.benchmarkBinDynamic _) _ _ t ht 0 hopened).mpr
    (by decide +kernel)⟩

end Bbench.Process
