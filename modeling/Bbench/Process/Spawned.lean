import Bbench.Process.Counting

/-! The argument-passing overloads. Their child runs from the moment it is spawned,
while the parent still opens, resets and enables the counters one by one, and the
counters do not follow the child into further tasks. So a counter reports the events
of the child exactly when none of them comes before the counter is enabled, nor from
a later task. Up to the moment it is enabled a counter is blank, which is why the
reset in between loses nothing more. -/

namespace Bbench.Process

open Perf Transition

variable {U : Type*} {sees : ℕ → U → Bool} {timed : Bool} {attrs : List PerfEventAttr} {k : ℕ}
  {s t : State U} {ok : Bool} {l : Label U}

/-- Counter `k` is not enabled and has counted nothing. -/
def Blank (k : ℕ) (s : State U) : Prop :=
  (s.counters k).enabled = false ∧ (s.counters k).counted = []

/-- A spawned child runs from the start. -/
def NoStub (s : State U) : Prop := ∀ todo, s.child ≠ .stub todo

/-- Where an argument-passing overload stands, for its counter `k`. -/
inductive SpawnStage (timed : Bool) (attrs : List PerfEventAttr) (k : ℕ) (s : State U) : Prop
  | launches (prog : s.prog = spawnedOps timed attrs) (ctrl : s.ctrl = .idle) (blank : Blank k s)
  | opens (prog : s.prog = .reopen attrs :: readyOps timed attrs.length) (blank : Blank k s)
  | times (prog : s.prog = .clockBegin :: .start attrs.length :: .waitpid ::
      spawnedFinish timed attrs.length) (ctrl : s.ctrl = .idle) (blank : Blank k s)
  | starts (prog : s.prog = .start attrs.length :: .waitpid :: spawnedFinish timed attrs.length)
    (idle : s.ctrl = .idle → Blank k s)
    (member : ∀ i, s.ctrl = .reset i ∨ s.ctrl = .enable i → i ≤ k → Blank k s)
  | waits (prog : s.prog <:+ .waitpid :: spawnedFinish timed attrs.length)

namespace SpawnStage

theorem initial (timed : Bool) (attrs : List PerfEventAttr) (k : ℕ) (clock : Clock) :
    SpawnStage timed attrs k (initial (spawnedOps timed attrs) clock : State U) :=
  .launches rfl rfl ⟨rfl, rfl⟩

/-- The group is open, and the parent goes on to the clock or to `gr.begin`. -/
theorem ready (hprog : s.prog = readyOps timed attrs.length) (hctrl : s.ctrl = .idle)
    (blank : Blank k s) : SpawnStage timed attrs k s := by
  cases timed
  · exact .starts hprog (fun _ => blank) fun _ _ _ => blank
  · exact .times hprog hctrl blank

end SpawnStage

/-- Replacing another counter, or this one by a blank one. -/
theorem Blank.setCounter (hs : Blank k s) {i : ℕ} {c : Counter U}
    (hc : k = i → c.enabled = false ∧ c.counted = []) : Blank k (s.setCounter i c) := by
  by_cases hki : k = i
  · subst hki
    rw [Blank, State.setCounter_self]
    exact hc rfl
  · rwa [Blank, State.setCounter_of_ne s hki]

theorem counted_setCounter {i : ℕ} {c : Counter U}
    (hc : k = i → c.counted = (s.counters k).counted) :
    ((s.setCounter i c).counters k).counted = (s.counters k).counted := by
  by_cases hki : k = i
  · subst hki
    rw [State.setCounter_self]
    exact hc rfl
  · rw [State.setCounter_of_ne s hki]

theorem NoStub.loop (hs : NoStub s) (n i : ℕ) (body : Ctrl) : NoStub (s.loop n i body) := by
  intro todo
  rw [loop_child]
  exact hs todo

/-- A counter that is not enabled does not count. -/
theorem Blank.background (hs : Blank k s) (hstub : NoStub s) (h : Acts sees s t l) :
    Blank k t := by
  cases h with
  | stub ok call =>
    obtain ⟨todo, hc, -⟩ | ⟨todo, hc, -⟩ := stubStep_stubs call
    · exact absurd hc (hstub _)
    · exact absurd hc (hstub _)
  | work u child eq =>
    subst eq
    simpa [Blank, work, hs.1] using hs.2
  | exit may eq => subst eq; exact hs
  | tick ns clock le eq => subst eq; exact hs

theorem NoStub.background (hs : NoStub s) (h : Acts sees s t l) : NoStub t := by
  cases h with
  | stub ok call =>
    obtain ⟨todo, hc, -⟩ | ⟨todo, hc, -⟩ := stubStep_stubs call
    · exact absurd hc (hs _)
    · exact absurd hc (hs _)
  | work u child eq => subst eq; exact hs
  | exit may eq => subst eq; exact fun todo hc => by cases hc
  | tick ns clock le eq => subst eq; exact hs

theorem SpawnStage.background (hs : SpawnStage timed attrs k s) (hstub : NoStub s)
    (h : Acts sees s t l) : SpawnStage timed attrs k t := by
  have hb := h.background
  have hblank (hblank : Blank k s) : Blank k t := hblank.background hstub h
  cases hs with
  | launches prog ctrl blank =>
    exact .launches (hb.prog.trans prog) (hb.ctrl.trans ctrl) (hblank blank)
  | opens prog blank => exact .opens (by rwa [hb.prog]) (hblank blank)
  | times prog ctrl blank => exact .times (hb.prog.trans prog) (hb.ctrl.trans ctrl) (hblank blank)
  | starts prog idle member =>
    refine .starts (hb.prog.trans prog) ?_ ?_ <;> rw [hb.ctrl]
    · exact fun hc => hblank (idle hc)
    · exact fun i hi hik => hblank (member i hi hik)
  | waits prog => exact .waits (hb.prog ▸ prog)

namespace SpawnStage

/-- The next open of the group, or the end of its loop. -/
theorem opens_loop (hprog : s.prog = .reopen attrs :: readyOps timed attrs.length)
    (hblank : Blank k s) (i : ℕ) :
    SpawnStage timed attrs k (s.loop attrs.length i (.attach i)) := by
  rcases loop_cases s attrs.length i (.attach i) with heq | heq <;> rw [heq]
  · exact .opens hprog hblank
  · exact .ready (by simp [State.ret, hprog]) rfl hblank

/-- The next reset of the group, or the end of its loop. -/
theorem starts_loop
    (hprog : s.prog = .start attrs.length :: .waitpid :: spawnedFinish timed attrs.length)
    (i : ℕ) (hblank : i ≤ k → Blank k s) :
    SpawnStage timed attrs k (s.loop attrs.length i (.reset i)) := by
  rcases loop_cases s attrs.length i (.reset i) with heq | heq <;> rw [heq]
  · refine .starts hprog (fun hc => by cases hc) fun j hj hjk => ?_
    obtain rfl : i = j := by simpa [State.goto] using hj
    exact hblank hjk
  · exact .waits (by simp [State.ret, hprog])

end SpawnStage

/-- A call of the parent changes no count: the counters it opens and resets are blank. -/
theorem SpawnStage.parent (hs : SpawnStage timed attrs k s) (hstub : NoStub s)
    (h : parentStep ok s = some t) :
    SpawnStage timed attrs k t ∧ NoStub t ∧ (t.counters k).counted = (s.counters k).counted := by
  cases hs with
  | launches prog ctrl blank =>
    simp only [parentStep, prog, spawnedOps] at h
    cases h
    cases ok
    · exact ⟨.waits List.nil_suffix, hstub, rfl⟩
    · have hprogram : NoStub { s.ret with child := .program, log := [] } :=
        fun todo hc => by cases hc
      exact ⟨.opens (by simp [State.ret, prog, spawnedOps]) blank, hprogram, rfl⟩
  | opens prog blank =>
    simp only [parentStep, prog] at h
    obtain rfl | ⟨i, attr, rfl⟩ := reopenStep_cases h
    · exact ⟨.opens_loop prog blank 0, hstub.loop _ _ _, by rw [loop_counters]⟩
    · have hopened : Blank k (s.perfEventOpen ok i attr) := blank.setCounter fun _ => ⟨rfl, rfl⟩
      exact ⟨.opens_loop (s := s.perfEventOpen ok i attr) prog hopened (i + 1),
        NoStub.loop (s := s.perfEventOpen ok i attr) hstub _ _ _,
        by rw [loop_counters, hopened.2, blank.2]⟩
  | times prog ctrl blank =>
    simp only [parentStep, prog] at h
    cases h
    exact ⟨.starts (by simp [State.ret, prog]) (fun _ => blank) fun _ _ _ => blank, hstub, rfl⟩
  | starts prog idle member =>
    simp only [parentStep, prog] at h
    obtain ⟨hc, rfl⟩ | ⟨i, hc, rfl⟩ | ⟨i, hc, rfl⟩ := startStep_cases h
    · exact ⟨.starts_loop prog 0 fun _ => idle hc, hstub.loop _ _ _, by rw [loop_counters]⟩
    · refine ⟨.starts prog (fun hc => by cases hc) fun j hj hjk => ?_, hstub, ?_⟩
      · obtain rfl : i = j := by simpa [State.goto] using hj
        have hblank := member i (.inl hc) hjk
        exact hblank.setCounter fun hki => ⟨hki ▸ hblank.1, rfl⟩
      · exact counted_setCounter fun hki => (member i (.inl hc) hki.ge).2.symm
    · refine ⟨.starts_loop (s := s.setCounter i _) prog (i + 1) fun hik => ?_,
        NoStub.loop (s := s.setCounter i _) hstub _ _ _, ?_⟩
      · exact (member i (.inr hc) (by omega)).setCounter fun hki => by omega
      · rw [loop_counters]
        exact counted_setCounter fun hki => by rw [hki]
  | waits prog =>
    have hprog := (parentStep_outcome h).prog.trans prog
    cases hp : s.prog with
    | nil => simp [parentStep, hp] at h
    | cons op rest =>
      have hop : op ∈ Op.waitpid :: spawnedFinish timed attrs.length := prog.subset (by simp [hp])
      obtain rfl | hop := List.mem_cons.mp hop
      · simp only [parentStep, hp] at h
        obtain ⟨-, rfl⟩ | ⟨-, rfl⟩ := waitpidStep_cases h
        · exact ⟨.waits hprog, fun todo hc => (by cases hc), rfl⟩
        · exact ⟨.waits hprog, hstub, rfl⟩
      · obtain rfl | rfl := eq_of_mem_spawnedFinish hop <;> simp only [parentStep, hp] at h
        · cases h
          exact ⟨.waits hprog, hstub, rfl⟩
        · obtain rfl | ⟨i, rfl⟩ := stopStep_cases h
          · exact ⟨.waits hprog, hstub.loop _ _ _, by rw [loop_counters]⟩
          · refine ⟨.waits hprog, NoStub.loop (s := s.setCounter i _) hstub _ _ _, ?_⟩
            rw [loop_counters]
            exact counted_setCounter fun hki => by rw [hki]

/-! ### The account of the events -/

/-- Counter `k` has counted as many events as the child has generated, in whatever task. -/
def Complete (kind : ℕ → U → Bool) (k : ℕ) (s : State U) : Prop :=
  (s.counters k).counted.length = (s.executed.filter (kind k)).length

/-- The step is an event for counter `k` only if the child's first task generates it and the
counter is enabled. -/
def NotMissed (first : U → Bool) (kind : ℕ → U → Bool) (k : ℕ) (s : State U) : Label U → Prop
  | .work u => kind k u = true → first u = true ∧ (s.counters k).enabled = true
  | _ => True

instance (first : U → Bool) (kind : ℕ → U → Bool) (k : ℕ) (s : State U) :
    ∀ l, Decidable (NotMissed first kind k s l)
  | .work u =>
    inferInstanceAs (Decidable (kind k u = true → first u = true ∧ (s.counters k).enabled = true))
  | .parent _ | .stub _ | .exit | .tick _ => isTrue trivial

section Count
variable {first : U → Bool} {kind : ℕ → U → Bool}

/-- Without `inherit` a counter counts the work of the first task. -/
theorem countsWork_of_not_inherit (h : ∀ attr ∈ attrs, attr.inherit = false) :
    countsWork first kind attrs = fun k u => kind k u && first u := by
  funext k u
  have hany : attrs[k]?.any PerfEventAttr.inherit = false := by
    cases hk : attrs[k]? with
    | none => rfl
    | some attr => exact h attr (List.mem_of_getElem? hk)
  rw [countsWork, hany, Bool.or_false]

/-- What carries a run of an overload: a lost event is never made up for. -/
structure Account (timed : Bool) (attrs : List PerfEventAttr) (kind : ℕ → U → Bool) (k : ℕ)
    (s : State U) : Prop where
  stage : SpawnStage timed attrs k s
  noStub : NoStub s
  le : (s.counters k).counted.length ≤ (s.executed.filter (kind k)).length

/-- One unit of work: the counter keeps up unless it misses the unit. -/
theorem work_account (hle : (s.counters k).counted.length ≤ (s.executed.filter (kind k)).length)
    (u : U) : let t := work (fun k u => kind k u && first u) u s
    (t.counters k).counted.length ≤ (t.executed.filter (kind k)).length ∧
      (Complete kind k t ↔ Complete kind k s ∧ NotMissed first kind k s (.work u)) := by
  simp only [Complete, NotMissed, work, List.filter_append, List.length_append]
  cases hkind : kind k u
  · simpa [hkind] using hle
  · cases hcounts : first u && (s.counters k).enabled
    · -- the event is there, and the counter has not moved
      have hmissed : ¬ (first u = true ∧ (s.counters k).enabled = true) := by
        rw [← Bool.and_eq_true, hcounts]
        exact Bool.false_ne_true
      rw [Bool.and_comm] at hcounts
      simp [hkind, hcounts, hmissed]
      omega
    · obtain ⟨hfirst, henabled⟩ := Bool.and_eq_true_iff.mp hcounts
      simpa [hkind, hfirst, henabled] using hle

theorem account_step (hs : Account timed attrs kind k s)
    (h : step (fun k u => kind k u && first u) s l = some t) :
    Account timed attrs kind k t ∧
      (Complete kind k t ↔ Complete kind k s ∧ NotMissed first kind k s l) := by
  have hsame (hstage : SpawnStage timed attrs k t ∧ NoStub t)
      (hcounted : (t.counters k).counted = (s.counters k).counted)
      (hexecuted : t.executed = s.executed) (hl : NotMissed first kind k s l) :
      Account timed attrs kind k t ∧
        (Complete kind k t ↔ Complete kind k s ∧ NotMissed first kind k s l) := by
    refine ⟨⟨hstage.1, hstage.2, ?_⟩, ?_⟩
    · rw [hcounted, hexecuted]
      exact hs.le
    · rw [Complete, Complete, hcounted, hexecuted, and_iff_left hl]
  obtain ⟨ok, rfl, hcall⟩ | hacts := step_cases h
  · obtain ⟨hstage, hstub, hcounted⟩ := hs.stage.parent hs.noStub hcall
    exact hsame ⟨hstage, hstub⟩ hcounted (parentStep_outcome hcall).work.1 trivial
  have hstage : SpawnStage timed attrs k t ∧ NoStub t :=
    ⟨hs.stage.background hs.noStub hacts, hs.noStub.background hacts⟩
  cases hacts with
  | stub ok call =>
    obtain ⟨todo, hc, -⟩ | ⟨todo, hc, -⟩ := stubStep_stubs call
    · exact absurd hc (hs.noStub _)
    · exact absurd hc (hs.noStub _)
  | work u child eq =>
    subst eq
    obtain ⟨hle, hcomplete⟩ := work_account hs.le u
    exact ⟨⟨hstage.1, hstage.2, hle⟩, hcomplete⟩
  | exit may eq => subst eq; exact hsame hstage rfl rfl trivial
  | tick ns clock le eq => subst eq; exact hsame hstage rfl rfl trivial

/-- A counter of a child measured through `process_attach` has counted all its work, up to that
of later tasks where the options do not let it follow them. -/
theorem attached_complete_iff {opts : BenchmarkOpts} {attrs : List PerfEventAttr}
    (hattrs : AttachedAttrs opts attrs) {clock : Clock} {ls : List (Label U)}
    (h : run (step (countsWork first kind attrs)) (initial (measureOps opts attrs) clock) ls =
      some t) (hk : k < attrs.length) (hopened : (t.counters k).opened = true) :
    Complete kind k t ↔
      opts.inherit = true ∨ ∀ u ∈ t.executed, kind k u = true → first u = true := by
  have hany : attrs[k]?.any PerfEventAttr.inherit = opts.inherit := by
    rw [List.getElem?_eq_getElem hk, Option.any_some]
    exact hattrs.inherit _ (List.getElem_mem hk)
  have hcounted : (t.counters k).counted =
      (t.executed.filter (kind k)).filter fun u => first u || opts.inherit := by
    rw [(measure_invariant hattrs h).2.counted k hopened, List.filter_filter]
    refine List.filter_congr fun u _ => ?_
    rw [countsWork, hany, Bool.and_comm]
  rw [Complete, hcounted, List.length_filter_eq_length_iff]
  simp only [List.mem_filter, Bool.or_eq_true, and_imp]
  cases opts.inherit <;> simp

/-- When the argument-passing overloads lose no count. In every run, a counter has counted all
the events of the child exactly when each of them was generated by its first task and found the
counter enabled. An open counter of a child measured through `process_attach` has counted them
all in any case with the default options, and without `inherit` when no later task had any. -/
theorem spawned_complete_iff (first : U → Bool) (kind : ℕ → U → Bool) (attrs : List PerfEventAttr)
    (prog : List Op) (hprog : SpawnedOps attrs prog) (clock : Clock) (ls : List (Label U))
    (t : State U)
    (h : run (step (countsWork first kind attrs)) (initial prog clock) ls = some t) (k : ℕ) :
    (Complete kind k t ↔ Along (step (countsWork first kind attrs)) (NotMissed first kind k)
      (initial prog clock) ls) ∧
    ∀ (opts : BenchmarkOpts) (attrs : List PerfEventAttr), AttachedAttrs opts attrs →
      ∀ clock ls (t : State U), run (step (countsWork first kind attrs))
          (initial (measureOps opts attrs) clock) ls = some t →
        k < attrs.length → (t.counters k).opened = true →
        (Complete kind k t ↔
          opts.inherit = true ∨ ∀ u ∈ t.executed, kind k u = true → first u = true) := by
  refine ⟨?_, fun opts attrs hattrs clock ls t h hk hopened =>
    attached_complete_iff hattrs h hk hopened⟩
  rw [countsWork_of_not_inherit hprog.inherit] at h ⊢
  obtain ⟨timed, rfl⟩ := hprog.eq
  have haccount : Complete kind k t ↔ Complete kind k (initial (spawnedOps timed attrs) clock) ∧
      Along (step fun k u => kind k u && first u) (NotMissed first kind k)
        (initial (spawnedOps timed attrs) clock) ls :=
    run_iff_along (I := Account timed attrs kind k) (fun _ _ _ hs h => (account_step hs h).1)
      (fun _ _ _ hs h => (account_step hs h).2)
      ⟨.initial timed attrs k clock, fun todo hc => (by cases hc), le_rfl⟩ h
  exact haccount.trans (and_iff_right rfl)

end Count

/-! ### Two runs of `cpu_bench_bin` -/

/-- The child generates the events `early` before its counter is enabled, and `late` after that. -/
def spawnedRun (early late : List ℕ) : List (Label ℕ) :=
  .parent true :: early.map .work ++ List.replicate 5 (.parent true) ++ late.map .work ++
    .exit :: List.replicate 3 (.parent true)

/-- Units of work below ten are of the first task, and all of them are events. -/
def ofFirst (u : ℕ) : Bool := u < 10

theorem spawned_complete_late : ∃ t : State ℕ,
    run (step (countsWork ofFirst (fun _ _ => true) [hardwareCycles.attr]))
      (initial (cpuBenchBinOps hardwareCycles.attr) ⟨0, by decide⟩) (spawnedRun [] [1, 2]) =
        some t ∧
      t.prog = [] ∧ Complete (fun _ _ => true) 0 t := by
  have hrun : (run (step (countsWork ofFirst (fun _ _ => true) [hardwareCycles.attr]))
      (initial (cpuBenchBinOps hardwareCycles.attr) ⟨0, by decide⟩)
      (spawnedRun [] [1, 2])).map State.prog = some [] := by
    decide +kernel
  obtain ⟨t, ht, hprog⟩ := Option.map_eq_some_iff.mp hrun
  exact ⟨t, ht, hprog,
    (spawned_complete_iff _ _ _ _ (.cpuBenchBin _) _ _ t ht 0).1.mpr (by decide +kernel)⟩

/-- An event right after the spawn is lost, and so is one of a later task. -/
theorem not_spawned_complete :
    (¬ ∀ (first : ℕ → Bool) (kind : ℕ → ℕ → Bool) (attrs : List PerfEventAttr) (prog : List Op),
      SpawnedOps attrs prog → ∀ clock ls (t : State ℕ),
        run (step (countsWork first kind attrs)) (initial prog clock) ls = some t →
        t.prog = [] → t.raised = false →
        ∀ k, (t.counters k).opened = true → Complete kind k t) ∧
    (run (step (countsWork ofFirst (fun _ _ => true) [hardwareCycles.attr]))
      (initial (cpuBenchBinOps hardwareCycles.attr) ⟨0, by decide⟩) (spawnedRun [] [1, 12])).map
        (fun t => (t.prog, (t.counters 0).counted, t.executed)) = some ([], [1], [1, 12]) := by
  refine ⟨fun hall => ?_, by decide +kernel⟩
  have hrun : (run (step (countsWork ofFirst (fun _ _ => true) [hardwareCycles.attr]))
      (initial (cpuBenchBinOps hardwareCycles.attr) ⟨0, by decide⟩) (spawnedRun [1] [2])).map
        (fun t => (t.prog, t.raised, (t.counters 0).opened, (t.counters 0).counted, t.executed)) =
      some ([], false, true, [2], [1, 2]) := by
    decide +kernel
  obtain ⟨t, ht, heq⟩ := Option.map_eq_some_iff.mp hrun
  simp only [Prod.mk.injEq] at heq
  obtain ⟨hprog, hraised, hopened, hcounted, hexecuted⟩ := heq
  have hcomplete := hall _ _ _ _ (.cpuBenchBin _) _ _ t ht hprog hraised 0 hopened
  rw [Complete, hcounted, hexecuted] at hcomplete
  exact absurd hcomplete (by decide)

end Bbench.Process
