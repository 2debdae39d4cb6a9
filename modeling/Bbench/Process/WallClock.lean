import Bbench.Perf.Clock
import Bbench.Process.Frame
import Bbench.Process.Programs

/-! The reported time against adjustments of the wall clock. `time_clock` reads
`CLOCK_REALTIME_ALARM`, which follows the wall clock, so every step of that clock
between `cl.begin` and `cl.end` is in the reported time. `bench_bin` reads the
monotonic clock, and its time is immune. -/

namespace Bbench.Process

open Perf Transition Clocks

variable {U : Type*} {sees : ℕ → U → Bool} {s t : State U} {ok : Bool} {l : Label U}

/-! ### The clock calls of a program -/

def Op.mark : Op → Option Mark
  | .clockBegin => some .start
  | .clockEnd => some .stop
  | _ => none

def markOf (s : State U) : Label U → Option Mark
  | .parent _ => s.prog.head?.bind Op.mark
  | _ => none

theorem waitpidStep_clock (h : waitpidStep s = some t) : t.clock = s.clock := by
  obtain ⟨-, rfl⟩ | ⟨-, rfl⟩ := waitpidStep_cases h <;> rfl

theorem loop_clock (s : State U) (n i : ℕ) (body : Ctrl) : (s.loop n i body).clock = s.clock := by
  rcases loop_cases s n i body with heq | heq <;> rw [heq] <;> rfl

theorem attachStep_clock {attrs : List PerfEventAttr} (h : attachStep ok attrs s = some t) :
    t.clock = s.clock := by
  cases attachStep_cases h <;> subst_vars <;> rfl

/-- No call of the parent moves the clock. -/
theorem parentStep_clock (h : parentStep ok s = some t) : t.clock = s.clock := by
  unfold parentStep at h
  split at h
  case h_1 => cases h
  case h_2 => split at h <;> cases h <;> rfl
  case h_3 => exact attachStep_clock h
  case h_4 => split at h <;> cases h <;> rfl
  case h_5 => obtain rfl | ⟨i, attr, rfl⟩ := reopenStep_cases h <;> exact loop_clock _ _ _ _
  case h_6 =>
    obtain ⟨-, rfl⟩ | ⟨i, -, rfl⟩ | ⟨i, -, rfl⟩ := startStep_cases h
    · exact loop_clock _ _ _ _
    · rfl
    · exact loop_clock _ _ _ _
  case h_7 => obtain rfl | ⟨i, rfl⟩ := stopStep_cases h <;> exact loop_clock _ _ _ _
  case h_8 => obtain rfl | ⟨-, rfl⟩ := sleepStep_cases h <;> rfl
  case h_9 => cases h; rfl
  case h_10 => cases h; rfl
  case h_11 => exact waitpidStep_clock h
  case h_12 => obtain ⟨_, _, rfl⟩ | ⟨_, _, -, rfl⟩ := waitStep_waits h <;> rfl

theorem step_clock_le (h : step sees s l = some t) : s.clock.ns ≤ t.clock.ns := by
  obtain ⟨ok, -, h⟩ | h := step_cases h
  · rw [parentStep_clock h]
  · exact h.clock_le

/-- A call takes its reading, if it has one, when it returns. -/
theorem parentStep_marks (h : parentStep ok s = some t) (ht : ¬ t.raised = true) :
    s.prog.filterMap Op.mark =
      (s.prog.head?.bind Op.mark).toList ++ t.prog.filterMap Op.mark := by
  cases hprog : s.prog with
  | nil => simp [parentStep, hprog] at h
  | cons op rest =>
    cases hmark : op.mark with
    | none =>
      have hrest : (op :: rest).filterMap Op.mark = rest.filterMap Op.mark := by
        rw [List.filterMap_cons_none hmark]
      obtain ⟨-, hp, -⟩ | ⟨-, hp, -, -⟩ | ⟨-, -, -, hr⟩ := parentStep_outcome h
      · simp [hp, hprog, hmark]
      · simp [hp, hprog, hmark]
      · exact absurd hr ht
    | some m =>
      have hret : t.prog = rest := by
        cases op <;> simp only [Op.mark, reduceCtorEq] at hmark <;>
          simp only [parentStep, hprog] at h <;> cases h <;> simp [State.ret, hprog]
      simp [hret, hmark]

theorem step_marks (h : step sees s l = some t) (ht : ¬ t.raised = true) :
    s.prog.filterMap Op.mark = (markOf s l).toList ++ t.prog.filterMap Op.mark := by
  obtain ⟨ok, rfl, h⟩ | h := step_cases h
  · exact parentStep_marks h ht
  · have hmark : markOf s l = none := by cases h <;> rfl
    simp [hmark, h.background.prog]

/-- The two processes, read at `cl.begin` and `cl.end`. -/
def processTimer (sees : ℕ → U → Bool) : Timer (State U) (Label U) where
  step := step sees
  now s := s.clock.ns
  aborted s := s.raised = true
  pending s := s.prog.filterMap Op.mark
  mark := markOf
  now_le _ _ _ := step_clock_le
  aborted_step _ _ _ := step_raised
  pending_step _ _ _ := step_marks

/-! ### `benchmark` -/

/-- A call of `benchmark(func)`, which measures a function in its own process. -/
inductive BenchCall
  | groupOpen | clockBegin | groupBegin | func | clockEnd | groupEnd
  deriving DecidableEq, Repr

def benchmarkCalls : List BenchCall :=
  [.groupOpen, .clockBegin, .groupBegin, .func, .clockEnd, .groupEnd]

structure BenchState where
  prog : List BenchCall := benchmarkCalls
  raised : Bool := false
  clock : Clock
  deriving DecidableEq, Repr

inductive BenchLabel
  /-- The next call; with `false`, an exception comes out of it. -/
  | call (ok : Bool)
  | tick (ns : ℕ)
  deriving DecidableEq, Repr

/-- The functions of a group throw nothing. -/
def benchStep (s : BenchState) : BenchLabel → Option BenchState
  | .call ok =>
    match s.prog with
    | [] => none
    | .groupOpen :: rest | .groupBegin :: rest | .groupEnd :: rest => some { s with prog := rest }
    | _ :: rest =>
      some (if ok then { s with prog := rest } else { s with prog := [], raised := true })
  | .tick ns =>
    if h : s.clock.ns + ns < 2 ^ 63 then some { s with clock := ⟨s.clock.ns + ns, h⟩ } else none

def BenchCall.mark : BenchCall → Option Mark
  | .clockBegin => some .start
  | .clockEnd => some .stop
  | _ => none

def benchMark (s : BenchState) : BenchLabel → Option Mark
  | .call _ => s.prog.head?.bind BenchCall.mark
  | .tick _ => none

/-- A call returns or throws, and the clock moves between the calls. -/
theorem benchStep_cases {s t : BenchState} {l : BenchLabel} (h : benchStep s l = some t) :
    (∃ ok call rest, l = .call ok ∧ s.prog = call :: rest ∧
      (t = { s with prog := rest } ∨ t = { s with prog := [], raised := true })) ∨
    ∃ ns clock, l = .tick ns ∧ s.clock.ns ≤ clock.ns ∧ t = { s with clock } := by
  cases l with
  | call ok =>
    simp only [benchStep] at h
    split at h
    · cases h
    · cases h; exact .inl ⟨ok, _, _, rfl, ‹_›, .inl rfl⟩
    · cases h; exact .inl ⟨ok, _, _, rfl, ‹_›, .inl rfl⟩
    · cases h; exact .inl ⟨ok, _, _, rfl, ‹_›, .inl rfl⟩
    · cases ok <;> cases h
      · exact .inl ⟨false, _, _, rfl, ‹_›, .inr rfl⟩
      · exact .inl ⟨true, _, _, rfl, ‹_›, .inl rfl⟩
  | tick ns =>
    simp only [benchStep] at h
    split at h <;> cases h
    exact .inr ⟨ns, _, rfl, Nat.le_add_right _ _, rfl⟩

def benchTimer : Timer BenchState BenchLabel where
  step := benchStep
  now s := s.clock.ns
  aborted s := s.raised = true
  pending s := s.prog.filterMap BenchCall.mark
  mark := benchMark
  now_le s l t h := by
    obtain ⟨_, _, _, -, -, rfl | rfl⟩ | ⟨_, _, -, hle, rfl⟩ := benchStep_cases h
    · exact le_rfl
    · exact le_rfl
    · exact hle
  aborted_step s l t h hs := by
    obtain ⟨_, _, _, -, -, rfl | rfl⟩ | ⟨_, _, -, -, rfl⟩ := benchStep_cases h
    · exact hs
    · rfl
    · exact hs
  pending_step s l t h ht := by
    obtain ⟨_, call, rest, rfl, hprog, rfl | rfl⟩ | ⟨_, _, rfl, -, rfl⟩ := benchStep_cases h
    · cases hmark : call.mark <;> simp [benchMark, hprog, hmark]
    · exact absurd rfl ht
    · simp [benchMark]

/-! ### The reported time -/

section Reported
variable {σ Λ : Type*} {T : Timer σ Λ} {init init' : σ} {offset offset' : ℤ}
  {es es' : List (Event Λ)} {w v : Watched σ} {u : Units} {R : TimeResolution}

/-- An execution that has passed `cl.begin` and `cl.end`. -/
structure Timed (T : Timer σ Λ) (init : σ) (offset : ℤ) (es : List (Event Λ)) (w : Watched σ) :
    Prop where
  run : run T.watch (Timer.watched init offset) es = some w
  taken : T.pending w.state = []
  returned : ¬ T.aborted w.state

/-- The same monotonic instants at `cl.begin` and at `cl.end`. -/
def SameInstants (w v : Watched σ) : Prop :=
  w.start.mono = v.start.mono ∧ w.stop.mono = v.stop.mono

def reportedTime (u : Units) (R : TimeResolution) (w : Watched σ) : ℚ :=
  (timeClock w.start w.stop).elapsed u R

/-- From `cl.begin` to `cl.end` on the monotonic clock. -/
def monotonicTime (R : TimeResolution) (w : Watched σ) : ℚ := R.ofNs (w.stop.mono - w.start.mono)

/-- No trace of the wall clock in the reported times. -/
structure Immune (u : Units) (R : TimeResolution) (w v : Watched σ) : Prop where
  same : reportedTime u R w = reportedTime u R v
  monotonic : reportedTime u R w = monotonicTime R w
  nonneg : 0 ≤ reportedTime u R w

/-- The reported time is the monotonic time and all adjustments made meanwhile. -/
theorem Timed.reported (hu : u.Convert) (hinit : T.pending init = [.start, .stop])
    (h : Timed T init offset es w) : w.start.mono ≤ w.stop.mono ∧ reportedTime u R w =
      R.ofNs ((w.stop.mono - w.start.mono : ℤ) + T.adjusted (Timer.watched init offset) es) := by
  obtain ⟨hle, hwall⟩ := Timer.elapsed hinit h.run h.taken h.returned
  exact ⟨hle, by rw [reportedTime, elapsed_timeClock hu, hwall]⟩

theorem immune_iff (hu : u.Convert) (hinit : T.pending init = [.start, .stop])
    (hinit' : T.pending init' = [.start, .stop]) (hw : Timed T init offset es w)
    (hv : Timed T init' offset' es' v) (hsame : SameInstants w v) :
    Immune u R w v ↔ T.adjusted (Timer.watched init offset) es = 0 ∧
      T.adjusted (Timer.watched init' offset') es' = 0 := by
  obtain ⟨hle, htime⟩ := hw.reported (R := R) hu hinit
  obtain ⟨-, htime'⟩ := hv.reported (R := R) hu hinit'
  rw [← hsame.1, ← hsame.2] at htime'
  constructor
  · rintro ⟨heq, hmono, -⟩
    rw [htime, htime', TimeResolution.ofNs_inj] at heq
    rw [htime, monotonicTime, TimeResolution.ofNs_inj] at hmono
    omega
  · rintro ⟨hzero, hzero'⟩
    rw [hzero, add_zero] at htime
    rw [hzero', add_zero] at htime'
    exact ⟨htime.trans htime'.symm, htime, htime ▸ TimeResolution.ofNs_nonneg (by omega)⟩

end Reported

/-! ### The measurements -/

/-- The overloads of `benchmark_bin`, and `benchmark_bin_dynamic`. -/
inductive BenchmarkBin : List Op → Prop
  | args (attrs : List PerfEventAttr) : BenchmarkBin (benchmarkBinArgsOps attrs)
  | opts (opts : BenchmarkOpts) : BenchmarkBin (benchmarkBinOps opts)
  | dynamic (defs : List EventDef) (opts : BenchmarkOpts) :
    BenchmarkBin (benchmarkBinDynamicOps defs opts)

theorem marks_hookOps (cmd : Option String) : (hookOps cmd).filterMap Op.mark = [] :=
  List.filterMap_eq_nil_iff.mpr fun op hop => by rw [mem_hookOps hop]; rfl

theorem marks_delayOps (opts : BenchmarkOpts) : (delayOps opts).filterMap Op.mark = [] :=
  List.filterMap_eq_nil_iff.mpr fun op hop => by rw [mem_delayOps hop]; rfl

theorem marks_measureOps (opts : BenchmarkOpts) (attrs : List PerfEventAttr) :
    (measureOps opts attrs).filterMap Op.mark = [.start, .stop] := by
  simp [measureOps, timedOps, finishOps, List.filterMap_cons, Op.mark, marks_hookOps,
    marks_delayOps]

theorem BenchmarkBin.marks {prog : List Op} (h : BenchmarkBin prog) :
    prog.filterMap Op.mark = [.start, .stop] := by
  cases h with
  | args attrs => rfl
  | opts opts => exact marks_measureOps _ _
  | dynamic defs opts => exact marks_measureOps _ _

/-- When the reported time is immune. Two executions of `benchmark`, of an overload of
`benchmark_bin` or of `benchmark_bin_dynamic` with the same monotonic instants report the
same time, the monotonic one, exactly when in each of them the adjustments of the wall
clock between `cl.begin` and `cl.end` cancel out. -/
theorem time_immune_iff (sees : ℕ → U → Bool) (u : Units) (hu : u.Convert) :
    (∀ R clock clock' offset offset' es es' w v,
      Timed benchTimer { clock := clock } offset es w →
      Timed benchTimer { clock := clock' } offset' es' v → SameInstants w v →
      (Immune u R w v ↔
        benchTimer.adjusted (Timer.watched { clock := clock } offset) es = 0 ∧
        benchTimer.adjusted (Timer.watched { clock := clock' } offset') es' = 0)) ∧
    (∀ prog, BenchmarkBin prog → ∀ clock clock' offset offset' es es' w v,
      Timed (processTimer sees) (initial prog clock) offset es w →
      Timed (processTimer sees) (initial prog clock') offset' es' v → SameInstants w v →
      (Immune u .us w v ↔
        (processTimer sees).adjusted (Timer.watched (initial prog clock) offset) es = 0 ∧
        (processTimer sees).adjusted (Timer.watched (initial prog clock') offset') es' = 0)) := by
  refine ⟨fun R clock clock' offset offset' es es' w v hw hv hsame => ?_,
    fun prog hprog clock clock' offset offset' es es' w v hw hv hsame => ?_⟩
  · exact immune_iff hu rfl rfl hw hv hsame
  · exact immune_iff hu hprog.marks hprog.marks hw hv hsame

/-- `micron`'s conversions. -/
def exactUnits : Units := ⟨(· * 10 ^ 3), (· * 10 ^ 6), (· * 10 ^ 9)⟩

theorem exactUnits_convert : exactUnits.Convert := ⟨fun _ => rfl, fun _ => rfl, fun _ => rfl⟩

/-- A second of `func`, with the wall clock set before and after that second. -/
def secondOf (first second : ℤ) : List (Event BenchLabel) :=
  List.replicate 3 (.step (.call true)) ++
    [.adjust first, .step (.tick (10 ^ 9)), .adjust second] ++
    List.replicate 3 (.step (.call true))

/-- What such an execution leaves behind; the wall clock is `offset` ahead at its begin, and
`net` is the sum of the two adjustments. -/
def secondWatched (offset net : ℤ) : Watched BenchState where
  state := { prog := [], clock := ⟨10 ^ 9, by decide⟩ }
  offset := offset + net
  start := ⟨0, offset⟩
  stop := ⟨10 ^ 9, 10 ^ 9 + offset + net⟩

/-- Put forward by five nanoseconds and back again, and on another day put back by seven
seconds and forward again. -/
theorem time_immune_cancelled :
    Immune exactUnits .ms (secondWatched 0 0) (secondWatched (10 ^ 14) 0) := by
  have hfirst : Timed benchTimer { clock := ⟨0, by decide⟩ } 0 (secondOf 5 (-5))
      (secondWatched 0 0) :=
    ⟨by decide +kernel, rfl, by simp [benchTimer, secondWatched]⟩
  have hsecond : Timed benchTimer { clock := ⟨0, by decide⟩ } (10 ^ 14)
      (secondOf (-7 * 10 ^ 9) (7 * 10 ^ 9)) (secondWatched (10 ^ 14) 0) :=
    ⟨by decide +kernel, rfl, by simp [benchTimer, secondWatched]⟩
  have hiff := (time_immune_iff (fun _ (_ : Unit) => true) exactUnits exactUnits_convert).1 .ms
    _ _ _ _ _ _ _ _ hfirst hsecond ⟨rfl, rfl⟩
  exact hiff.mpr (by decide +kernel)

/-- Put back by two seconds while `func` runs for one: the reported time is negative. -/
theorem not_time_immune : ¬ ∀ (u : Units), u.Convert → ∀ R clock clock' offset offset' es es' w v,
    Timed benchTimer { clock := clock } offset es w →
    Timed benchTimer { clock := clock' } offset' es' v → SameInstants w v →
    Immune u R w v := by
  intro h
  have htimed : Timed benchTimer { clock := ⟨0, by decide⟩ } 0 (secondOf (-2 * 10 ^ 9) 0)
      (secondWatched 0 (-2 * 10 ^ 9)) :=
    ⟨by decide +kernel, rfl, by simp [benchTimer, secondWatched]⟩
  have hnonneg := (h exactUnits exactUnits_convert .seconds _ _ _ _ _ _ _ _ htimed htimed
    ⟨rfl, rfl⟩).nonneg
  rw [reportedTime, elapsed_timeClock exactUnits_convert] at hnonneg
  exact absurd hnonneg (by norm_num [TimeResolution.ofNs, TimeResolution.length, secondWatched])

/-! ### `bench_bin` -/

/-- `bench_bin(s, args...)`, with `time_clock_mono`. -/
def benchBinOps : List Op := [.clockBegin, .runToEnd, .clockEnd]

/-- The sibling with the monotonic clock reports the monotonic time in every execution. -/
theorem benchBin_monotonic {u : Units} (hu : u.Convert) (R : TimeResolution) {clock : Clock}
    {offset : ℤ} {es : List (Event (Label U))} {w : Watched (State U)}
    (h : Timed (processTimer sees) (initial benchBinOps clock) offset es w) :
    (timeClockMono w.start w.stop).elapsed u R = monotonicTime R w ∧ 0 ≤ monotonicTime R w := by
  obtain ⟨hle, -⟩ := Timer.elapsed rfl h.run h.taken h.returned
  exact ⟨elapsed_timeClockMono hu R _ _, TimeResolution.ofNs_nonneg (by omega)⟩

end Bbench.Process
