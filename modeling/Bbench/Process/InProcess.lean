import Bbench.Lib.Recorder
import Bbench.Process.WallClock
import Mathlib.Data.List.Flatten

/-! Measurements of a function in the measuring process itself: `benchmark(func)`,
`bench`, `bench_repeat`, `cpu_bench` and `event::operator()`. There is no child to
hold back: the counters see whatever the process does, the starting and stopping of the
other counters and the reading of the clock with the function. -/

namespace Bbench.Process

open Lib Trace

variable {U : Type*} {sees : ℕ → U → Bool}

/-- A call of the measuring process that takes effect at one moment. The function is
between its entry and its return. -/
inductive OwnCall
  | perfEventOpen (k : ℕ) (ok : Bool)
  | reset (k : ℕ)
  | enable (k : ℕ)
  | disable (k : ℕ)
  | clockBegin
  | clockEnd
  | funcEnter
  | funcReturn
  | pushBack
  deriving DecidableEq, Repr

/-- The counters, the clock with the work done while it ran, and the times put in
`results`. -/
structure OwnState (U : Type*) where
  counters : ℕ → Counter U := fun _ => {}
  clock : Recorder U := {}
  results : List (List U) := []

namespace OwnState

def setCounter (s : OwnState U) (k : ℕ) (c : Counter U) : OwnState U :=
  { s with counters := Function.update s.counters k c }

def call (s : OwnState U) : OwnCall → OwnState U
  | .perfEventOpen k ok => s.setCounter k { opened := ok }
  | .reset k => s.setCounter k { s.counters k with counted := [] }
  | .enable k => s.setCounter k { s.counters k with enabled := (s.counters k).opened }
  | .disable k => s.setCounter k { s.counters k with enabled := false }
  | .clockBegin => { s with clock := ⟨true, []⟩ }
  | .clockEnd => { s with clock := { s.clock with on := false } }
  | .funcEnter => s
  | .funcReturn => s
  | .pushBack => { s with results := s.results ++ [s.clock.taken] }

/-- A unit of work: every enabled counter that sees it counts it, and the clock goes on. -/
def work (sees : ℕ → U → Bool) (s : OwnState U) (u : U) : OwnState U :=
  { s with
    counters := fun k =>
      if (s.counters k).enabled && sees k u then
        { s.counters k with counted := (s.counters k).counted ++ [u] }
      else s.counters k
    clock := if s.clock.on then { s.clock with taken := s.clock.taken ++ [u] } else s.clock }

def step (sees : ℕ → U → Bool) (s : OwnState U) : Happening OwnCall U → OwnState U
  | .call c => s.call c
  | .work u => s.work sees u

def run (sees : ℕ → U → Bool) (s : OwnState U) (tr : List (Happening OwnCall U)) : OwnState U :=
  tr.foldl (step sees) s

@[simp] theorem run_nil (s : OwnState U) : run sees s [] = s := rfl

@[simp] theorem run_cons (s : OwnState U) (h : Happening OwnCall U)
    (tr : List (Happening OwnCall U)) :
    run sees s (h :: tr) = run sees (step sees s h) tr := rfl

theorem run_append (s : OwnState U) (tr tr' : List (Happening OwnCall U)) :
    run sees s (tr ++ tr') = run sees (run sees s tr) tr' :=
  List.foldl_append

end OwnState

/-! ### The calls of the source -/

/-- `kernel_clock::start`. -/
def startCalls (k : ℕ) : List OwnCall := [.reset k, .enable k]

/-- `kernel_clock::stop`. -/
def stopCalls (k : ℕ) : List OwnCall := [.disable k]

/-- What the calls of `benchmark` do with a group of `n` events; `ok` says which open. -/
def BenchCall.calls (n : ℕ) (ok : ℕ → Bool) : BenchCall → List OwnCall
  | .groupOpen => (List.range n).map fun k => .perfEventOpen k (ok k)
  | .clockBegin => [.clockBegin]
  | .groupBegin => (List.range n).flatMap startCalls
  | .func => [.funcEnter, .funcReturn]
  | .clockEnd => [.clockEnd]
  | .groupEnd => (List.range n).flatMap stopCalls

/-- `benchmark(func, args...)`. -/
def benchmarkOwnCalls (n : ℕ) (ok : ℕ → Bool) : List OwnCall :=
  benchmarkCalls.flatMap (BenchCall.calls n ok)

/-- `event::operator()`. -/
def operatorCalls (k : ℕ) : List OwnCall :=
  startCalls k ++ [.funcEnter, .funcReturn] ++ stopCalls k

/-- `cpu_bench(func, args...)`: the event opens its counter when it is made. -/
def cpuBenchCalls (ok : Bool) : List OwnCall := .perfEventOpen 0 ok :: operatorCalls 0

/-- One call of the lambda in `bench` and in `bench_repeat`. -/
def benchRound : List OwnCall := [.clockBegin, .funcEnter, .funcReturn, .clockEnd, .pushBack]

/-- `bench(funcs...)` with `n` functions, and `bench_repeat<n>(func)`. -/
def benchOwnCalls (n : ℕ) : List OwnCall := (List.replicate n benchRound).flatten

/-! ### One counter -/

/-- What the calls do to counter `k` once it is open, or has failed to open. -/
def counterControl (k : ℕ) (opened : Bool) : OwnCall → Control
  | .reset j => if j = k then { clears := true } else {}
  | .enable j => if j = k then { turns := some opened } else {}
  | .disable j => if j = k then { turns := some false } else {}
  | _ => {}

/-- Counter `k` is a recorder of its own as long as it is not opened again. -/
theorem counters_run {k : ℕ} {s : OwnState U} {tr : List (Happening OwnCall U)}
    (hopen : ∀ ok, .perfEventOpen k ok ∉ calls tr) :
    (s.run sees tr).counters k =
      let r := Recorder.run (counterControl k (s.counters k).opened) (sees k)
        ⟨(s.counters k).enabled, (s.counters k).counted⟩ tr
      { s.counters k with enabled := r.on, counted := r.taken } := by
  induction tr generalizing s with
  | nil => rfl
  | cons h tr ih =>
    cases h with
    | work u =>
      rw [OwnState.run_cons, ih hopen, Recorder.run_cons]
      simp only [OwnState.step, OwnState.work, Recorder.step]
      split <;> rfl
    | call c =>
      simp only [calls, List.mem_cons, not_or] at hopen
      rw [OwnState.run_cons, ih fun ok => (hopen ok).2, Recorder.run_cons]
      cases c with
      | perfEventOpen j ok =>
        have hne : k ≠ j := by
          rintro rfl
          exact (hopen ok).1 rfl
        simp [OwnState.step, OwnState.call, OwnState.setCounter, hne, Recorder.step, counterControl]
      | reset j | enable j | disable j =>
        by_cases hj : j = k
        · subst hj
          simp [OwnState.step, OwnState.call, OwnState.setCounter, Recorder.step, counterControl]
        · simp [OwnState.step, OwnState.call, OwnState.setCounter, Recorder.step, counterControl,
            hj, Ne.symm hj]
      | clockBegin | clockEnd | funcEnter | funcReturn | pushBack =>
        simp [OwnState.step, OwnState.call, Recorder.step, counterControl]

/-- Whatever came before, the last opening starts the counter anew. -/
theorem counters_of_open {k : ℕ} {ok : Bool} {s : OwnState U} {a b : List (Happening OwnCall U)}
    (hopen : ∀ ok, .perfEventOpen k ok ∉ calls b) :
    ((s.run sees (a ++ .call (.perfEventOpen k ok) :: b)).counters k).counted =
      (Recorder.run (counterControl k ok) (sees k) {} b).taken := by
  rw [OwnState.run_append, OwnState.run_cons, counters_run hopen]
  simp [OwnState.step, OwnState.call, OwnState.setCounter]

/-- One that has not opened counts nothing. -/
theorem not_opened_taken {k : ℕ} {b : List (Happening OwnCall U)} :
    (Recorder.run (counterControl k false) (sees k) {} b).taken = [] := by
  have hoff : ∀ c ∈ calls b, (counterControl k false c).turns ≠ some true := by
    intro c _
    cases c <;> grind [counterControl]
  exact (Recorder.run_off rfl hoff).2.elim id id

/-- What the calls do to the clock. -/
def clockControl : OwnCall → Control
  | .clockBegin => { clears := true, turns := some true }
  | .clockEnd => { turns := some false }
  | _ => {}

theorem clock_run (s : OwnState U) (tr : List (Happening OwnCall U)) :
    (s.run sees tr).clock = Recorder.run clockControl (fun _ => true) s.clock tr := by
  induction tr generalizing s with
  | nil => rfl
  | cons h tr ih =>
    have hstep : (OwnState.step sees s h).clock =
        Recorder.step clockControl (fun _ => true) s.clock h := by
      cases h with
      | work u => simp [OwnState.step, OwnState.work, Recorder.step]
      | call c => cases c <;> rfl
    rw [OwnState.run_cons, ih, hstep, Recorder.run_cons]

/-- The clock starts anew with every `cl.begin`. -/
theorem clockControl_run {cs ds es : List OwnCall} {tr : List (Happening OwnCall U)}
    (r : Recorder U) (hcalls : calls tr = cs ++ .clockBegin :: (ds ++ .clockEnd :: es))
    (hcs : .clockBegin ∉ cs) (hmeanwhile : ∀ x ∈ ds, clockControl x = {})
    (hlater : ∀ x ∈ es, clockControl x = {}) :
    Recorder.run clockControl (fun _ => true) r tr =
      ⟨false, between .clockBegin .clockEnd tr⟩ := by
  have hrun : Recorder.run clockControl (fun _ => true) r tr =
      ⟨false, (between .clockBegin .clockEnd tr).filter fun _ => true⟩ :=
    Recorder.run_started r hcalls hcs (fun a _ => rfl) rfl hmeanwhile fun x hx => by
      simp [hlater x hx]
  rwa [List.filter_true] at hrun

/-! ### `benchmark` -/

/-- A member of the group, with the members after it. -/
theorem exists_range_split {n k : ℕ} (hk : k < n) :
    ∃ rest, List.range n = List.range k ++ k :: rest ∧ ∀ j ∈ rest, k < j := by
  obtain ⟨m, rfl⟩ : ∃ m, n = k + (m + 1) := ⟨n - k - 1, by omega⟩
  refine ⟨(List.range m).map (k + 1 + ·), ?_, by simp; omega⟩
  rw [List.range_add, List.range_succ_eq_map]
  simp [Function.comp_def]
  omega

theorem benchmarkOwnCalls_eq (n : ℕ) (ok : ℕ → Bool) : benchmarkOwnCalls n ok =
    (List.range n).map (fun k => .perfEventOpen k (ok k)) ++ .clockBegin ::
      ((List.range n).flatMap startCalls ++ [.funcEnter, .funcReturn, .clockEnd] ++
        (List.range n).flatMap stopCalls) := by
  simp [benchmarkOwnCalls, benchmarkCalls, BenchCall.calls]

theorem nodup_benchmarkOwnCalls (n : ℕ) (ok : ℕ → Bool) : (benchmarkOwnCalls n ok).Nodup := by
  have hrange : (List.range n).Nodup := List.nodup_range
  have hopens : ((List.range n).map fun k => OwnCall.perfEventOpen k (ok k)).Nodup :=
    hrange.map fun j k h => (OwnCall.perfEventOpen.inj h).1
  have hstarts : ((List.range n).flatMap startCalls).Nodup := by
    refine List.nodup_flatMap.mpr ⟨fun k _ => by simp [startCalls], hrange.imp fun hne => ?_⟩
    simp [Function.onFun, startCalls, hne.symm]
  have hstops : ((List.range n).flatMap stopCalls).Nodup := by
    refine List.nodup_flatMap.mpr ⟨fun k _ => by simp [stopCalls], hrange.imp fun hne => ?_⟩
    simp [Function.onFun, stopCalls, hne.symm]
  rw [benchmarkOwnCalls_eq]
  refine List.nodup_append.mpr ⟨hopens, List.nodup_cons.mpr ⟨?_, ?_⟩, ?_⟩
  · simp [startCalls, stopCalls]
  · simp only [List.nodup_append, hstarts, hstops]
    simp [startCalls, stopCalls]
    grind
  · simp [startCalls, stopCalls]
    grind

/-! ### Windows -/

/-- The windows from `c` to `d` and from `c'` to `d'` around the function. The first is
opened first and closed first: each has the work of the function, the first one what is
done before the second is opened, and the second one what is done after the first is
closed. -/
structure Staggered (c d c' d' : OwnCall) (tr : List (Happening OwnCall U)) : Prop where
  first : between c d tr = between c c' tr ++ between c' .funcEnter tr ++
    between .funcEnter .funcReturn tr ++ between .funcReturn d tr
  second : between c' d' tr = between c' .funcEnter tr ++ between .funcEnter .funcReturn tr ++
    between .funcReturn d tr ++ between d d' tr

theorem Staggered.of_sublist {c d c' d' : OwnCall} {tr : List (Happening OwnCall U)}
    (hn : (calls tr).Nodup)
    (h : List.Sublist [c, c', .funcEnter, .funcReturn, d, d'] (calls tr)) :
    Staggered c d c' d' tr := by
  have hthree : ∀ x y z, List.Sublist [x, y, z] [c, c', .funcEnter, .funcReturn, d, d'] →
      between x z tr = between x y tr ++ between y z tr := by
    intro x y z hxyz
    exact between_trans hn (hxyz.trans h)
  constructor
  · rw [hthree c c' d (by simp), hthree c' .funcEnter d (by simp),
      hthree .funcEnter .funcReturn d (by simp)]
    simp only [List.append_assoc]
  · rw [hthree c' .funcEnter d' (by simp [List.cons_sublist_cons']),
      hthree .funcEnter .funcReturn d' (by simp [List.cons_sublist_cons']),
      hthree .funcReturn d d' (by simp [List.cons_sublist_cons'])]
    simp only [List.append_assoc]

/-- Two members of the group in the order in which they are started and stopped. -/
theorem pair_sublist_range {j k n : ℕ} (hjk : j < k) (hk : k < n) :
    List.Sublist [j, k] (List.range n) := by
  obtain ⟨rest, heq, -⟩ := exists_range_split hk
  rw [heq]
  exact (List.singleton_sublist.mpr (List.mem_range.mpr hjk)).append
    (List.singleton_sublist.mpr List.mem_cons_self)

theorem members_staggered {n j k : ℕ} {ok : ℕ → Bool} {tr : List (Happening OwnCall U)}
    (h : calls tr = benchmarkOwnCalls n ok) (hjk : j < k) (hk : k < n) :
    Staggered (.enable j) (.disable j) (.enable k) (.disable k) tr := by
  have hstarts : List.Sublist [.enable j, .enable k] ((List.range n).flatMap startCalls) :=
    .trans (by simp [startCalls] : List.Sublist _ ([j, k].flatMap startCalls))
      ((pair_sublist_range hjk hk).flatMap startCalls)
  have hstops : List.Sublist [.disable j, .disable k] ((List.range n).flatMap stopCalls) :=
    (pair_sublist_range hjk hk).flatMap stopCalls
  have hfunc : List.Sublist [OwnCall.funcEnter, .funcReturn] [.funcEnter, .funcReturn, .clockEnd] :=
    by decide
  refine Staggered.of_sublist (h ▸ nodup_benchmarkOwnCalls n ok) ?_
  rw [h, benchmarkOwnCalls_eq]
  refine List.sublist_append_of_sublist_right (.cons _ ?_)
  exact (hstarts.append hfunc).append hstops

theorem clock_staggered {n k : ℕ} {ok : ℕ → Bool} {tr : List (Happening OwnCall U)}
    (h : calls tr = benchmarkOwnCalls n ok) (hk : k < n) :
    Staggered .clockBegin .clockEnd (.enable k) (.disable k) tr := by
  have hmem : k ∈ List.range n := List.mem_range.mpr hk
  have hstart : List.Sublist [.enable k] ((List.range n).flatMap startCalls) :=
    List.singleton_sublist.mpr (List.mem_flatMap.mpr ⟨k, hmem, by simp [startCalls]⟩)
  have hstop : List.Sublist [.disable k] ((List.range n).flatMap stopCalls) :=
    List.singleton_sublist.mpr (List.mem_flatMap.mpr ⟨k, hmem, by simp [stopCalls]⟩)
  have hfunc := List.Sublist.refl [OwnCall.funcEnter, .funcReturn, .clockEnd]
  refine Staggered.of_sublist (h ▸ nodup_benchmarkOwnCalls n ok) ?_
  rw [h, benchmarkOwnCalls_eq]
  refine List.sublist_append_of_sublist_right (.cons_cons _ ?_)
  exact (hstart.append hfunc).append hstop

/-- Counter `k` counts what it sees between its `enable` and its `disable`. -/
theorem benchmark_counted {n k : ℕ} {ok : ℕ → Bool} {tr : List (Happening OwnCall U)}
    (h : calls tr = benchmarkOwnCalls n ok) (hk : k < n) :
    ((OwnState.run sees {} tr).counters k).counted =
      if ok k then (between (.enable k) (.disable k) tr).filter (sees k) else [] := by
  obtain ⟨rest, hrange, hrest⟩ := exists_range_split hk
  have hcalls : calls tr = (List.range k).map (fun k => .perfEventOpen k (ok k)) ++
      .perfEventOpen k (ok k) :: ((rest.map (fun k => .perfEventOpen k (ok k)) ++ .clockBegin ::
        ((List.range k).flatMap startCalls ++ [.reset k])) ++ .enable k ::
        ((rest.flatMap startCalls ++ [.funcEnter, .funcReturn, .clockEnd] ++
          (List.range k).flatMap stopCalls) ++ .disable k :: rest.flatMap stopCalls)) := by
    rw [h, benchmarkOwnCalls_eq, hrange]
    simp [startCalls, stopCalls]
  obtain ⟨a, b, rfl, ha, hb⟩ := calls_eq_append_cons hcalls
  have hopen : ∀ o, .perfEventOpen k o ∉ calls b := by
    intro o hmem
    rw [hb] at hmem
    simp [startCalls, stopCalls] at hmem
    grind
  have hbetween : between (.enable k) (.disable k) (a ++ .call (.perfEventOpen k (ok k)) :: b) =
      between (.enable k) (.disable k) b := by
    rw [List.append_cons, between_append]
    simp [calls, ha]
  rw [counters_of_open hopen, hbetween]
  cases hok : ok k with
  | false => exact not_opened_taken
  | true =>
    rw [Recorder.run_between hb (by simp [counterControl]) (by simp [counterControl]), if_pos rfl]
    · intro x hx
      simp [startCalls] at hx
      grind [counterControl]
    · intro x hx
      simp [startCalls, stopCalls] at hx
      grind [counterControl]
    · intro x hx
      simp [stopCalls] at hx
      grind [counterControl]

/-- The clock takes the work between `cl.begin` and `cl.end`. -/
theorem benchmark_timed {n : ℕ} {ok : ℕ → Bool} {tr : List (Happening OwnCall U)}
    (h : calls tr = benchmarkOwnCalls n ok) :
    (OwnState.run sees {} tr).clock.taken = between .clockBegin .clockEnd tr := by
  have hcalls : calls tr = (List.range n).map (fun k => .perfEventOpen k (ok k)) ++ .clockBegin ::
      (((List.range n).flatMap startCalls ++ [.funcEnter, .funcReturn]) ++ .clockEnd ::
        (List.range n).flatMap stopCalls) := by
    rw [h, benchmarkOwnCalls_eq]
    simp
  rw [clock_run, clockControl_run _ hcalls]
  · simp
  · intro x hx
    simp [startCalls] at hx
    grind [clockControl]
  · intro x hx
    simp [stopCalls] at hx
    grind [clockControl]

/-- What `benchmark(func)` measures with a group of `n` events, in an execution with the
calls and the work of `tr`. -/
structure BenchmarkMeasures (sees : ℕ → U → Bool) (n : ℕ) (ok : ℕ → Bool)
    (tr : List (Happening OwnCall U)) : Prop where
  counted : ∀ k < n, ((OwnState.run sees {} tr).counters k).counted =
    if ok k then (between (.enable k) (.disable k) tr).filter (sees k) else []
  timed : (OwnState.run sees {} tr).clock.taken = between .clockBegin .clockEnd tr
  /-- The clock starts before every counter and stops before every counter. -/
  clock : ∀ k < n, Staggered .clockBegin .clockEnd (.enable k) (.disable k) tr
  members : ∀ j k, j < k → k < n →
    Staggered (.enable j) (.disable j) (.enable k) (.disable k) tr
  /-- Two counters of one kind differ by the starting and the stopping of the group. -/
  skew : ∀ j k, j < k → k < n → ok j = true → ok k = true → sees j = sees k →
    ((OwnState.run sees {} tr).counters j).counted.length +
        (between (.disable j) (.disable k) tr).countP (sees k) =
      ((OwnState.run sees {} tr).counters k).counted.length +
        (between (.enable j) (.enable k) tr).countP (sees k)

/-- What `benchmark(func)` measures. Whichever counters open and wherever the process does
its work, each open counter counts all the work of the function that it sees. The windows
are staggered, as the clock and the counters are started one after the other and stopped
in the same order. -/
theorem benchmark_measures (sees : ℕ → U → Bool) (n : ℕ) (ok : ℕ → Bool)
    {tr : List (Happening OwnCall U)} (h : calls tr = benchmarkOwnCalls n ok) :
    BenchmarkMeasures sees n ok tr where
  counted k hk := benchmark_counted h hk
  timed := benchmark_timed h
  clock k hk := clock_staggered h hk
  members j k hjk hk := members_staggered h hjk hk
  skew j k hjk hk hj hk' hsees := by
    have hstag := members_staggered h hjk hk
    rw [benchmark_counted h (hjk.trans hk), benchmark_counted h hk, if_pos hj, if_pos hk', hsees,
      hstag.first, hstag.second]
    simp only [List.filter_append, List.length_append, List.countP_eq_length_filter]
    omega

/-- Two counters, the second of which does not open; each call does some work. -/
def twoCounters : List (Happening OwnCall ℕ) :=
  (benchmarkOwnCalls 2 (· = 0)).zipIdx.flatMap fun c => [.call c.1, .work c.2]

theorem benchmark_measures_two : BenchmarkMeasures (fun _ _ => true) 2 (· = 0) twoCounters :=
  benchmark_measures _ 2 _ (by decide)

/-! ### `event::operator()` and `cpu_bench` -/

/-- A counter that did not open is not enabled and has counted nothing. -/
def Idle (k : ℕ) (s : OwnState U) : Prop :=
  (s.counters k).opened = false → (s.counters k).enabled = false ∧ (s.counters k).counted = []

theorem Idle.step {k : ℕ} {s : OwnState U} (hs : Idle k s) (h : Happening OwnCall U) :
    Idle k (s.step sees h) := by
  intro hopened
  cases h with
  | work u =>
    have hidle : (s.counters k).opened = false := by
      simp only [OwnState.step, OwnState.work] at hopened
      split at hopened <;> exact hopened
    simp [OwnState.step, OwnState.work, hs hidle]
  | call c =>
    cases c with
    | perfEventOpen j _ | reset j | enable j | disable j =>
      by_cases hj : k = j
      · subst hj
        simp_all [Idle, OwnState.step, OwnState.call, OwnState.setCounter]
      · simp_all [Idle, OwnState.step, OwnState.call, OwnState.setCounter]
    | _ => exact hs hopened

theorem Idle.run {k : ℕ} {s : OwnState U} (hs : Idle k s) (tr : List (Happening OwnCall U)) :
    Idle k (s.run sees tr) := by
  induction tr generalizing s with
  | nil => exact hs
  | cons h tr ih => exact ih (hs.step h)

/-- What one use of an event counts: with the counter left running by an earlier call,
also the work between its reset and its start. -/
def eventWindow (k : ℕ) (c : Counter U) (tr : List (Happening OwnCall U)) : List U :=
  (if c.enabled then between (.reset k) (.enable k) tr else []) ++
    between (.enable k) (.disable k) tr

theorem operator_counted (sees : ℕ → U → Bool) {k : ℕ} {s : OwnState U}
    {tr : List (Happening OwnCall U)} (hs : Idle k s) (h : calls tr = operatorCalls k) :
    ((s.run sees tr).counters k).enabled = false ∧ ((s.run sees tr).counters k).counted =
      if (s.counters k).opened then (eventWindow k (s.counters k) tr).filter (sees k) else [] := by
  have hopen : ∀ o, .perfEventOpen k o ∉ calls tr := by
    intro o
    simp [h, operatorCalls, startCalls, stopCalls]
  have hrun : (s.run sees tr).counters k = _ := counters_run hopen
  cases hopened : (s.counters k).opened with
  | true =>
    have hcalls : calls tr = [] ++ .reset k :: ([] ++ .enable k ::
      ([.funcEnter, .funcReturn] ++ .disable k :: [])) := h
    have hrestart : Recorder.run (counterControl k true) (sees k)
        ⟨(s.counters k).enabled, (s.counters k).counted⟩ tr =
        ⟨false, (eventWindow k (s.counters k) tr).filter (sees k)⟩ :=
      Recorder.run_restart _ hcalls (by simp [counterControl]) (by simp [counterControl])
        (by simp [counterControl]) (by simp [counterControl])
    rw [hrun, hopened, hrestart]
    exact ⟨rfl, rfl⟩
  | false =>
    have hstill : ((s.run sees tr).counters k).opened = false := by
      rw [hrun]
      exact hopened
    exact hs.run tr hstill

/-- The window from `c` to `d` has the work of the function whole. -/
def Around (c d : OwnCall) (tr : List (Happening OwnCall U)) : Prop :=
  between c d tr = between c .funcEnter tr ++ between .funcEnter .funcReturn tr ++
    between .funcReturn d tr

theorem Around.of_sublist {c d : OwnCall} {tr : List (Happening OwnCall U)}
    (hn : (calls tr).Nodup) (h : List.Sublist [c, .funcEnter, .funcReturn, d] (calls tr)) :
    Around c d tr := by
  have hfirst : List.Sublist [c, .funcEnter, d] [c, .funcEnter, .funcReturn, d] := by simp
  have hsecond : List.Sublist [.funcEnter, .funcReturn, d] [c, .funcEnter, .funcReturn, d] :=
    .cons _ (.refl _)
  rw [Around, between_trans hn (hfirst.trans h), between_trans hn (hsecond.trans h),
    List.append_assoc]

theorem operator_around {k : ℕ} {tr : List (Happening OwnCall U)}
    (h : calls tr = operatorCalls k) : Around (.enable k) (.disable k) tr := by
  refine Around.of_sublist ?_ ?_
  · simp [h, operatorCalls, startCalls, stopCalls]
  · simp [h, operatorCalls, startCalls, stopCalls]

/-- What an event reads after each use. Whatever was done with the counters before, a use
of an event that has opened counts the work of the function that it sees, with what is done
from its start to its stop; only when it was left running does it count more, and no use
leaves it running. With `cpu_bench` the event is new. -/
theorem event_counts (sees : ℕ → U → Bool) :
    (∀ k tr₀ tr, calls tr = operatorCalls k →
      ((OwnState.run sees {} (tr₀ ++ tr)).counters k).enabled = false ∧
      ((OwnState.run sees {} (tr₀ ++ tr)).counters k).counted =
        (if ((OwnState.run sees {} tr₀).counters k).opened then
          (eventWindow k ((OwnState.run sees {} tr₀).counters k) tr).filter (sees k) else []) ∧
      Around (.enable k) (.disable k) tr) ∧
    ∀ ok tr, calls tr = cpuBenchCalls ok →
      ((OwnState.run sees {} tr).counters 0).counted =
        (if ok then (between (.enable 0) (.disable 0) tr).filter (sees 0) else []) ∧
      Around (.enable 0) (.disable 0) tr := by
  refine ⟨fun k tr₀ tr h => ?_, fun ok tr h => ?_⟩
  · have hidle : Idle k (OwnState.run sees {} tr₀) := Idle.run (fun _ => ⟨rfl, rfl⟩) tr₀
    obtain ⟨hoff, hcounted⟩ := operator_counted sees hidle h
    rw [OwnState.run_append]
    exact ⟨hoff, hcounted, operator_around h⟩
  · have hcalls : calls tr = [] ++ .perfEventOpen 0 ok :: operatorCalls 0 := h
    obtain ⟨a, b, rfl, ha, hb⟩ := calls_eq_append_cons hcalls
    have hidle : Idle 0 (OwnState.run sees {} (a ++ [.call (.perfEventOpen 0 ok)])) :=
      Idle.run (fun _ => ⟨rfl, rfl⟩) _
    have hnew : (OwnState.run sees {} (a ++ [.call (.perfEventOpen 0 ok)])).counters 0 =
        { opened := ok } := by
      rw [OwnState.run_append]
      simp [OwnState.step, OwnState.call, OwnState.setCounter]
    obtain ⟨-, hcounted⟩ := operator_counted sees hidle hb
    have hbetween : between (.enable 0) (.disable 0) (a ++ .call (.perfEventOpen 0 ok) :: b) =
        between (.enable 0) (.disable 0) b := by
      rw [List.append_cons, between_append]
      simp [calls, ha]
    refine ⟨?_, Around.of_sublist ?_ ?_⟩
    · rw [List.append_cons, OwnState.run_append, hcounted, hnew, ← List.append_cons, hbetween]
      rfl
    · simp [h, cpuBenchCalls, operatorCalls, startCalls, stopCalls]
    · simp [h, cpuBenchCalls, operatorCalls, startCalls, stopCalls]

/-- A use of a counter that an earlier `begin` left running. -/
theorem event_counts_running :
    ((OwnState.run (fun _ _ => true) {} ([.call (.perfEventOpen 0 true), .call (.reset 0),
      .call (.enable 0), .work 1] ++ [.call (.reset 0), .work 2, .call (.enable 0), .work 3,
      .call .funcEnter, .work 4, .call .funcReturn, .work 5, .call (.disable 0), .work 6])).counters
      0).counted = [2, 3, 4, 5] := by
  rw [((event_counts fun _ (_ : ℕ) => true).1 0 _ _ (by decide)).2.1]
  decide

/-! ### `bench` and `bench_repeat` -/

/-- Only `push_back` adds to the results. -/
theorem results_run {tr : List (Happening OwnCall U)} (h : .pushBack ∉ calls tr)
    (s : OwnState U) : (s.run sees tr).results = s.results := by
  induction tr generalizing s with
  | nil => rfl
  | cons e tr ih =>
    cases e with
    | work u => exact ih h _
    | call c =>
      rw [calls, List.mem_cons, not_or] at h
      rw [OwnState.run_cons, ih h.2]
      cases c <;> first | rfl | exact absurd rfl h.1

/-- One round adds the time of its own window. -/
theorem results_round {r : List (Happening OwnCall U)} (h : calls r = benchRound)
    (s : OwnState U) :
    (s.run sees r).results = s.results ++ [between .clockBegin .clockEnd r] := by
  have hcalls : calls r = [] ++ .clockBegin :: ([.funcEnter, .funcReturn] ++ .clockEnd ::
      ([] ++ .pushBack :: [])) := h
  obtain ⟨a, rest, rfl, ha, hrest⟩ := calls_eq_append_cons hcalls
  obtain ⟨m, rest', rfl, hm, hrest'⟩ := calls_eq_append_cons hrest
  obtain ⟨e, b, rfl, he, hb⟩ := calls_eq_append_cons hrest'
  have hbefore : calls (a ++ .call .clockBegin :: (m ++ .call .clockEnd :: e)) =
      [] ++ .clockBegin :: ([.funcEnter, .funcReturn] ++ .clockEnd :: []) := by
    simp [calls, ha, hm, he]
  have hclock := clockControl_run s.clock hbefore (by simp) (by simp [clockControl]) (by simp)
  have hbegin : .clockBegin ∉ calls a := by simp [ha]
  have hend : .clockEnd ∉ calls m := by simp [hm]
  rw [between_split hbegin hend] at hclock ⊢
  have hassoc : a ++ .call .clockBegin :: (m ++ .call .clockEnd :: (e ++ .call .pushBack :: b)) =
      (a ++ .call .clockBegin :: (m ++ .call .clockEnd :: e)) ++ .call .pushBack :: b := by simp
  have hsame : (s.run sees (a ++ .call .clockBegin :: (m ++ .call .clockEnd :: e))).results =
      s.results := results_run (by simp [hbefore]) s
  have hlast : .pushBack ∉ calls b := by simp [hb]
  rw [hassoc, OwnState.run_append, OwnState.run_cons, results_run hlast]
  simp only [OwnState.step, OwnState.call, hsame, clock_run, hclock]

theorem round_around {r : List (Happening OwnCall U)} (h : calls r = benchRound) :
    Around .clockBegin .clockEnd r := by
  refine Around.of_sublist ?_ ?_
  · simp [h, benchRound]
  · simp [h, benchRound]

theorem results_rounds {rounds : List (List (Happening OwnCall U))}
    (h : ∀ r ∈ rounds, calls r = benchRound) (s : OwnState U) :
    (s.run sees rounds.flatten).results =
      s.results ++ rounds.map (between .clockBegin .clockEnd) := by
  induction rounds generalizing s with
  | nil => simp
  | cons r rounds ih =>
    have hrest := ih (fun r' hr' => h r' (List.mem_cons_of_mem _ hr')) (s.run sees r)
    rw [List.flatten_cons, OwnState.run_append, hrest, results_round (h r List.mem_cons_self)]
    simp

/-- What `bench(funcs...)` and `bench_repeat<n>(func)` return. There is one time for each
call of a function, in the order of the calls; it has the work of that call whole and no
work that is in another of the times, so together they are no more than all the work. -/
theorem bench_times (sees : ℕ → U → Bool) (n : ℕ) {tr : List (Happening OwnCall U)}
    (h : calls tr = benchOwnCalls n) :
    ∃ (rounds : List (List (Happening OwnCall U))) (rest : List (Happening OwnCall U)),
      tr = rounds.flatten ++ rest ∧ rounds.length = n ∧
      (∀ r ∈ rounds, calls r = benchRound ∧ Around .clockBegin .clockEnd r) ∧
      (OwnState.run sees {} tr).results = rounds.map (between .clockBegin .clockEnd) ∧
      List.Sublist (OwnState.run sees {} tr).results.flatten (works tr) := by
  obtain ⟨rounds, rest, rfl, hrounds, hrest⟩ := calls_eq_flatten h
  have hlength : rounds.length = n := by
    have hlen := congrArg List.length hrounds
    simpa using hlen
  have hround : ∀ r ∈ rounds, calls r = benchRound := by
    intro r hr
    have hmem : calls r ∈ rounds.map calls := List.mem_map_of_mem hr
    rw [hrounds] at hmem
    exact List.eq_of_mem_replicate hmem
  have hresults : (OwnState.run sees {} (rounds.flatten ++ rest)).results =
      rounds.map (between .clockBegin .clockEnd) := by
    rw [OwnState.run_append, results_run (by simp [hrest]), results_rounds hround]
    rfl
  refine ⟨rounds, rest, rfl, hlength, fun r hr => ⟨hround r hr, round_around (hround r hr)⟩,
    hresults, ?_⟩
  rw [hresults, works_append, works_flatten, ← List.flatMap_def]
  have hwindows : List.Sublist (rounds.flatMap (between .clockBegin .clockEnd))
      (rounds.flatMap works) :=
    List.Sublist.flatMap_right _ fun r _ => between_sublist _ _ r
  exact hwindows.trans (List.sublist_append_left _ _)

/-- Two calls, with work in every place. -/
def twoRounds : List (Happening OwnCall ℕ) :=
  (benchOwnCalls 2).zipIdx.flatMap fun c => [.call c.1, .work c.2]

theorem bench_times_two : ∃ (rounds : List (List (Happening OwnCall ℕ)))
    (rest : List (Happening OwnCall ℕ)), twoRounds = rounds.flatten ++ rest ∧ rounds.length = 2 ∧
    (∀ r ∈ rounds, calls r = benchRound ∧ Around .clockBegin .clockEnd r) ∧
    (OwnState.run (fun _ _ => true) {} twoRounds).results =
      rounds.map (between .clockBegin .clockEnd) ∧
    List.Sublist (OwnState.run (fun _ _ => true) {} twoRounds).results.flatten (works twoRounds) :=
  bench_times _ 2 (by decide)

end Bbench.Process
