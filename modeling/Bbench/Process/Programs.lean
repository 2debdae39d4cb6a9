import Bbench.Perf.Events
import Bbench.Perf.Topdown
import Bbench.Process.Machine

/-! The measuring functions of `bench.hpp` and `topdown.hpp` as programs of the
parent. The two functions behind `benchmark_bin(path, opts)` and
`benchmark_bin_dynamic` make the same calls with different counters. -/

namespace Bbench.Process

open Perf

/-- `if ( opts.pre ) process<true>(opts.pre);` and the same with `opts.post`. -/
def hookOps (cmd : Option String) : List Op := if cmd.isSome then [.runToEnd] else []

/-- `if ( opts.delay_ms > 0 ) __sleep_ms(opts.delay_ms);` -/
def delayOps (opts : BenchmarkOpts) : List Op :=
  if 0 < opts.delayMs then [.sleepMs opts.delayMs.toNat] else []

theorem mem_hookOps {cmd : Option String} {op : Op} (h : op ∈ hookOps cmd) : op = .runToEnd :=
  List.mem_singleton.mp (List.mem_ite_nil_right.mp h).2

theorem mem_delayOps {opts : BenchmarkOpts} {op : Op} (h : op ∈ delayOps opts) :
    op = .sleepMs opts.delayMs.toNat :=
  List.mem_singleton.mp (List.mem_ite_nil_right.mp h).2

/-- What is left to do of an optional call. -/
theorem eq_of_suffix_ite {p : Prop} [Decidable p] {op : Op} {ops : List Op}
    (h : ops <:+ if p then [op] else []) : ops = [] ∨ ops = [op] := by
  split at h
  · rcases List.suffix_cons_iff.mp h with h | h
    · exact .inr h
    · exact .inl (List.suffix_nil.mp h)
  · exact .inl (List.suffix_nil.mp h)

theorem eq_of_suffix_hookOps {cmd : Option String} {ops : List Op} (h : ops <:+ hookOps cmd) :
    ops = [] ∨ ops = [.runToEnd] :=
  eq_of_suffix_ite h

theorem eq_of_suffix_delayOps {opts : BenchmarkOpts} {ops : List Op} (h : ops <:+ delayOps opts) :
    ops = [] ∨ ops = [.sleepMs opts.delayMs.toNat] :=
  eq_of_suffix_ite h

/-- What follows the wait for the measured child. -/
def finishOps (opts : BenchmarkOpts) (n : ℕ) : List Op :=
  .clockEnd :: .stop n :: hookOps opts.post

theorem eq_of_mem_finishOps {opts : BenchmarkOpts} {n : ℕ} {op : Op} (h : op ∈ finishOps opts n) :
    op = .clockEnd ∨ op = .stop n ∨ op = .runToEnd := by
  simp only [finishOps, List.mem_cons] at h
  rcases h with h | h | h
  · exact .inl h
  · exact .inr (.inl h)
  · exact .inr (.inr (mem_hookOps h))

/-- What follows `process_attach`. -/
def timedOps (opts : BenchmarkOpts) (n : ℕ) : List Op :=
  delayOps opts ++ .clockBegin :: .waitWithTimeout opts.timeoutMs :: finishOps opts n

/-- One measurement with the given counters. -/
def measureOps (opts : BenchmarkOpts) (attrs : List PerfEventAttr) : List Op :=
  hookOps opts.pre ++ .processAttach attrs :: timedOps opts attrs.length

/-- The counters `__bench_bin_with_opts` opens for the group of a detail level. -/
def staticAttrs (opts : BenchmarkOpts) : List PerfEventAttr :=
  (preparedGroup opts (eventGroup opts.detail)).map Member.attr

def benchmarkBinOps (opts : BenchmarkOpts) : List Op := measureOps opts (staticAttrs opts)

def benchmarkBinDynamicOps (defs : List EventDef) (opts : BenchmarkOpts) : List Op :=
  measureOps opts (dynamicGroup opts defs)

/-- `topdown::measure_bin`, which makes no call when the counters are not supported. -/
def measureBinOps (supported : Bool) (opts : BenchmarkOpts) : List Op :=
  if supported then
    hookOps opts.pre ++ .processAttach (Topdown.group opts) :: .waitpid :: .stop 5 ::
      hookOps opts.post
  else []

/-- `benchmark_bin(s, args...)` with the counters of its group. -/
def benchmarkBinArgsOps (attrs : List PerfEventAttr) : List Op :=
  [.spawn, .reopen attrs, .clockBegin, .start attrs.length, .waitpid, .clockEnd,
    .stop attrs.length]

/-- `cpu_bench_bin(s, args...)` with its one counter. -/
def cpuBenchBinOps (attr : PerfEventAttr) : List Op :=
  [.spawn, .reopen [attr], .start 1, .waitpid, .stop 1]

/-- What the two argument-passing overloads have in common, from the last call to
the first: the calls after the child has ended, after the counters are open, and all. -/
def spawnedFinish (timed : Bool) (n : ℕ) : List Op :=
  (if timed then [.clockEnd] else []) ++ [.stop n]

theorem eq_of_mem_spawnedFinish {timed : Bool} {n : ℕ} {op : Op}
    (h : op ∈ spawnedFinish timed n) : op = .clockEnd ∨ op = .stop n := by
  cases timed
  · exact .inr (List.mem_singleton.mp h)
  · simpa [spawnedFinish] using h

def readyOps (timed : Bool) (n : ℕ) : List Op :=
  (if timed then [.clockBegin] else []) ++ .start n :: .waitpid :: spawnedFinish timed n

def spawnedOps (timed : Bool) (attrs : List PerfEventAttr) : List Op :=
  .spawn :: .reopen attrs :: readyOps timed attrs.length

/-- The argument-passing overloads, with their counters as they are constructed. -/
inductive SpawnedOps : List PerfEventAttr → List Op → Prop
  | benchmarkBin (G : List Event) :
    SpawnedOps (G.map Event.attr) (benchmarkBinArgsOps (G.map Event.attr))
  | cpuBenchBin (e : Event) : SpawnedOps [e.attr] (cpuBenchBinOps e.attr)

theorem SpawnedOps.eq {attrs : List PerfEventAttr} {prog : List Op} (h : SpawnedOps attrs prog) :
    ∃ timed, prog = spawnedOps timed attrs := by
  cases h with
  | benchmarkBin G => exact ⟨true, rfl⟩
  | cpuBenchBin e => exact ⟨false, rfl⟩

/-- No overload asks for the counts of later tasks. -/
theorem SpawnedOps.inherit {attrs : List PerfEventAttr} {prog : List Op}
    (h : SpawnedOps attrs prog) : ∀ attr ∈ attrs, attr.inherit = false := by
  cases h with
  | benchmarkBin G => exact List.forall_mem_map.mpr fun _ _ => rfl
  | cpuBenchBin e => exact List.forall_mem_singleton.mpr rfl

/-- The counters of the two functions that measure through `process_attach`. -/
inductive AttachedAttrs (opts : BenchmarkOpts) : List PerfEventAttr → Prop
  | benchmarkBin : AttachedAttrs opts (staticAttrs opts)
  | benchmarkBinDynamic (defs : List EventDef) : AttachedAttrs opts (dynamicGroup opts defs)

/-- They all wait for the `execve` of the child. -/
theorem AttachedAttrs.enableOnExec {opts : BenchmarkOpts} {attrs : List PerfEventAttr}
    (h : AttachedAttrs opts attrs) : ∀ attr ∈ attrs, attr.enableOnExec = true := by
  intro attr hattr
  cases h with
  | benchmarkBin =>
    rw [staticAttrs, preparedGroup_eq, List.map_map] at hattr
    obtain ⟨e, -, rfl⟩ := List.mem_map.mp hattr
    rfl
  | benchmarkBinDynamic defs =>
    obtain ⟨d, -, rfl⟩ := List.mem_map.mp hattr
    rfl

/-- And the options decide about the counts of later tasks. -/
theorem AttachedAttrs.inherit {opts : BenchmarkOpts} {attrs : List PerfEventAttr}
    (h : AttachedAttrs opts attrs) : ∀ attr ∈ attrs, attr.inherit = opts.inherit := by
  intro attr hattr
  cases h with
  | benchmarkBin =>
    obtain ⟨m, hm, rfl⟩ := List.mem_map.mp hattr
    exact (attr_userland (eventGroup_userland opts.detail) hm).2.2.1
  | benchmarkBinDynamic defs => exact (attr_dynamicGroup hattr).2.2.1

/-- A measurement waits only through `__wait_with_timeout`, with the timeout of the options. -/
theorem mem_measureOps {opts : BenchmarkOpts} {attrs : List PerfEventAttr} {op : Op}
    (h : op ∈ measureOps opts attrs) :
    op ≠ .waitpid ∧ (∀ timeoutMs, op = .waitWithTimeout timeoutMs → timeoutMs = opts.timeoutMs) ∧
      ∀ attrs', op = .processAttach attrs' → attrs' = attrs := by
  simp only [measureOps, timedOps, finishOps, List.mem_append, List.mem_cons] at h
  obtain h | rfl | h | rfl | rfl | rfl | rfl | h := h
  · simp [mem_hookOps h]
  · simp [eq_comm]
  · simp [mem_delayOps h]
  · simp
  · simp [eq_comm]
  · simp
  · simp
  · simp [mem_hookOps h]

/-- `measure_bin` opens the top-down counters only. -/
theorem mem_measureBinOps {opts : BenchmarkOpts} {attrs : List PerfEventAttr}
    (h : .processAttach attrs ∈ measureBinOps true opts) : attrs = Topdown.group opts := by
  have hhook (cmd : Option String) : Op.processAttach attrs ∉ hookOps cmd :=
    fun hop => Op.noConfusion (mem_hookOps hop)
  simpa [measureBinOps, hhook] using h

end Bbench.Process
