import Bbench.Process.Inherited
import Mathlib.Data.Finset.Card

/-! The descriptors `bbench` has open while `main` runs: besides those it was started with
and the output file, only the ends of the pipe and the counters of one measurement. What
a measurement opens it has closed when the next one begins, also when it ends by an
exception, so their number does not grow with the number of paths and runs. -/

namespace Bbench.Process

open Perf Transition Descriptors Cli

variable {fds : Finset ℕ} {s t : FdState} {l : FdLabel} {supported : Bool} {cli : CliOpts}
  {h h' : Holding} {answer : List ℕ} {c : FdCall} {calls rest : List FdCall} {N k : ℕ}

/-! ### How many counters are open -/

/-- With `k` counters open, the calls never have more than `N` open. -/
def AtMost (N k : ℕ) : List FdCall → Prop
  | [] => k ≤ N
  | .perfOpen :: rest => AtMost N (k + 1) rest
  | .destroy :: rest => k ≤ N ∧ AtMost N 0 rest
  | _ :: rest => AtMost N k rest

theorem AtMost.le (h : AtMost N k calls) : k ≤ N := by
  induction calls generalizing k with
  | nil => exact h
  | cons c calls ih =>
    cases c with
    | perfOpen => exact (Nat.le_succ k).trans (ih h)
    | destroy => exact h.1
    | output | pipe2 | fork | closeRead | write | closeWrite | waitpid => exact ih h

theorem AtMost.replicate {n : ℕ} (hrest : AtMost N (k + n) rest) :
    AtMost N k (List.replicate n .perfOpen ++ rest) := by
  induction n generalizing k with
  | zero => exact hrest
  | succ n ih =>
    rw [List.replicate_succ, List.cons_append]
    exact ih (by rwa [Nat.add_right_comm, Nat.add_assoc])

/-- Calls that begin and end without open counters, with at most `N` in between. -/
def Confined (N : ℕ) (calls : List FdCall) : Prop :=
  ∀ rest, AtMost N 0 rest → AtMost N 0 (calls ++ rest)

theorem Confined.nil : Confined N [] := fun _ h => h

theorem Confined.append {more : List FdCall} (h : Confined N calls) (hmore : Confined N more) :
    Confined N (calls ++ more) := by
  intro rest hrest
  rw [List.append_assoc]
  exact h _ (hmore _ hrest)

theorem Confined.flatMap {α : Type*} {as : List α} {f : α → List FdCall}
    (h : ∀ a ∈ as, Confined N (f a)) : Confined N (as.flatMap f) := by
  induction as with
  | nil => exact .nil
  | cons a as ih =>
    rw [List.flatMap_cons]
    exact (h a (by simp)).append (ih fun b hb => h b (by simp [hb]))

theorem confined_measure {before after : List Op} {attrs : List PerfEventAttr}
    (hbefore : before.flatMap Op.fdCalls = []) (hafter : after.flatMap Op.fdCalls = [.waitpid])
    (hattrs : attrs.length ≤ N) :
    Confined N (measureFdCalls (before ++ .processAttach attrs :: after)) := by
  intro rest hrest
  simp only [measureFdCalls, List.flatMap_append, List.flatMap_cons, hbefore, hafter, Op.fdCalls,
    List.nil_append, List.append_assoc, List.cons_append]
  refine AtMost.replicate (n := attrs.length) (k := 0) ⟨?_, hrest⟩
  rwa [Nat.zero_add]

theorem confined_measureOps (opts : BenchmarkOpts) {attrs : List PerfEventAttr}
    (hattrs : attrs.length ≤ N) : Confined N (measureFdCalls (measureOps opts attrs)) := by
  refine confined_measure (fdCalls_hookOps _) ?_ hattrs
  simp [timedOps, finishOps, fdCalls_hookOps, fdCalls_delayOps, Op.fdCalls]

theorem confined_measureBinOps (supported : Bool) (opts : BenchmarkOpts)
    (hattrs : (Topdown.group opts).length ≤ N) :
    Confined N (measureFdCalls (measureBinOps supported opts)) := by
  unfold measureBinOps
  split
  · refine confined_measure (fdCalls_hookOps _) ?_ hattrs
    simp [fdCalls_hookOps, Op.fdCalls]
  · exact fun rest hrest => ⟨Nat.zero_le _, hrest⟩

/-- A group of a detail level has more counters than the top-down group. -/
theorem length_group_le (opts : BenchmarkOpts) :
    (Topdown.group opts).length ≤ (staticAttrs opts).length := by
  have hfive (detail : ℕ) : 5 ≤ (eventGroup detail).length := by
    unfold eventGroup
    split <;> decide
  simpa [Topdown.group, staticAttrs, preparedGroup_eq] using hfive opts.detail

/-- No measurement of `main` has more counters than a run has. -/
theorem main_atMost (supported : Bool) (cli : CliOpts) :
    AtMost (runAttrs cli).length 0 (mainFdCalls supported cli) := by
  have hconfined : Confined (runAttrs cli).length (mainFdCalls supported cli) := by
    unfold mainFdCalls
    refine .append ?_ ?_
    · split <;> exact fun rest hrest => hrest
    · cases hcsv : cli.benchOpts.eventCsv with
      | some csv =>
        simp only [runAttrs, hcsv]
        exact .flatMap fun _ _ => .flatMap fun _ _ => confined_measureOps _ le_rfl
      | none =>
        simp only [runAttrs, hcsv]
        have htopdown := length_group_le cli.benchOpts
        have hpos : 1 ≤ (staticAttrs cli.benchOpts).length :=
          htopdown.trans' (by simp [Topdown.group])
        refine .append (.flatMap fun _ _ => .flatMap fun _ _ => confined_measureOps _ le_rfl) ?_
        split
        · exact .append (fun rest hrest => ⟨hpos, hrest⟩)
            (.flatMap fun _ _ => confined_measureBinOps _ _ htopdown)
        · exact .nil
  simpa using hconfined [] (Nat.zero_le _)

/-! ### What is open -/

/-- The ends of the pipe that are held. -/
def Holding.ends (h : Holding) (pipe : ℕ × ℕ) : Finset ℕ :=
  (if h.readEnd then {pipe.1} else ∅) ∪ if h.writeEnd then {pipe.2} else ∅

theorem Holding.ends_subset (h : Holding) (pipe : ℕ × ℕ) : h.ends pipe ⊆ {pipe.1, pipe.2} := by
  refine Finset.union_subset ?_ ?_
  · split <;> simp
  · split <;> simp

theorem Holding.ends_readEnd (h : Holding) {pipe : ℕ × ℕ} (hr : h.readEnd = true)
    (hne : h.writeEnd = true → pipe.2 ≠ pipe.1) :
    h.ends pipe \ {pipe.1} = Holding.ends { h with readEnd := false } pipe := by
  cases hw : h.writeEnd with
  | false => simp [ends, hr, hw]
  | true =>
    have hne := hne hw
    ext fd
    simp only [ends, hr, hw, if_true, Finset.mem_sdiff, Finset.mem_union, Finset.mem_singleton,
      Bool.false_eq_true, if_false, Finset.notMem_empty, false_or]
    grind

/-- Everything open is held, the calls left to make close it again, and never more than
`N` counters are open. -/
structure Balanced (fds : Finset ℕ) (N : ℕ) (s : FdState) : Prop where
  held : ∃ h : Holding, Holds fds h s ∧ s.table.cloexec = h.ends s.pipe ∧
    ∃ begun, h.run s.prog = some { begun := begun }
  atMost : ∃ k, s.counters.card ≤ k ∧ AtMost N k s.prog

/-- What is left by an exception. -/
structure Cleared (s : FdState) : Prop where
  prog : s.prog = []
  counters : s.counters = ∅
  cloexec : s.table.cloexec = ∅

namespace Holds

/-- A call opens and closes the ends of the pipe as it says, or an exception leaves the
program, with both of them closed. -/
theorem cloexec (hs : Holds fds h s) (hheld : s.table.cloexec = h.ends s.pipe)
    (hafter : h.after c = some h') (ht : fdCall answer s c = some t) :
    (t.prog = s.prog.tail ∧ t.table.cloexec = h'.ends t.pipe) ∨ Cleared t := by
  cases c with
  | output =>
    simp only [Holding.after] at hafter
    split at hafter <;> cases hafter
    simp only [fdCall] at ht
    split at ht
    · cases ht
      exact .inl ⟨rfl, hheld⟩
    · obtain ⟨T, hT, rfl⟩ := Option.map_eq_some_iff.mp ht
      exact .inl ⟨rfl, (Table.add_kept hT).2.1.trans hheld⟩
    · cases ht
  | pipe2 =>
    simp only [Holding.after] at hafter
    split at hafter <;> cases hafter
    rename_i hnone
    simp only [Bool.or_eq_true, not_or, Bool.not_eq_true] at hnone
    obtain ⟨⟨hr, hw⟩, hc⟩ := hnone
    have hempty : s.table.cloexec = ∅ := by rw [hheld]; simp [Holding.ends, hr, hw]
    simp only [fdCall] at ht
    split at ht
    · cases ht
      exact .inr ⟨rfl, hs.counters hc, hempty⟩
    · rename_i r w
      obtain ⟨T, hT, ht⟩ := Option.bind_eq_some_iff.mp ht
      obtain ⟨T', hT', rfl⟩ := Option.map_eq_some_iff.mp ht
      refine .inl ⟨rfl, ?_⟩
      change T'.cloexec = _
      rw [(Table.add_cloexec hT').2.1, (Table.add_cloexec hT).2.1, hempty]
      ext fd
      simp [Holding.ends, or_comm]
    · cases ht
  | fork =>
    simp only [Holding.after] at hafter
    split at hafter <;> cases hafter
    rename_i hall
    simp only [Bool.and_eq_true, Bool.not_eq_true'] at hall
    obtain ⟨⟨hr, hw⟩, hc⟩ := hall
    simp only [fdCall] at ht
    split at ht <;> cases ht
    · refine .inr ⟨rfl, hs.counters hc, ?_⟩
      change (s.table.cloexec \ {s.pipe.1}) \ {s.pipe.2} = ∅
      rw [hheld]
      ext fd
      simp only [Holding.ends, hr, hw, if_true, Finset.mem_sdiff, Finset.mem_union,
        Finset.mem_singleton]
      grind
    · exact .inl ⟨rfl, hheld⟩
  | closeRead =>
    simp only [Holding.after] at hafter
    split at hafter <;> cases hafter
    rename_i hr
    cases ht
    refine .inl ⟨rfl, ?_⟩
    change s.table.cloexec \ {s.pipe.1} = Holding.ends { h with readEnd := false } s.pipe
    rw [hheld]
    exact h.ends_readEnd hr (hs.ends hr)
  | perfOpen =>
    simp only [Holding.after] at hafter
    split at hafter <;> cases hafter
    simp only [fdCall] at ht
    split at ht
    · cases ht
      exact .inl ⟨rfl, hheld⟩
    · obtain ⟨T, hT, rfl⟩ := Option.map_eq_some_iff.mp ht
      exact .inl ⟨rfl, (Table.add_kept hT).2.1.trans hheld⟩
    · cases ht
  | write =>
    cases hafter
    cases ht
    exact .inl ⟨rfl, hheld⟩
  | closeWrite =>
    simp only [Holding.after] at hafter
    split at hafter <;> cases hafter
    rename_i hw
    cases ht
    refine .inl ⟨rfl, ?_⟩
    change s.table.cloexec \ {s.pipe.2} = _
    rw [hheld]
    simp only [Bool.and_eq_true, Bool.not_eq_true'] at hw
    simp [Holding.ends, hw.1, hw.2]
  | waitpid =>
    cases hafter
    simp only [fdCall] at ht
    split at ht <;> cases ht <;> exact .inl ⟨rfl, hheld⟩
  | destroy =>
    simp only [Holding.after] at hafter
    split at hafter <;> cases hafter
    rename_i hnone
    simp only [Bool.or_eq_true, not_or, Bool.not_eq_true] at hnone
    cases ht
    refine .inl ⟨rfl, ?_⟩
    change s.table.cloexec \ s.counters = _
    rw [hheld]
    simp [Holding.ends, hnone.1, hnone.2]

/-- A call after which the read end is held cannot have been the last one, so it has not
raised when the program goes on as planned. -/
theorem returns (hs : Holds fds h s) (hafter : h.after c = some h')
    (ht : fdCall answer s c = some t) (hreturns : h'.readEnd = true → t.prog ≠ []) :
    Holds fds h' t := by
  have hraise (hc : c = .pipe2 ∨ c = .fork) (hnil : t.prog = []) : False := by
    refine hreturns ?_ hnil
    obtain rfl | rfl := hc
    · simp only [Holding.after] at hafter
      split at hafter <;> cases hafter
      rfl
    · simp only [Holding.after] at hafter
      split at hafter <;> cases hafter
      rename_i hheld
      simp only [Bool.and_eq_true] at hheld
      exact hheld.1.1
  cases c with
  | output => exact (hs.output hafter ht).1
  | pipe2 => exact ((hs.pipe2 hafter ht).resolve_right fun h => hraise (.inl rfl) h.2).1
  | fork =>
    obtain hkeeps | ⟨h'', -, hnil⟩ := hs.fork hafter ht
    · exact hkeeps.1
    · exact (hraise (.inr rfl) hnil).elim
  | closeRead => exact (hs.closeRead hafter ht).1
  | perfOpen => exact (hs.perfOpen hafter ht).1
  | closeWrite => exact (hs.closeWrite hafter ht).1
  | destroy => exact (hs.destroy hafter ht).1
  | write =>
    cases hafter
    cases ht
    exact { hs with }
  | waitpid =>
    cases hafter
    simp only [fdCall] at ht
    split at ht <;> cases ht <;> exact { hs with }

theorem cleared (hs : Holds fds h s) (hclear : Cleared s) : Holds fds { begun := true } s :=
  { hs with
    counters := fun _ => hclear.counters
    readEnd := nofun
    writeEnd := nofun
    ends := nofun
    begun := nofun }

end Holds

theorem fdCall_counters (ht : fdCall answer s c = some t) (hk : s.counters.card ≤ k)
    (hmost : AtMost N k (c :: rest)) : ∃ k', t.counters.card ≤ k' ∧ AtMost N k' rest := by
  cases c with
  | perfOpen =>
    simp only [fdCall] at ht
    split at ht
    · cases ht
      exact ⟨k + 1, hk.trans (Nat.le_succ k), hmost⟩
    · obtain ⟨T, -, rfl⟩ := Option.map_eq_some_iff.mp ht
      exact ⟨k + 1, (Finset.card_insert_le _ _).trans (Nat.succ_le_succ hk), hmost⟩
    · cases ht
  | destroy =>
    cases ht
    exact ⟨0, Nat.le_refl _, hmost.2⟩
  | output =>
    simp only [fdCall] at ht
    split at ht
    · cases ht
      exact ⟨k, hk, hmost⟩
    · obtain ⟨T, -, rfl⟩ := Option.map_eq_some_iff.mp ht
      exact ⟨k, hk, hmost⟩
    · cases ht
  | pipe2 =>
    simp only [fdCall] at ht
    split at ht
    · cases ht
      exact ⟨k, hk, hmost⟩
    · obtain ⟨T, -, ht⟩ := Option.bind_eq_some_iff.mp ht
      obtain ⟨T', -, rfl⟩ := Option.map_eq_some_iff.mp ht
      exact ⟨k, hk, hmost⟩
    · cases ht
  | fork | waitpid =>
    simp only [fdCall] at ht
    split at ht <;> cases ht <;> exact ⟨k, hk, hmost⟩
  | closeRead | write | closeWrite =>
    cases ht
    exact ⟨k, hk, hmost⟩

theorem fdStub_child {ok : Bool} (ht : fdStub ok s = some t) : t = { s with child := t.child } := by
  unfold fdStub at ht
  split at ht
  case h_2 =>
    split at ht <;> cases ht
    rfl
  case h_6 => cases ht
  all_goals
    cases ht
    rfl

namespace Balanced

theorem call (hs : Balanced fds N s) (hprog : s.prog = c :: rest)
    (ht : fdCall answer s c = some t) : Balanced fds N t := by
  obtain ⟨⟨h, hholds, hheld, begun, hrun⟩, k, hk, hmost⟩ := hs
  rw [hprog] at hmost
  rw [hprog, Holding.run, Option.bind_eq_some_iff] at hrun
  obtain ⟨h', hafter, hrest⟩ := hrun
  obtain ⟨htail, hcloexec⟩ | hclear := hholds.cloexec hheld hafter ht
  · rw [hprog, List.tail_cons] at htail
    have hreturns (hr : h'.readEnd = true) : t.prog ≠ [] := by
      intro hnil
      rw [← htail, hnil] at hrest
      cases hrest
      cases hr
    obtain ⟨k', hk', hmost'⟩ := fdCall_counters ht hk hmost
    exact ⟨⟨h', hholds.returns hafter ht hreturns, hcloexec, begun, htail ▸ hrest⟩, k', hk',
      htail ▸ hmost'⟩
  · obtain ⟨h'', hheld''⟩ : ∃ h'', Holds fds h'' t := by
      obtain hkeeps | ⟨h'', hkeeps, -⟩ := hholds.call hafter ht
      · exact ⟨h', hkeeps.1⟩
      · exact ⟨h'', hkeeps⟩
    refine ⟨⟨_, hheld''.cleared hclear, ?_, true, ?_⟩, 0, ?_, ?_⟩
    · rw [hclear.cloexec]
      rfl
    · rw [hclear.prog]
      rfl
    · rw [hclear.counters]
      rfl
    · rw [hclear.prog]
      exact Nat.zero_le _

theorem step (hs : Balanced fds N s) (ht : fdStep s l = some t) : Balanced fds N t := by
  cases l with
  | call answer =>
    simp only [fdStep, Option.bind_eq_some_iff] at ht
    obtain ⟨c, hc, ht⟩ := ht
    obtain ⟨cs, hprog⟩ := List.head?_eq_some_iff.mp hc
    exact hs.call hprog ht
  | stub ok =>
    obtain ⟨⟨h, hholds, hheld, hrun⟩, hmost⟩ := hs
    have hchild := fdStub_child ht
    have hstub := (hholds.stub ht).1
    rw [hchild] at hstub ⊢
    exact ⟨⟨h, hstub, hheld, hrun⟩, hmost⟩
  | exit =>
    obtain ⟨⟨h, hholds, hheld, hrun⟩, hmost⟩ := hs
    simp only [fdStep] at ht
    split at ht <;> cases ht
    · exact ⟨⟨h, hholds.setChild (by simp [*]) (by simp), hheld, hrun⟩, hmost⟩
    · exact ⟨⟨h, hholds.setChild (by simp [*]) (by simp), hheld, hrun⟩, hmost⟩

/-- What is open, by what it is for. -/
theorem fds_eq (hs : Balanced fds N s) :
    ∃ ends ⊆ {s.pipe.1, s.pipe.2}, s.table.fds = visible fds s.output ∪ s.counters ∪ ends := by
  obtain ⟨⟨h, hholds, hheld, -⟩, -⟩ := hs
  refine ⟨h.ends s.pipe, h.ends_subset s.pipe, ?_⟩
  rw [Table.fds, hholds.kept, hheld]

theorem card_counters (hs : Balanced fds N s) : s.counters.card ≤ N := by
  obtain ⟨-, k, hk, hmost⟩ := hs
  exact hk.trans hmost.le

theorem fds_nil (hs : Balanced fds N s) (hprog : s.prog = []) :
    s.table.fds = visible fds s.output := by
  obtain ⟨⟨h, hholds, hheld, begun, hrun⟩, -⟩ := hs
  rw [hprog] at hrun
  cases hrun
  rw [Table.fds, hholds.kept, hholds.counters rfl, hheld]
  simp [Holding.ends]

end Balanced

/-- The descriptors of `main`. In every state of every execution `bbench` has open what it was
started with, its output file, some counters and some ends of a pipe; the counters are no
more than those of one run, however many paths and runs there are. When `main` ends, by an
exception or not, the first two are all that is open. -/
theorem main_balanced (h : Reachable fdStep (fdInitial fds (mainFdCalls supported cli)) s) :
    (∃ ends ⊆ {s.pipe.1, s.pipe.2}, s.table.fds = visible fds s.output ∪ s.counters ∪ ends) ∧
      s.counters.card ≤ (runAttrs cli).length ∧
      (s.prog = [] → s.table.fds = visible fds s.output) := by
  have hinitial :
      Balanced fds (runAttrs cli).length (fdInitial fds (mainFdCalls supported cli)) :=
    ⟨⟨{}, holds_initial fds _, rfl, main_settles supported cli⟩, 0, Nat.le_refl _,
      main_atMost supported cli⟩
  have hs := h.invariant (fun _ _ _ hs h => hs.step h) hinitial
  exact ⟨hs.fds_eq, hs.card_counters, hs.fds_nil⟩

/-- `bbench -e cycles -o out ./a`, up to its end. -/
theorem main_balanced_output : ∃ s,
    Reachable fdStep (fdInitial {0, 1, 2} (mainFdCalls false outputRun)) s ∧
      s.prog = [] ∧ s.table.fds = {0, 1, 2, 3} := by
  have hrun : (run fdStep (fdInitial {0, 1, 2} (mainFdCalls false outputRun))
      [.call [3], .call [4, 5], .call [100], .call [], .call [4], .call [], .call [], .exit,
        .call [], .call []]).map (fun s => (s.prog, s.output)) = some ([], some 3) := by
    decide +kernel
  obtain ⟨s, hs, heq⟩ := Option.map_eq_some_iff.mp hrun
  simp only [Prod.mk.injEq] at heq
  refine ⟨s, ⟨_, hs⟩, heq.1, (main_balanced ⟨_, hs⟩).2.2 heq.1 |>.trans ?_⟩
  rw [heq.2]
  decide

end Bbench.Process
