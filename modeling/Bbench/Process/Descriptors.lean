import Bbench.Lib.Descriptors
import Bbench.Process.Main
import Mathlib.Data.Finset.Lattice.Lemmas

/-! The descriptor tables of `bbench` and of the child it forks, call by call, and what
a program in order holds open between two calls. Up to the output file, a child has
nothing that outlives its `execve` but what `bbench` was started with. -/

namespace Bbench.Process

open Perf Transition Descriptors Cli

/-! ### The two tables -/

/-- A call of `bbench` with an effect on descriptors, or one the child waits for. -/
inductive FdCall
  /-- `sink::file_sink`. -/
  | output
  | pipe2 | fork | closeRead
  /-- `perf_event_open`; the counter keeps the descriptor. -/
  | perfOpen
  | write | closeWrite | waitpid
  /-- The destructors of the counters. -/
  | destroy
  deriving DecidableEq, Repr

/-- The calls behind a call of `main`'s programs. -/
def Op.fdCalls : Op → List FdCall
  | .processAttach attrs =>
    [.pipe2, .fork, .closeRead] ++ List.replicate attrs.length .perfOpen ++ [.write, .closeWrite]
  | .waitpid | .waitWithTimeout _ => [.waitpid]
  | _ => []

/-- A measuring function, with the counters it has as local variables. -/
def measureFdCalls (ops : List Op) : List FdCall := ops.flatMap Op.fdCalls ++ [.destroy]

/-- `main`, from the opening of its output on. Before its first measurement, `measure_bin`
probes for the counters with one of its own. -/
def mainFdCalls (supported : Bool) (cli : CliOpts) : List FdCall :=
  (if cli.outputFile.isSome then [.output] else []) ++
  match cli.benchOpts.eventCsv with
  | some csv =>
    cli.paths.flatMap fun _ => (List.range cli.nRuns).flatMap fun _ =>
      measureFdCalls (benchmarkBinDynamicOps (parseEventList csv []).2 cli.benchOpts)
  | none =>
    (cli.paths.flatMap fun _ => (List.range cli.nRuns).flatMap fun _ =>
      measureFdCalls (benchmarkBinOps cli.benchOpts)) ++
    if cli.csvSep = Char.ofNat 0 ∧ cli.topdownOnly = true then
      [.perfOpen, .destroy] ++
        cli.paths.flatMap fun _ => measureFdCalls (measureBinOps supported cli.benchOpts)
    else []

/-- The forked child has copies of the table and of the array `sync_pipe`. -/
inductive FdChild
  | none
  | stub (todo : List Stub) (pipe : ℕ × ℕ) (table : Table)
  | program (table : Table)
  | ended
  deriving DecidableEq

structure FdState where
  prog : List FdCall
  table : Table
  /-- The descriptor of the output file, when it is open. -/
  output : Option ℕ := none
  pipe : ℕ × ℕ := (0, 0)
  counters : Finset ℕ := ∅
  /-- The byte for the child is in the pipe. -/
  go : Bool := false
  child : FdChild := .none
  deriving DecidableEq

inductive FdLabel
  /-- The next call of `bbench`, with the numbers it gets; none when it fails. -/
  | call (answer : List ℕ)
  /-- The next call of the child; for `execve`, whether it succeeds. -/
  | stub (ok : Bool)
  | exit
  deriving DecidableEq, Repr

namespace FdState

/-- The call at the head has returned. -/
def ret (s : FdState) : FdState := { s with prog := s.prog.tail }

/-- An exception leaves the program. -/
def raise (s : FdState) : FdState := { s with prog := [] }

end FdState

def fdCall (answer : List ℕ) (s : FdState) : FdCall → Option FdState
  | .output =>
    match answer with
    | [] => some s.ret
    | [fd] => (s.table.add fd false).map fun T => { s.ret with table := T, output := some fd }
    | _ => none
  | .pipe2 =>
    match answer with
    | [] => some s.raise
    | [r, w] => (s.table.add r true).bind fun T =>
      (T.add w true).map fun T => { s.ret with table := T, pipe := (r, w), go := false }
    | _ => none
  | .fork =>
    match answer with
    | [] => some { s.raise with table := (s.table.close s.pipe.1).close s.pipe.2 }
    | [_] => some { s.ret with child := .stub attachChild s.pipe s.table }
    | _ => none
  | .closeRead => some { s.ret with table := s.table.close s.pipe.1 }
  | .perfOpen =>
    match answer with
    | [] => some s.ret
    | [fd] => (s.table.add fd false).map fun T =>
      { s.ret with table := T, counters := insert fd s.counters }
    | _ => none
  | .write => some { s.ret with go := true }
  | .closeWrite => some { s.ret with table := s.table.close s.pipe.2 }
  | .waitpid =>
    match s.child with
    | .none | .ended => some s.ret
    | _ => none
  | .destroy => some { s.ret with table := s.table.closeAll s.counters, counters := ∅ }

def fdStub (ok : Bool) (s : FdState) : Option FdState :=
  match s.child with
  | .stub (.closeWrite :: todo) pipe T =>
    some { s with child := .stub todo pipe (T.close pipe.2) }
  | .stub (.read :: todo) pipe T =>
    if s.go then some { s with child := .stub todo pipe T } else none
  | .stub (.closeRead :: todo) pipe T =>
    some { s with child := .stub todo pipe (T.close pipe.1) }
  | .stub (.execve :: todo) pipe T =>
    some { s with child := if ok then .program T.exec else .stub todo pipe T }
  | .stub (.exit127 :: _) _ _ => some { s with child := .ended }
  | _ => none

def fdStep (s : FdState) : FdLabel → Option FdState
  | .call answer => s.prog.head?.bind (fdCall answer s)
  | .stub ok => fdStub ok s
  | .exit =>
    match s.child with
    | .stub _ _ _ | .program _ => some { s with child := .ended }
    | _ => none

/-- `bbench` with the descriptors it was started with. -/
def fdInitial (fds : Finset ℕ) (prog : List FdCall) : FdState := { prog, table := .started fds }

/-- The child is about to call `execve` with this table. -/
def AtExecve (s : FdState) (T : Table) : Prop :=
  ∃ todo pipe, s.child = .stub (.execve :: todo) pipe T

/-! ### What is held -/

/-- What a program may hold open between two calls, besides the output file. -/
structure Holding where
  readEnd : Bool := false
  writeEnd : Bool := false
  counters : Bool := false
  /-- The output file has been opened, or a child forked. -/
  begun : Bool := false
  deriving DecidableEq, Repr

/-- The effect of a call, if it is in order: only the ends of the pipe are held at a
`fork`, what is closed is held, and the output file is opened before the first `fork`. -/
def Holding.after (h : Holding) : FdCall → Option Holding
  | .output => if h.begun then none else some { h with begun := true }
  | .pipe2 =>
    if h.readEnd || h.writeEnd || h.counters then none
    else some { h with readEnd := true, writeEnd := true }
  | .fork => if h.readEnd && h.writeEnd && !h.counters then some { h with begun := true } else none
  | .closeRead => if h.readEnd then some { h with readEnd := false } else none
  | .perfOpen => if h.readEnd then none else some { h with counters := true }
  | .write | .waitpid => some h
  | .closeWrite => if h.writeEnd && !h.readEnd then some { h with writeEnd := false } else none
  | .destroy => if h.readEnd || h.writeEnd then none else some { h with counters := false }

def Holding.run : Holding → List FdCall → Option Holding
  | h, [] => some h
  | h, c :: cs => (h.after c).bind fun h' => h'.run cs

/-- The calls are in order, and leave nothing open. -/
def Settles (calls : List FdCall) : Prop :=
  ∀ begun, ∃ begun', Holding.run { begun := begun } calls = some { begun := begun' }

theorem Holding.run_append (h : Holding) (a b : List FdCall) :
    h.run (a ++ b) = (h.run a).bind fun h' => h'.run b := by
  induction a generalizing h with
  | nil => rfl
  | cons c a ih =>
    simp only [List.cons_append, Holding.run, Option.bind_assoc, ih]

theorem Settles.append {a b : List FdCall} (ha : Settles a) (hb : Settles b) :
    Settles (a ++ b) := by
  intro begun
  obtain ⟨begun', ha⟩ := ha begun
  obtain ⟨begun'', hb⟩ := hb begun'
  exact ⟨begun'', by rw [Holding.run_append, ha, Option.bind_some, hb]⟩

theorem Settles.nil : Settles [] := fun begun => ⟨begun, rfl⟩

theorem Settles.flatMap {α : Type*} {as : List α} {f : α → List FdCall}
    (h : ∀ a ∈ as, Settles (f a)) : Settles (as.flatMap f) := by
  induction as with
  | nil => exact .nil
  | cons a as ih =>
    rw [List.flatMap_cons]
    exact (h a (by simp)).append (ih fun b hb => h b (by simp [hb]))

/-- The descriptors a child may see: those `bbench` was started with, and its output file. -/
def visible (fds : Finset ℕ) : Option ℕ → Finset ℕ
  | none => fds
  | some fd => insert fd fds

/-- A state with these things held open. -/
structure Holds (fds : Finset ℕ) (h : Holding) (s : FdState) : Prop where
  kept : s.table.kept = visible fds s.output ∪ s.counters
  disjoint : Disjoint (visible fds s.output) s.counters
  counters : h.counters = false → s.counters = ∅
  readEnd : h.readEnd = true → s.pipe.1 ∈ s.table.cloexec
  writeEnd : h.writeEnd = true → s.pipe.2 ∈ s.table.cloexec
  ends : h.readEnd = true → h.writeEnd = true → s.pipe.2 ≠ s.pipe.1
  begun : h.begun = false → s.child = .none ∧ s.output = none
  fresh : ∀ fd, s.output = some fd → fd ∉ fds
  child : ∀ todo pipe T, s.child = .stub todo pipe T →
    T.kept = visible fds s.output ∧ pipe.1 ∉ T.kept ∧ pipe.2 ∉ T.kept

namespace Holds
variable {fds : Finset ℕ} {h h' : Holding} {s t : FdState} {answer : List ℕ}

theorem output (hs : Holds fds h s) (hh : h.after .output = some h')
    (ht : fdCall answer s .output = some t) : Holds fds h' t ∧ t.prog = s.prog.tail := by
  simp only [Holding.after] at hh
  split at hh
  · cases hh
  rename_i hbegun
  cases hh
  obtain ⟨hchild, hout⟩ := hs.begun (by simpa using hbegun)
  simp only [fdCall] at ht
  split at ht
  · cases ht
    exact ⟨{ hs with begun := nofun }, rfl⟩
  · rename_i fd
    obtain ⟨T, hT, rfl⟩ := Option.map_eq_some_iff.mp ht
    obtain ⟨hkept, hcloexec, hnew⟩ := Table.add_kept hT
    rw [hs.kept, hout, visible, Finset.mem_union, not_or] at hnew
    refine ⟨⟨?_, ?_, hs.counters, ?_, ?_, hs.ends, nofun, ?_, ?_⟩, rfl⟩
    · simp only [FdState.ret, visible]
      rw [hkept, hs.kept, hout, visible, Finset.insert_union]
    · have hdisjoint := hs.disjoint
      rw [hout, visible] at hdisjoint
      exact Finset.disjoint_insert_left.mpr ⟨hnew.2, hdisjoint⟩
    · exact fun hr => hcloexec ▸ hs.readEnd hr
    · exact fun hw => hcloexec ▸ hs.writeEnd hw
    · intro fd' hfd
      cases hfd
      exact hnew.1
    · intro todo pipe T' hstub
      simp [FdState.ret, hchild] at hstub
  · cases ht

theorem pipe2 (hs : Holds fds h s) (hh : h.after .pipe2 = some h')
    (ht : fdCall answer s .pipe2 = some t) :
    (Holds fds h' t ∧ t.prog = s.prog.tail) ∨ (Holds fds h t ∧ t.prog = []) := by
  simp only [Holding.after] at hh
  split at hh
  · cases hh
  cases hh
  simp only [fdCall] at ht
  split at ht
  · cases ht
    exact .inr ⟨{ hs with }, rfl⟩
  · rename_i r w
    obtain ⟨T, hT, ht⟩ := Option.bind_eq_some_iff.mp ht
    obtain ⟨T', hT', rfl⟩ := Option.map_eq_some_iff.mp ht
    obtain ⟨hkept, hcloexec, -⟩ := Table.add_cloexec hT
    obtain ⟨hkept', hcloexec', hnew⟩ := Table.add_cloexec hT'
    have hr : r ∈ T.cloexec := hcloexec ▸ Finset.mem_insert_self _ _
    refine .inl ⟨{ hs with kept := ?_, readEnd := ?_, writeEnd := ?_, ends := ?_ }, rfl⟩
    · exact (hkept'.trans hkept).trans hs.kept
    · exact fun _ => hcloexec' ▸ Finset.mem_insert_of_mem hr
    · exact fun _ => hcloexec' ▸ Finset.mem_insert_self _ _
    · intro _ _ heq
      have heq : w = r := heq
      exact hnew (heq ▸ hr)
  · cases ht

theorem fork (hs : Holds fds h s) (hh : h.after .fork = some h')
    (ht : fdCall answer s .fork = some t) :
    (Holds fds h' t ∧ t.prog = s.prog.tail) ∨ ∃ h'', Holds fds h'' t ∧ t.prog = [] := by
  simp only [Holding.after] at hh
  split at hh
  on_goal 2 => cases hh
  rename_i hheld
  cases hh
  simp only [Bool.and_eq_true, Bool.not_eq_true'] at hheld
  obtain ⟨⟨hr, hw⟩, hcounters⟩ := hheld
  have hread := Table.notMem_kept (hs.readEnd hr)
  have hwrite := Table.notMem_kept (hs.writeEnd hw)
  simp only [fdCall] at ht
  split at ht
  · cases ht
    have hclose : ((s.table.close s.pipe.1).close s.pipe.2).kept = s.table.kept := by
      rw [Table.kept_close (by rwa [Table.kept_close hread]), Table.kept_close hread]
    refine .inr ⟨{ h with readEnd := false, writeEnd := false },
      { hs with kept := hclose.trans hs.kept, readEnd := nofun, writeEnd := nofun, ends := nofun },
      rfl⟩
  · cases ht
    refine .inl ⟨{ hs with begun := nofun, child := ?_ }, rfl⟩
    intro todo pipe T hstub
    cases hstub
    refine ⟨?_, hread, hwrite⟩
    rw [hs.kept, hs.counters hcounters, Finset.union_empty]
    rfl
  · cases ht

theorem closeRead (hs : Holds fds h s) (hh : h.after .closeRead = some h')
    (ht : fdCall answer s .closeRead = some t) : Holds fds h' t ∧ t.prog = s.prog.tail := by
  simp only [Holding.after] at hh
  split at hh
  on_goal 2 => cases hh
  rename_i hr
  cases hh
  cases ht
  have hclose := Table.kept_close (Table.notMem_kept (hs.readEnd hr))
  exact ⟨{ hs with
    kept := hclose.trans hs.kept
    readEnd := nofun
    writeEnd := fun hw => Table.mem_cloexec_close (hs.writeEnd hw) (hs.ends hr hw)
    ends := nofun }, rfl⟩

theorem perfOpen (hs : Holds fds h s) (hh : h.after .perfOpen = some h')
    (ht : fdCall answer s .perfOpen = some t) : Holds fds h' t ∧ t.prog = s.prog.tail := by
  simp only [Holding.after] at hh
  split at hh
  · cases hh
  cases hh
  simp only [fdCall] at ht
  split at ht
  · cases ht
    exact ⟨{ hs with counters := nofun }, rfl⟩
  · rename_i fd
    obtain ⟨T, hT, rfl⟩ := Option.map_eq_some_iff.mp ht
    obtain ⟨hkept, hcloexec, hnew⟩ := Table.add_kept hT
    rw [hs.kept, Finset.mem_union, not_or] at hnew
    refine ⟨{ hs with
      kept := ?_
      disjoint := ?_
      counters := nofun
      readEnd := ?_
      writeEnd := ?_ }, rfl⟩
    · simp only [FdState.ret]
      rw [hkept, hs.kept, Finset.union_insert]
    · exact Finset.disjoint_insert_right.mpr ⟨hnew.1, hs.disjoint⟩
    · exact fun hr => hcloexec ▸ hs.readEnd hr
    · exact fun hw => hcloexec ▸ hs.writeEnd hw
  · cases ht

theorem closeWrite (hs : Holds fds h s) (hh : h.after .closeWrite = some h')
    (ht : fdCall answer s .closeWrite = some t) : Holds fds h' t ∧ t.prog = s.prog.tail := by
  simp only [Holding.after] at hh
  split at hh
  on_goal 2 => cases hh
  rename_i hheld
  cases hh
  cases ht
  simp only [Bool.and_eq_true, Bool.not_eq_true'] at hheld
  have hclose := Table.kept_close (Table.notMem_kept (hs.writeEnd hheld.1))
  exact ⟨{ hs with
    kept := hclose.trans hs.kept
    readEnd := fun hr => absurd hr (by simp [hheld.2])
    writeEnd := nofun
    ends := nofun }, rfl⟩

theorem destroy (hs : Holds fds h s) (hh : h.after .destroy = some h')
    (ht : fdCall answer s .destroy = some t) : Holds fds h' t ∧ t.prog = s.prog.tail := by
  simp only [Holding.after] at hh
  split at hh
  · cases hh
  rename_i hheld
  cases hh
  cases ht
  simp only [Bool.or_eq_true, not_or] at hheld
  have hclose := Table.kept_closeAll hs.kept hs.disjoint
  exact ⟨{ hs with
    kept := hclose.trans (Finset.union_empty _).symm
    disjoint := Finset.disjoint_empty_right _
    counters := fun _ => rfl
    readEnd := fun hr => absurd hr hheld.1
    writeEnd := fun hw => absurd hw hheld.2 }, rfl⟩

/-- A call keeps what is held, or leaves the program by an exception. -/
theorem call (hs : Holds fds h s) {c : FdCall} (hh : h.after c = some h')
    (ht : fdCall answer s c = some t) :
    (Holds fds h' t ∧ t.prog = s.prog.tail) ∨ ∃ h'', Holds fds h'' t ∧ t.prog = [] := by
  cases c with
  | output => exact .inl (hs.output hh ht)
  | pipe2 => exact (hs.pipe2 hh ht).imp_right fun hraise => ⟨_, hraise⟩
  | fork => exact hs.fork hh ht
  | closeRead => exact .inl (hs.closeRead hh ht)
  | perfOpen => exact .inl (hs.perfOpen hh ht)
  | write => cases hh; cases ht; exact .inl ⟨{ hs with }, rfl⟩
  | closeWrite => exact .inl (hs.closeWrite hh ht)
  | waitpid =>
    cases hh
    simp only [fdCall] at ht
    split at ht <;> cases ht
    · exact .inl ⟨{ hs with }, rfl⟩
    · exact .inl ⟨{ hs with }, rfl⟩
  | destroy => exact .inl (hs.destroy hh ht)

theorem setChild (hs : Holds fds h s) (hchild : s.child ≠ .none) {c : FdChild}
    (hc : ∀ todo pipe T, c = .stub todo pipe T →
      T.kept = visible fds s.output ∧ pipe.1 ∉ T.kept ∧ pipe.2 ∉ T.kept) :
    Holds fds h { s with child := c } :=
  { hs with
    begun := fun hb => absurd (hs.begun hb).1 hchild
    child := hc }

/-- The child closes its ends of the pipe, and has nothing else to close. -/
theorem stub {ok : Bool} (hs : Holds fds h s) (ht : fdStub ok s = some t) :
    Holds fds h t ∧ t.prog = s.prog := by
  have hclosed {todo : List Stub} {pipe : ℕ × ℕ} {T : Table} {fd : ℕ}
      (hchild : T.kept = visible fds s.output ∧ pipe.1 ∉ T.kept ∧ pipe.2 ∉ T.kept)
      (hfd : fd ∉ T.kept) : ∀ todo' pipe' T',
        FdChild.stub todo pipe (T.close fd) = .stub todo' pipe' T' →
        T'.kept = visible fds s.output ∧ pipe'.1 ∉ T'.kept ∧ pipe'.2 ∉ T'.kept := by
    intro todo' pipe' T' hstub
    cases hstub
    rwa [Table.kept_close hfd]
  unfold fdStub at ht
  split at ht
  case h_1 todo pipe T hchild =>
    cases ht
    have hheld := hs.child _ _ _ hchild
    exact ⟨hs.setChild (by simp [hchild]) (hclosed hheld hheld.2.2), rfl⟩
  case h_2 todo pipe T hchild =>
    split at ht <;> cases ht
    refine ⟨hs.setChild (by simp [hchild]) fun todo' pipe' T' hstub => ?_, rfl⟩
    cases hstub
    exact hs.child _ _ _ hchild
  case h_3 todo pipe T hchild =>
    cases ht
    have hheld := hs.child _ _ _ hchild
    exact ⟨hs.setChild (by simp [hchild]) (hclosed hheld hheld.2.1), rfl⟩
  case h_4 todo pipe T hchild =>
    cases ht
    refine ⟨hs.setChild (by simp [hchild]) fun todo' pipe' T' hstub => ?_, rfl⟩
    cases ok <;> cases hstub
    exact hs.child _ _ _ hchild
  case h_5 todo pipe T hchild =>
    cases ht
    exact ⟨hs.setChild (by simp [hchild]) nofun, rfl⟩
  case h_6 => cases ht

end Holds

end Bbench.Process
