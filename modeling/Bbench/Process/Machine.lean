import Bbench.Lib.Transition
import Bbench.Perf.Attr
import Mathlib.Algebra.Group.Nat.Defs
import Mathlib.Logic.Function.Basic

/-! `bbench` and the program it measures, as two processes that share a pipe, the
perf counters and a clock. The parent's program is the list of calls it still
has to make; a call that takes several system calls (`process_attach`,
`__wait_with_timeout`, the loops over a group) keeps its place in `ctrl`. A step
is one system call of the parent or of the forked child, one unit of work of the
measured program, its exit, or the passing of time. Everything the kernel or the
schedule decides is in the label of the step. -/

namespace Bbench.Process

open Perf

variable {U : Type*}

/-! ### Time -/

/-- `CLOCK_MONOTONIC`, which the kernel keeps as a signed 64-bit number of nanoseconds. -/
structure Clock where
  ns : ℕ
  lt : ns < 2 ^ 63
  deriving DecidableEq, Repr

/-- `__now_ms`, in 64-bit arithmetic on the seconds and nanoseconds of the clock. -/
def Clock.nowMs (c : Clock) : ℕ := (c.ns / 10 ^ 9 * 1000 + c.ns % 10 ^ 9 / 1000000) % 2 ^ 64

/-- The request `__sleep_ms` passes to `nanosleep`, in nanoseconds. -/
def sleepNs (ms : ℕ) : ℕ := ms / 1000 * 10 ^ 9 + ms % 1000 * 1000000

theorem Clock.nowMs_eq (c : Clock) : c.nowMs = c.ns / 10 ^ 6 := by
  have := c.lt
  unfold nowMs
  omega

theorem sleepNs_eq (ms : ℕ) : sleepNs ms = ms * 10 ^ 6 := by
  unfold sleepNs
  omega

/-! ### The two processes -/

inductive Signal
  | terminate | kill9
  deriving DecidableEq, Repr

/-- A call of the parent. -/
inductive Op
  /-- `process<true>`, for `--pre` and `--post`. -/
  | runToEnd
  /-- `process_attach`; its `attach_fn` opens a counter with each of these attributes. -/
  | processAttach (attrs : List PerfEventAttr)
  /-- `process<false>`. -/
  | spawn
  /-- `gr.reopen(pid)`. -/
  | reopen (attrs : List PerfEventAttr)
  /-- `gr.begin()` over `n` counters. -/
  | start (n : ℕ)
  /-- `gr.end()`. -/
  | stop (n : ℕ)
  | sleepMs (ms : ℕ)
  | clockBegin
  | clockEnd
  /-- `waitpid(pid, nullptr, 0)`. -/
  | waitpid
  | waitWithTimeout (timeoutMs : UInt32)
  deriving DecidableEq, Repr

/-- The place inside the call at the head of the program. -/
inductive Ctrl
  | idle
  -- process_attach, after `pipe2` and, from `closeRead` on, after `fork`
  | forking | closeRead | attach (i : ℕ) | write | closeWrite
  -- the loops of `begin` and `end`
  | reset (i : ℕ) | enable (i : ℕ) | disable (i : ℕ)
  -- `nanosleep` in `__sleep_ms`
  | sleeping (wake : ℕ)
  -- __wait_with_timeout: without a limit
  | blocked
  -- its loop until the deadline
  | poll (deadline : ℕ) | check (deadline : ℕ) | nap (deadline wake : ℕ) | term
  -- the grace period
  | hard | graceCheck (hard : ℕ) | gracePoll (hard : ℕ) | graceNap (hard wake : ℕ)
  -- the end of it
  | kill9 | final
  deriving DecidableEq, Repr

/-- A call of the forked child. -/
inductive Stub
  | closeWrite | read | closeRead | execve | exit127
  deriving DecidableEq, Repr

/-- The child's branch of `process_attach`. -/
def attachChild : List Stub := [.closeWrite, .read, .closeRead, .execve, .exit127]

inductive Child
  | none
  | stub (todo : List Stub)
  | program
  | zombie
  | reaped
  deriving DecidableEq, Repr

/-- The sync pipe: the bytes in it, and which process holds which end. -/
structure Pipe where
  bytes : ℕ := 0
  parentRead : Bool := false
  parentWrite : Bool := false
  childRead : Bool := false
  childWrite : Bool := false
  deriving DecidableEq, Repr

/-- A perf counter on the child; `counted` is what it has counted, oldest first. -/
structure Counter (U : Type*) where
  opened : Bool := false
  onExec : Bool := false
  enabled : Bool := false
  counted : List U := []
  deriving DecidableEq, Repr

/-- The time measurement: before `cl.begin`, up to `cl.end`, and after it. -/
inductive Window
  | before | running | ended
  deriving DecidableEq, Repr

/-- What the wait for a child has done, kept for the statements about it. -/
inductive Entry
  | now (ms : ℕ)
  | kill (sig : Signal)
  | reap
  deriving DecidableEq, Repr

structure State (U : Type*) where
  prog : List Op
  ctrl : Ctrl := .idle
  raised : Bool := false
  child : Child := .none
  pipe : Pipe := {}
  counters : ℕ → Counter U := fun _ => {}
  clock : Clock
  window : Window := .before
  /-- Calls of `perf_event_open` made so far. -/
  opens : ℕ := 0
  /-- Units of work of the measured program, and those inside the time measurement. -/
  executed : List U := []
  timed : List U := []
  /-- The wait for the present child, newest entry first. -/
  log : List Entry := []

/-- A parent with calls to make and no child. -/
def initial {U : Type*} (prog : List Op) (clock : Clock) : State U := { prog, clock }

/-- What a step leaves open. -/
inductive Label (U : Type*)
  /-- The parent's next call, with the outcome the kernel gives it. For a sleep,
  `false` is an early return. -/
  | parent (ok : Bool)
  /-- The forked child's next call; for `execve`, whether it succeeds. -/
  | stub (ok : Bool)
  | work (u : U)
  | exit
  | tick (ns : ℕ)
  deriving DecidableEq, Repr

namespace State

/-- The call at the head has returned. -/
def ret (s : State U) : State U := { s with prog := s.prog.tail, ctrl := .idle }

def goto (s : State U) (c : Ctrl) : State U := { s with ctrl := c }

/-- The head of a loop over `n` members, before member `i`. -/
def loop (s : State U) (n i : ℕ) (body : Ctrl) : State U := if i < n then s.goto body else s.ret

/-- An exception leaves the program. -/
def raise (s : State U) : State U := { s with prog := [], ctrl := .idle, raised := true }

def note (s : State U) (e : Entry) : State U := { s with log := e :: s.log }

def setCounter (s : State U) (k : ℕ) (c : Counter U) : State U :=
  { s with counters := Function.update s.counters k c }

def reap (s : State U) : State U := { s.note .reap with child := .reaped }

/-- `perf_event_open` for counter `i`, which fails or gives a fresh counter. -/
def perfEventOpen (s : State U) (ok : Bool) (i : ℕ) (attr : PerfEventAttr) : State U :=
  { s.setCounter i { opened := ok, onExec := attr.enableOnExec } with opens := s.opens + 1 }

end State

/-! ### Steps of the parent -/

/-- Where the loop over the members stands before member `i`. -/
def atMember (n i : ℕ) (next done : Ctrl) : Ctrl := if i < n then next else done

def attachStep (ok : Bool) (attrs : List PerfEventAttr) (s : State U) : Option (State U) :=
  match s.ctrl with
  | .idle =>
    if ok then some { s.goto .forking with
      pipe := { parentRead := true, parentWrite := true } }
    else some s.raise
  | .forking =>
    if ok then some { s.goto .closeRead with
      child := .stub attachChild
      pipe := { s.pipe with childRead := true, childWrite := true }
      log := [] }
    else some { s.raise with pipe := { s.pipe with parentRead := false, parentWrite := false } }
  | .closeRead =>
    some { s.goto (atMember attrs.length 0 (.attach 0) .write) with
      pipe := { s.pipe with parentRead := false } }
  | .attach i =>
    match attrs[i]? with
    | some attr => some ((s.perfEventOpen ok i attr).goto
        (atMember attrs.length (i + 1) (.attach (i + 1)) .write))
    | none => none
  | .write => some { s.goto .closeWrite with pipe := { s.pipe with bytes := s.pipe.bytes + 1 } }
  | .closeWrite => some { s.ret with pipe := { s.pipe with parentWrite := false } }
  | _ => none

def reopenStep (ok : Bool) (attrs : List PerfEventAttr) (s : State U) : Option (State U) :=
  match s.ctrl with
  | .idle => some (s.loop attrs.length 0 (.attach 0))
  | .attach i =>
    match attrs[i]? with
    | some attr =>
      some ((s.perfEventOpen ok i attr).loop attrs.length (i + 1) (.attach (i + 1)))
    | none => none
  | _ => none

/-- `IOC_RESET` and `IOC_ENABLE` on each member; on a counter that did not open
they have no effect. -/
def startStep (n : ℕ) (s : State U) : Option (State U) :=
  match s.ctrl with
  | .idle => some (s.loop n 0 (.reset 0))
  | .reset i =>
    some ((s.setCounter i { s.counters i with counted := [] }).goto (.enable i))
  | .enable i =>
    some ((s.setCounter i { s.counters i with enabled := (s.counters i).opened }).loop n (i + 1)
      (.reset (i + 1)))
  | _ => none

def stopStep (n : ℕ) (s : State U) : Option (State U) :=
  match s.ctrl with
  | .idle => some (s.loop n 0 (.disable 0))
  | .disable i =>
    some ((s.setCounter i { s.counters i with enabled := false }).loop n (i + 1)
      (.disable (i + 1)))
  | _ => none

def sleepStep (ok : Bool) (ms : ℕ) (s : State U) : Option (State U) :=
  match s.ctrl with
  | .idle => some (if ms = 0 then s.ret else s.goto (.sleeping (s.clock.ns + sleepNs ms)))
  | .sleeping wake => if ok = false ∨ wake ≤ s.clock.ns then some s.ret else none
  | _ => none

/-- A blocking `waitpid` returns by reaping, or at once when there is no child. -/
def waitpidStep (s : State U) : Option (State U) :=
  match s.child with
  | .zombie => some s.reap.ret
  | .none | .reaped => some s.ret
  | _ => none

/-- `__wait_with_timeout`. The deadlines are computed in 64 bits. -/
def waitStep (ok : Bool) (timeoutMs : UInt32) (s : State U) : Option (State U) :=
  let now := s.clock.nowMs
  match s.ctrl with
  | .idle =>
    if timeoutMs = 0 then some (s.goto .blocked)
    else some ((s.note (.now now)).goto (.poll ((now + timeoutMs.toNat) % 2 ^ 64)))
  | .blocked | .final => waitpidStep s
  | .poll deadline =>
    some (if s.child = .zombie then s.reap.ret else s.goto (.check deadline))
  | .check deadline =>
    let t := s.note (.now now)
    some (if deadline ≤ now then t.goto .term
      else t.goto (.nap deadline (s.clock.ns + sleepNs 1)))
  | .nap deadline wake =>
    if ok = false ∨ wake ≤ s.clock.ns then some (s.goto (.poll deadline)) else none
  | .term => some ((s.note (.kill .terminate)).goto .hard)
  | .hard => some ((s.note (.now now)).goto (.graceCheck ((now + 50) % 2 ^ 64)))
  | .graceCheck hard =>
    some ((s.note (.now now)).goto (if now < hard then .gracePoll hard else .kill9))
  | .gracePoll hard =>
    some (if s.child = .zombie then s.reap.ret
      else s.goto (.graceNap hard (s.clock.ns + sleepNs 2)))
  | .graceNap hard wake =>
    if ok = false ∨ wake ≤ s.clock.ns then some (s.goto (.graceCheck hard)) else none
  | .kill9 => some ((s.note (.kill .kill9)).goto .final)
  | _ => none

/-- The next call of the parent, in which `clock_gettime` succeeds. -/
def parentStep (ok : Bool) (s : State U) : Option (State U) :=
  match s.prog with
  | [] => none
  | .runToEnd :: _ => some (if ok then s.ret else s.raise)
  | .processAttach attrs :: _ => attachStep ok attrs s
  | .spawn :: _ =>
    some (if ok then { s.ret with child := .program, log := [] } else s.raise)
  | .reopen attrs :: _ => reopenStep ok attrs s
  | .start n :: _ => startStep n s
  | .stop n :: _ => stopStep n s
  | .sleepMs ms :: _ => sleepStep ok ms s
  | .clockBegin :: _ => some { s.ret with window := .running }
  | .clockEnd :: _ => some { s.ret with window := .ended }
  | .waitpid :: _ => waitpidStep s
  | .waitWithTimeout timeoutMs :: _ => waitStep ok timeoutMs s

/-! ### Steps of the child -/

/-- A successful `execve` closes the pipe (both ends are close-on-exec) and
enables the counters that wait for it. -/
def execve (s : State U) : State U :=
  { s with
    child := .program
    pipe := { s.pipe with childRead := false, childWrite := false }
    counters := fun k => { s.counters k with
      enabled := (s.counters k).enabled || ((s.counters k).opened && (s.counters k).onExec) } }

/-- `read` returns when a byte is in the pipe, or when no process holds a write end. -/
def stubStep (ok : Bool) (s : State U) : Option (State U) :=
  match s.child with
  | .stub (.closeWrite :: todo) =>
    some { s with child := .stub todo, pipe := { s.pipe with childWrite := false } }
  | .stub (.read :: todo) =>
    if 0 < s.pipe.bytes ∨ s.pipe.parentWrite = false ∧ s.pipe.childWrite = false then
      some { s with child := .stub todo, pipe := { s.pipe with bytes := s.pipe.bytes - 1 } }
    else none
  | .stub (.closeRead :: todo) =>
    some { s with child := .stub todo, pipe := { s.pipe with childRead := false } }
  | .stub (.execve :: todo) => some (if ok then execve s else { s with child := .stub todo })
  | .stub (.exit127 :: _) => some { s with child := .zombie }
  | _ => none

/-- One unit of work: every enabled counter that sees it counts it. -/
def work (sees : ℕ → U → Bool) (u : U) (s : State U) : State U :=
  { s with
    executed := s.executed ++ [u]
    timed := if s.window = .running then s.timed ++ [u] else s.timed
    counters := fun k =>
      if (s.counters k).enabled && sees k u then
        { s.counters k with counted := (s.counters k).counted ++ [u] }
      else s.counters k }

/-- A program may end at any time; a child that is still a copy of the parent
ends early only when it was signalled. -/
def MayExit (s : State U) : Prop :=
  match s.child with
  | .program => True
  | .stub _ => ∃ e ∈ s.log, e = .kill .terminate ∨ e = .kill .kill9
  | _ => False

instance (s : State U) : Decidable (MayExit s) := by
  unfold MayExit
  split <;> infer_instance

/-- The work that counter `k` counts while it is enabled: the events of its kind that the
child's first task generates, or any task of the child if the request says `inherit`. -/
def countsWork (first : U → Bool) (kind : ℕ → U → Bool) (attrs : List PerfEventAttr) (k : ℕ)
    (u : U) : Bool := kind k u && (first u || attrs[k]?.any PerfEventAttr.inherit)

/-- One step; `sees k u` says that counter `k` counts unit `u` while it is enabled, which is
a matter of the unit and of the request that the counter was opened with. -/
def step (sees : ℕ → U → Bool) (s : State U) : Label U → Option (State U)
  | .parent ok => parentStep ok s
  | .stub ok => stubStep ok s
  | .work u => if s.child = .program then some (work sees u s) else none
  | .exit => if MayExit s then some { s with child := .zombie } else none
  | .tick ns =>
    if h : s.clock.ns + ns < 2 ^ 63 then some { s with clock := ⟨s.clock.ns + ns, h⟩ } else none

end Bbench.Process
