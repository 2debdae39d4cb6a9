import Bbench.Lib.MachineMean
import Bbench.Lib.Transition
import Bbench.Perf.Events
import Bbench.Perf.Reading

/-! Counters chosen at run time. Each member of a `dynamic_event_group` keeps a
descriptor, the errno of its last open and a flag; the errno comes through the one
`errno` of the process, which every failing call overwrites. What holds of a group
after any calls is that each member agrees with the answer to its own latest open. -/

namespace Bbench.Perf

/-- The kernel's answer to one `perf_event_open`: an errno, or a descriptor for the new
counter `c`. -/
inductive Answer (κ : Type*)
  | refused (errno : ℕ) (pos : 0 < errno) (le : errno ≤ 4095)
  | counter (fd : ℕ) (lt : fd < 2 ^ 31) (c : κ)

/-- The arguments of the system call. -/
structure Request where
  event : PerfEventAttr
  pid : ℤ
  cpu : ℤ := -1
  groupFd : ℤ := -1
  flags : ℕ := 0

/-- What the members share: `errno`, and the open descriptors of the process. -/
structure Proc (κ : Type*) where
  errno : ℤ
  table : ℤ → Option κ

structure DynamicEvent where
  eFd : ℤ := -1
  lastErrno : ℤ := 0
  attr : PerfEventAttr
  prettyName : Option String := none
  valid : Bool := false

variable {κ : Type*} {n : ℕ}

/-- A cast to `int`. -/
def toInt32 (x : ℤ) : ℤ := (BitVec.ofInt 32 x).toInt

/-! ### One member -/

namespace Proc

/-- `syscall(SYS_perf_event_open, …)`. A descriptor is given out only while it is free. -/
def perfEventOpen (p : Proc κ) : Answer κ → Option (ℤ × Proc κ)
  | .refused errno _ _ => some (-errno, p)
  | .counter fd _ c =>
    if (p.table fd).isNone then some (fd, { p with table := Function.update p.table fd (some c) })
    else none

/-- `__pe_call`. -/
def peCall (p : Proc κ) (r : ℤ) : ℤ × Proc κ :=
  if r < 0 then (-1, { p with errno := toInt32 (-r) }) else (r, p)

/-- `perf_event_pid`. -/
def perfEventPid (p : Proc κ) (attr : PerfEventAttr) (pid : ℤ) (kernel : Request → Answer κ) :
    Option (ℤ × Proc κ) :=
  (p.perfEventOpen (kernel { event := attr, pid })).map fun (r, p) => p.peCall r

/-- `perf_event_this`. -/
def perfEventThis (p : Proc κ) (attr : PerfEventAttr) (kernel : Request → Answer κ) :
    Option (ℤ × Proc κ) :=
  (p.perfEventOpen (kernel { event := attr, pid := 0 })).map fun (r, p) => p.peCall r

/-- `close`, which leaves anything in `errno`. -/
def close (p : Proc κ) (fd errno : ℤ) : Proc κ :=
  { errno, table := Function.update p.table fd none }

end Proc

namespace DynamicEvent

/-- `configure` on a fresh member. -/
def configure (d : EventDef) (exclKernel : Bool) : DynamicEvent :=
  { attr := d.configure exclKernel, prettyName := some d.name }

/-- What both forms of `open` do with the descriptor or the −1 they get. -/
def opened (e : DynamicEvent) (r : ℤ × Proc κ) : ℤ × DynamicEvent × Proc κ :=
  let eFd := toInt32 r.1
  if eFd = -1 then (-1, { e with eFd, lastErrno := r.2.errno, valid := false }, r.2)
  else (eFd, { e with eFd, lastErrno := 0, valid := true }, r.2)

/-- `open()`. -/
def openThis (kernel : Request → Answer κ) (e : DynamicEvent) (p : Proc κ) :
    Option (ℤ × DynamicEvent × Proc κ) :=
  (p.perfEventThis e.attr kernel).map e.opened

/-- `open(pid)`. -/
def openPid (pid : ℤ) (kernel : Request → Answer κ) (e : DynamicEvent) (p : Proc κ) :
    Option (ℤ × DynamicEvent × Proc κ) :=
  (p.perfEventPid e.attr pid kernel).map e.opened

/-- `reopen(pid)`; `errno` is what a `close` leaves. -/
def reopen (pid : ℤ) (kernel : Request → Answer κ) (errno : ℤ) (e : DynamicEvent) (p : Proc κ) :
    Option (ℤ × DynamicEvent × Proc κ) :=
  e.openPid pid kernel (if e.eFd ≠ -1 then p.close e.eFd errno else p)

/-- `begin` and `end`: one or two `ioctl`s on the descriptor, which leave anything in
`errno`. -/
def control (e : DynamicEvent) (errno : ℤ) (p : Proc κ) : Proc κ :=
  if e.valid then { p with errno } else p

/-- `retrieve`; `read` is what a counter delivers. A descriptor that is not open delivers
nothing, and the three zeros stay. -/
def retrieve (fl : ℚ → ℚ) (read : κ → Reading) (p : Proc κ) (e : DynamicEvent) : ℤ :=
  if e.valid then
    match p.table e.eFd with
    | some c => scaledCount fl (read c)
    | none => scaledCount fl ⟨0, 0, 0⟩
  else 0

end DynamicEvent

/-! ### The group -/

structure Group (n : ℕ) (κ : Type*) where
  events : Fin n → DynamicEvent
  proc : Proc κ

/-- An argument list of the callback of `for_each`. -/
structure Entry where
  name : Option String
  value : ℤ
  err : ℤ

namespace Group

/-- `dynamic_event_group(defs, excl_kernel)`. -/
def ofDefs (defs : List EventDef) (exclKernel : Bool) (p : Proc κ) : Group defs.length κ :=
  { events := fun i => .configure (defs.get i) exclKernel, proc := p }

/-- The member `i` and the process after a call on it. -/
def set (g : Group n κ) (i : Fin n) (e : DynamicEvent) (p : Proc κ) : Group n κ :=
  { events := Function.update g.events i e, proc := p }

/-- The loop of `open` and `reopen` over the members `is`. -/
def openLoop (f : Fin n → DynamicEvent → Proc κ → Option (ℤ × DynamicEvent × Proc κ)) :
    List (Fin n) → ℤ → Group n κ → Option (ℤ × Group n κ)
  | [], bad, g => some (if bad = 0 then 0 else -bad, g)
  | i :: is, bad, g =>
    match f i (g.events i) g.proc with
    | none => none
    | some (r, e, p) => openLoop f is (if r = -1 then bad + 1 else bad) (g.set i e p)

/-- `open()`. -/
def openThis (kernel : Fin n → Request → Answer κ) (g : Group n κ) : Option (ℤ × Group n κ) :=
  openLoop (fun i => DynamicEvent.openThis (kernel i)) (List.finRange n) 0 g

/-- `reopen(pid)`. -/
def reopen (pid : ℤ) (kernel : Fin n → Request → Answer κ) (errno : Fin n → ℤ)
    (g : Group n κ) : Option (ℤ × Group n κ) :=
  openLoop (fun i => DynamicEvent.reopen pid (kernel i) (errno i)) (List.finRange n) 0 g

/-- `begin` and `end`. -/
def control (errno : Fin n → ℤ) (g : Group n κ) : Group n κ :=
  { g with proc := (List.finRange n).foldl (fun p i => (g.events i).control (errno i) p) g.proc }

/-- `set_inherit`, `set_pinned` and `set_enable_on_exec`. -/
def setAttr (change : PerfEventAttr → PerfEventAttr) (g : Group n κ) : Group n κ :=
  { g with events := fun i => { g.events i with attr := change (g.events i).attr } }

def setInherit (on : Bool) (g : Group n κ) : Group n κ := g.setAttr (·.setInherit on)

def setPinned (on : Bool) (g : Group n κ) : Group n κ := g.setAttr (·.setPinned on)

def setEnableOnExec (on : Bool) (g : Group n κ) : Group n κ := g.setAttr (·.setEnableOnExec on)

/-- `for_each`: the calls of the callback. -/
def forEach (fl : ℚ → ℚ) (read : κ → Reading) (g : Group n κ) : List Entry :=
  (List.finRange n).map fun i =>
    ⟨(g.events i).prettyName, (g.events i).retrieve fl read g.proc, (g.events i).lastErrno⟩

/-- A call on a group, with what the outside world does in it. -/
inductive Call (n : ℕ) (κ : Type*)
  | openThis (kernel : Fin n → Request → Answer κ)
  | reopen (pid : ℤ) (kernel : Fin n → Request → Answer κ) (errno : Fin n → ℤ)
  | begin (errno : Fin n → ℤ)
  | finish (errno : Fin n → ℤ)
  | setInherit (on : Bool)
  | setPinned (on : Bool)
  | setEnableOnExec (on : Bool)

def call (g : Group n κ) : Call n κ → Option (Group n κ)
  | .openThis kernel => (g.openThis kernel).map Prod.snd
  | .reopen pid kernel errno => (g.reopen pid kernel errno).map Prod.snd
  | .begin errno | .finish errno => some (g.control errno)
  | .setInherit on => some (g.setInherit on)
  | .setPinned on => some (g.setPinned on)
  | .setEnableOnExec on => some (g.setEnableOnExec on)

def Call.opens : Call n κ → Bool
  | .openThis _ | .reopen _ _ _ => true
  | _ => false

end Group

/-! ### What an open leaves in its member -/

theorem toInt32_eq {x : ℤ} (hlow : -2 ^ 31 ≤ x) (hhigh : x < 2 ^ 31) : toInt32 x = x :=
  Lib.toInt_ofInt (by omega) ⟨hlow, hhigh⟩

/-- A member agrees with the answer to its latest open; without one it has no descriptor. -/
def Agrees (p : Proc κ) (e : DynamicEvent) : Option (Answer κ) → Prop
  | none => e.eFd = -1 ∧ e.valid = false
  | some (.refused errno _ _) => e.eFd = -1 ∧ e.valid = false ∧ e.lastErrno = errno
  | some (.counter fd _ c) =>
    e.eFd = fd ∧ e.valid = true ∧ e.lastErrno = 0 ∧ p.table fd = some c

def Answer.isRefused : Answer κ → Bool
  | .refused _ _ _ => true
  | .counter _ _ _ => false

/-- What an open of `e` with the answer `a` does: the member agrees with the answer, and
no descriptor but its own old one is touched. -/
structure Opened (p : Proc κ) (e : DynamicEvent) (a : Answer κ) (r : ℤ) (e' : DynamicEvent)
    (p' : Proc κ) : Prop where
  agrees : Agrees p' e' (some a)
  ret : r = -1 ↔ a.isRefused = true
  attr : e'.attr = e.attr
  prettyName : e'.prettyName = e.prettyName
  keeps : ∀ fd, p.table fd ≠ none → fd ≠ e.eFd → p'.table fd = p.table fd
  free : e'.eFd ≠ -1 → p.table e'.eFd = none ∨ e'.eFd = e.eFd

theorem opened_of_answer {p p' : Proc κ} {a : Answer κ} {e e' : DynamicEvent} {r : ℤ}
    (h : ((p.perfEventOpen a).map fun (r, p) => p.peCall r).map e.opened = some (r, e', p')) :
    Opened p e a r e' p' := by
  cases a with
  | refused errno pos le =>
    have hneg : -(errno : ℤ) < 0 := by omega
    have herrno : toInt32 (- -(errno : ℤ)) = errno := by
      rw [neg_neg]
      exact toInt32_eq (by omega) (by omega)
    have hone : toInt32 (-1) = -1 := toInt32_eq (by omega) (by omega)
    simp only [Proc.perfEventOpen, Option.map_some, Proc.peCall, if_pos hneg, herrno,
      DynamicEvent.opened, hone, if_true, Option.some.injEq, Prod.mk.injEq] at h
    obtain ⟨rfl, rfl, rfl⟩ := h
    exact {
      agrees := ⟨rfl, rfl, rfl⟩
      ret := by simp [Answer.isRefused]
      attr := rfl
      prettyName := rfl
      keeps := fun fd _ _ => rfl
      free := fun hne => absurd rfl hne }
  | counter fd lt c =>
    have hpos : ¬ (fd : ℤ) < 0 := by omega
    have hfd : toInt32 fd = fd := toInt32_eq (by omega) (by exact_mod_cast lt)
    have hne : ¬ (fd : ℤ) = -1 := by omega
    rw [Proc.perfEventOpen] at h
    split at h
    · rename_i hfree
      rw [Option.isNone_iff_eq_none] at hfree
      simp only [Option.map_some, Proc.peCall, if_neg hpos, DynamicEvent.opened, hfd, if_neg hne,
        Option.some.injEq, Prod.mk.injEq] at h
      obtain ⟨rfl, rfl, rfl⟩ := h
      exact {
        agrees := ⟨rfl, rfl, rfl, Function.update_self _ _ _⟩
        ret := by simp [Answer.isRefused, hne]
        attr := rfl
        prettyName := rfl
        keeps := by
          intro fd' hopen _
          refine Function.update_of_ne ?_ _ _
          rintro rfl
          exact hopen hfree
        free := fun _ => Or.inl hfree }
    · cases h

theorem opened_openThis {p p' : Proc κ} {kernel : Request → Answer κ} {e e' : DynamicEvent}
    {r : ℤ} (h : e.openThis kernel p = some (r, e', p')) :
    Opened p e (kernel { event := e.attr, pid := 0 }) r e' p' := opened_of_answer h

theorem opened_openPid {p p' : Proc κ} {pid : ℤ} {kernel : Request → Answer κ}
    {e e' : DynamicEvent} {r : ℤ} (h : e.openPid pid kernel p = some (r, e', p')) :
    Opened p e (kernel { event := e.attr, pid }) r e' p' := opened_of_answer h

/-- The old descriptor is closed first, and may be the one that is given out again. -/
theorem opened_reopen {p p' : Proc κ} {pid errno : ℤ} {kernel : Request → Answer κ}
    {e e' : DynamicEvent} {r : ℤ} (h : e.reopen pid kernel errno p = some (r, e', p')) :
    Opened p e (kernel { event := e.attr, pid }) r e' p' := by
  have hopened := opened_openPid h
  split at hopened
  · have htable : ∀ fd, fd ≠ e.eFd → (p.close e.eFd errno).table fd = p.table fd := by
      intro fd hfd
      exact Function.update_of_ne hfd _ _
    refine { hopened with keeps := fun fd hopen hfd => ?_, free := fun hne => ?_ }
    · rw [hopened.keeps fd (by rwa [htable fd hfd]) hfd, htable fd hfd]
    · by_cases hown : e'.eFd = e.eFd
      · exact Or.inr hown
      · have hfree := (hopened.free hne).resolve_right hown
        rw [htable _ hown] at hfree
        exact Or.inl hfree
  · exact hopened

/-! ### The members together -/

namespace Group

/-- Every member agrees with its own latest answer, and no two share a descriptor. -/
structure Coupled (g : Group n κ) (latest : Fin n → Option (Answer κ)) : Prop where
  agrees : ∀ i, Agrees g.proc (g.events i) (latest i)
  apart : ∀ i j, i ≠ j → (g.events i).eFd ≠ -1 → (g.events i).eFd ≠ (g.events j).eFd

variable {g g' : Group n κ} {latest : Fin n → Option (Answer κ)}

theorem Coupled.table_ne_none (h : Coupled g latest) {i : Fin n} (hfd : (g.events i).eFd ≠ -1) :
    g.proc.table (g.events i).eFd ≠ none := by
  have hi := h.agrees i
  unfold Agrees at hi
  split at hi
  · exact absurd hi.1 hfd
  · exact absurd hi.1 hfd
  · rw [hi.1, hi.2.2.2]
    exact Option.some_ne_none _

/-- A member without a descriptor agrees with its answer in any process. -/
theorem agrees_of_eFd {p p' : Proc κ} {e : DynamicEvent} {a : Option (Answer κ)}
    (h : Agrees p e a) (htable : e.eFd ≠ -1 → p'.table e.eFd = p.table e.eFd) :
    Agrees p' e a := by
  unfold Agrees at h ⊢
  split at h
  · exact h
  · exact h
  · rename_i fd lt c
    have hne : e.eFd ≠ -1 := by omega
    rw [h.1] at htable hne
    exact ⟨h.1, h.2.1, h.2.2.1, (htable hne).trans h.2.2.2⟩

theorem events_set_self (g : Group n κ) (i : Fin n) (e : DynamicEvent) (p : Proc κ) :
    (g.set i e p).events i = e := Function.update_self _ _ _

theorem events_set_of_ne (g : Group n κ) {i j : Fin n} (hj : j ≠ i) (e : DynamicEvent)
    (p : Proc κ) : (g.set i e p).events j = g.events j := Function.update_of_ne hj _ _

/-- One open: its member agrees with the new answer, the others with their old ones. -/
theorem Coupled.set (h : Coupled g latest) {i : Fin n} {a : Answer κ} {r : ℤ} {e : DynamicEvent}
    {p : Proc κ} (ho : Opened g.proc (g.events i) a r e p) :
    Coupled (g.set i e p) (Function.update latest i (some a)) := by
  have hself := g.events_set_self i e p
  have hother {j : Fin n} (hj : j ≠ i) := g.events_set_of_ne hj e p
  -- the descriptor of another member is open, so it is not the one just given out
  have hnew : ∀ {j}, j ≠ i → e.eFd ≠ -1 → (g.events j).eFd ≠ e.eFd := by
    intro j hj hne heq
    have hopen := h.table_ne_none (i := j) (by rwa [heq])
    rcases ho.free hne with hfree | hold
    · exact hopen (heq ▸ hfree)
    · exact h.apart j i hj (by rwa [heq]) (heq.trans hold)
  constructor
  · intro j
    by_cases hj : j = i
    · subst hj
      rw [hself, Function.update_self]
      exact ho.agrees
    · rw [hother hj, Function.update_of_ne hj]
      refine agrees_of_eFd (h.agrees j) fun hne => ?_
      exact ho.keeps _ (h.table_ne_none hne) (h.apart j i hj hne)
  · intro j k hjk hne
    by_cases hj : j = i
    · subst hj
      rw [hself] at hne ⊢
      rw [hother (Ne.symm hjk)]
      exact Ne.symm (hnew (Ne.symm hjk) hne)
    · rw [hother hj] at hne ⊢
      by_cases hk : k = i
      · subst hk
        rw [hself]
        intro heq
        exact hnew hj (heq ▸ hne) heq
      · rw [hother hk]
        exact h.apart j k hjk hne

/-- The calls that open nothing keep the agreement. -/
theorem Coupled.congr (h : Coupled g latest) (hfd : ∀ i, (g'.events i).eFd = (g.events i).eFd)
    (hvalid : ∀ i, (g'.events i).valid = (g.events i).valid)
    (herrno : ∀ i, (g'.events i).lastErrno = (g.events i).lastErrno)
    (htable : g'.proc.table = g.proc.table) : Coupled g' latest := by
  constructor
  · intro i
    have hi := h.agrees i
    unfold Agrees at hi ⊢
    rw [hfd, hvalid, herrno, htable]
    exact hi
  · intro i j hij
    rw [hfd, hfd]
    exact h.apart i j hij

/-- A call on the members `is`, each opened once, has done its work: each of them agrees
with its answer, the failures are counted, and what names a member has not changed. -/
structure OpenedAll (g : Group n κ) (latest : Fin n → Option (Answer κ)) (is : List (Fin n))
    (answer : Fin n → Answer κ) (bad r : ℤ) (g' : Group n κ) : Prop where
  coupled : Coupled g' fun i => if i ∈ is then some (answer i) else latest i
  ret : r = -(bad + is.countP fun i => (answer i).isRefused)
  attr : ∀ i, (g'.events i).attr = (g.events i).attr
  prettyName : ∀ i, (g'.events i).prettyName = (g.events i).prettyName

/-- What names a member is left alone when it is opened. -/
theorem names_set {i : Fin n} {a : Answer κ} {r : ℤ} {e : DynamicEvent} {p : Proc κ}
    (ho : Opened g.proc (g.events i) a r e p) (j : Fin n) :
    ((g.set i e p).events j).attr = (g.events j).attr ∧
      ((g.set i e p).events j).prettyName = (g.events j).prettyName := by
  by_cases hj : j = i
  · subst hj
    rw [events_set_self]
    exact ⟨ho.attr, ho.prettyName⟩
  · rw [events_set_of_ne g hj]
    exact ⟨rfl, rfl⟩

/-- The answer to the first open is recorded before the others. -/
theorem answers_cons {i : Fin n} {is : List (Fin n)} (hi : i ∉ is) (answer : Fin n → Answer κ) :
    (fun j => if j ∈ i :: is then some (answer j) else latest j) = fun j =>
      if j ∈ is then some (answer j) else Function.update latest i (some (answer i)) j := by
  funext j
  by_cases hj : j = i
  · subst hj
    simp [hi]
  · simp [hj]

section Loop
variable {f : Fin n → DynamicEvent → Proc κ → Option (ℤ × DynamicEvent × Proc κ)}

theorem openedAll_openLoop (ans : Fin n → PerfEventAttr → Answer κ)
    (hf : ∀ {i e p r e' p'}, f i e p = some (r, e', p') → Opened p e (ans i e.attr) r e' p')
    {is : List (Fin n)} (his : is.Nodup) {bad r : ℤ} (h : Coupled g latest)
    (hloop : openLoop f is bad g = some (r, g')) :
    OpenedAll g latest is (fun i => ans i (g.events i).attr) bad r g' := by
  induction is generalizing g latest bad with
  | nil =>
    obtain ⟨rfl, rfl⟩ := Prod.mk.inj (Option.some.inj hloop)
    refine ⟨by simpa using h, ?_, fun _ => rfl, fun _ => rfl⟩
    split
    · rename_i hzero
      simp [hzero]
    · simp
  | cons i is ih =>
    obtain ⟨hi, his⟩ := List.nodup_cons.mp his
    rw [openLoop] at hloop
    split at hloop
    · cases hloop
    rename_i r₁ e p hmember
    have ho := hf hmember
    have hrest := ih his (h.set ho) hloop
    have hattr : ∀ j, ((g.set i e p).events j).attr = (g.events j).attr :=
      fun j => (names_set ho j).1
    constructor
    · have hcoupled := hrest.coupled
      simp only [hattr] at hcoupled
      rwa [answers_cons hi fun j => ans j (g.events j).attr]
    · have hret := hrest.ret
      simp only [hattr] at hret
      rw [hret, List.countP_cons]
      by_cases hrefused : (ans i (g.events i).attr).isRefused = true
      · rw [if_pos (ho.ret.mpr hrefused), if_pos hrefused]
        push_cast
        omega
      · rw [if_neg (fun hr => hrefused (ho.ret.mp hr)), if_neg hrefused]
        simp
    · intro j
      rw [hrest.attr j, hattr j]
    · intro j
      rw [hrest.prettyName j, (names_set ho j).2]

end Loop

theorem openedAll_openThis {kernel : Fin n → Request → Answer κ} {r : ℤ} (h : Coupled g latest)
    (hopen : g.openThis kernel = some (r, g')) :
    OpenedAll g latest (List.finRange n)
      (fun i => kernel i { event := (g.events i).attr, pid := 0 }) 0 r g' :=
  openedAll_openLoop (fun i attr => kernel i { event := attr, pid := 0 })
    opened_openThis (List.nodup_finRange n) h hopen

theorem openedAll_reopen {pid : ℤ} {kernel : Fin n → Request → Answer κ} {errno : Fin n → ℤ}
    {r : ℤ} (h : Coupled g latest) (hopen : g.reopen pid kernel errno = some (r, g')) :
    OpenedAll g latest (List.finRange n)
      (fun i => kernel i { event := (g.events i).attr, pid }) 0 r g' :=
  openedAll_openLoop (fun i attr => kernel i { event := attr, pid })
    opened_reopen (List.nodup_finRange n) h hopen

/-! ### Runs of a group -/

theorem table_control (errno : Fin n → ℤ) (g : Group n κ) :
    (g.control errno).proc.table = g.proc.table := by
  have hfold : ∀ (is : List (Fin n)) (p : Proc κ),
      (is.foldl (fun p i => (g.events i).control (errno i) p) p).table = p.table := by
    intro is
    induction is with
    | nil => exact fun p => rfl
    | cons i is ih =>
      intro p
      rw [List.foldl_cons, ih, DynamicEvent.control]
      split <;> rfl
  exact hfold _ _

/-- A call that opens nothing leaves every member in agreement with the same answer. -/
theorem Coupled.call (h : Coupled g latest) {c : Call n κ} (hc : c.opens = false)
    (hcall : g.call c = some g') :
    Coupled g' latest ∧ ∀ i, (g'.events i).prettyName = (g.events i).prettyName := by
  cases c with
  | openThis _ | reopen _ _ _ => cases hc
  | begin errno | finish errno =>
    obtain rfl := Option.some.inj hcall
    have htable := g.table_control errno
    exact ⟨h.congr (fun _ => rfl) (fun _ => rfl) (fun _ => rfl) htable, fun _ => rfl⟩
  | setInherit on | setPinned on | setEnableOnExec on =>
    obtain rfl := Option.some.inj hcall
    exact ⟨h.congr (fun _ => rfl) (fun _ => rfl) (fun _ => rfl) rfl, fun _ => rfl⟩

/-- With every member opened, the answers are the latest ones of all. -/
theorem OpenedAll.coupled_all {answer : Fin n → Answer κ} {bad r : ℤ}
    (h : OpenedAll g latest (List.finRange n) answer bad r g') :
    Coupled g' fun i => some (answer i) := by
  have hcoupled := h.coupled
  simpa using hcoupled

/-- One step of a run. -/
theorem Coupled.step (h : Coupled g latest) {c : Call n κ} (hcall : g.call c = some g') :
    (∃ latest', Coupled g' latest') ∧
      ∀ i, (g'.events i).prettyName = (g.events i).prettyName := by
  cases c with
  | openThis kernel =>
    obtain ⟨⟨r, g₁⟩, hopen, rfl⟩ := Option.map_eq_some_iff.mp hcall
    have hall := openedAll_openThis h hopen
    exact ⟨⟨_, hall.coupled_all⟩, hall.prettyName⟩
  | reopen pid kernel errno =>
    obtain ⟨⟨r, g₁⟩, hopen, rfl⟩ := Option.map_eq_some_iff.mp hcall
    have hall := openedAll_reopen h hopen
    exact ⟨⟨_, hall.coupled_all⟩, hall.prettyName⟩
  | begin _ | finish _ | setInherit _ | setPinned _ | setEnableOnExec _ =>
    have hquiet := h.call rfl hcall
    exact ⟨⟨latest, hquiet.1⟩, hquiet.2⟩

/-- Any run. -/
theorem Coupled.run (h : Coupled g latest) {calls : List (Call n κ)}
    (hrun : Transition.run Group.call g calls = some g') :
    (∃ latest', Coupled g' latest') ∧
      ∀ i, (g'.events i).prettyName = (g.events i).prettyName := by
  induction calls generalizing g latest with
  | nil =>
    obtain rfl := Option.some.inj hrun
    exact ⟨⟨latest, h⟩, fun _ => rfl⟩
  | cons c calls ih =>
    obtain ⟨g₁, hcall, hrest⟩ := Transition.run_cons_eq_some.mp hrun
    obtain ⟨⟨latest₁, h₁⟩, hname₁⟩ := h.step hcall
    obtain ⟨hcoupled, hname⟩ := ih h₁ hrest
    exact ⟨hcoupled, fun i => (hname i).trans (hname₁ i)⟩

/-- A run that opens nothing. -/
theorem Coupled.run_quiet (h : Coupled g latest) {calls : List (Call n κ)}
    (hcalls : ∀ c ∈ calls, c.opens = false)
    (hrun : Transition.run Group.call g calls = some g') :
    Coupled g' latest ∧ ∀ i, (g'.events i).prettyName = (g.events i).prettyName := by
  induction calls generalizing g with
  | nil =>
    obtain rfl := Option.some.inj hrun
    exact ⟨h, fun _ => rfl⟩
  | cons c calls ih =>
    obtain ⟨g₁, hcall, hrest⟩ := Transition.run_cons_eq_some.mp hrun
    obtain ⟨h₁, hname₁⟩ := h.call (hcalls c List.mem_cons_self) hcall
    obtain ⟨hcoupled, hname⟩ := ih h₁ (fun c hc => hcalls c (List.mem_cons_of_mem _ hc)) hrest
    exact ⟨hcoupled, fun i => (hname i).trans (hname₁ i)⟩

theorem coupled_ofDefs (defs : List EventDef) (exclKernel : Bool) (p : Proc κ) :
    Coupled (ofDefs defs exclKernel p) fun _ => none :=
  ⟨fun _ => ⟨rfl, rfl⟩, fun _ _ _ hne => absurd rfl hne⟩

end Group

/-! ### What the callback of `for_each` is told -/

theorem Agrees.valid_iff {p : Proc κ} {e : DynamicEvent} {a : Option (Answer κ)}
    (h : Agrees p e a) : e.valid = true ↔ e.eFd ≠ -1 := by
  unfold Agrees at h
  split at h
  · simp [h.1, h.2]
  · simp [h.1, h.2.1]
  · rw [h.1]
    simp only [h.2.1, true_iff]
    omega

theorem Agrees.valid_iff_lastErrno {p : Proc κ} {e : DynamicEvent} {a : Answer κ}
    (h : Agrees p e (some a)) : e.valid = true ↔ e.lastErrno = 0 := by
  cases a with
  | refused errno pos le =>
    obtain ⟨-, hvalid, herrno⟩ := h
    rw [hvalid, herrno]
    simp only [Bool.false_eq_true, false_iff]
    omega
  | counter fd lt c =>
    obtain ⟨-, hvalid, herrno, -⟩ := h
    simp [hvalid, herrno]

/-- The entry of a member named `name` whose latest open had the answer `a`. -/
def Answer.entry (fl : ℚ → ℚ) (read : κ → Reading) (name : Option String) : Answer κ → Entry
  | .refused errno _ _ => ⟨name, 0, errno⟩
  | .counter _ _ c => ⟨name, scaledCount fl (read c), 0⟩

theorem Agrees.entry {p : Proc κ} {e : DynamicEvent} {a : Answer κ} (h : Agrees p e (some a))
    (fl : ℚ → ℚ) (read : κ → Reading) :
    (⟨e.prettyName, e.retrieve fl read p, e.lastErrno⟩ : Entry) =
      a.entry fl read e.prettyName := by
  cases a with
  | refused errno pos le =>
    obtain ⟨-, hvalid, herrno⟩ := h
    simp [DynamicEvent.retrieve, hvalid, herrno, Answer.entry]
  | counter fd lt c =>
    obtain ⟨hfd, hvalid, herrno, htable⟩ := h
    simp [DynamicEvent.retrieve, hvalid, herrno, hfd, htable, Answer.entry]

theorem Group.Coupled.forEach {g : Group n κ} {answer : Fin n → Answer κ}
    (h : Coupled g fun i => some (answer i)) (fl : ℚ → ℚ) (read : κ → Reading) :
    g.forEach fl read = (List.finRange n).map fun i =>
      (answer i).entry fl read (g.events i).prettyName := by
  rw [Group.forEach]
  exact List.map_congr_left fun i _ => (h.agrees i).entry fl read

end Bbench.Perf
