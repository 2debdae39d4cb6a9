import Bbench.Lib.Handles
import Bbench.Lib.Transition
import Bbench.Perf.Events
import Bbench.Perf.Topdown

/-! Who owns a perf descriptor. Three counter classes open, reopen, move and destroy
their `e_fd` in code of their own. A history is a run of the calls on any number of
objects, the kernel answering each open with an error or with a number that is free.
Descriptors are kept by exactly one object each until `open` is called on an object
that still has one. -/

namespace Bbench.Perf

open Lib Transition

inductive CounterClass
  | kernelClock | dynamicEvent | tdEvent
  deriving DecidableEq, Repr

/-- An object of one of the three classes; `valid` and `prettyName` are members of
`dynamic_event` only. -/
structure CounterObj where
  kind : CounterClass
  eFd : Option Handle := none
  lastErrno : ℕ := 0
  attr : PerfEventAttr := {}
  prettyName : Option String := none
  valid : Bool := false

/-- What `perf_event_open` returns. -/
inductive OpenAnswer
  | failed (errno : ℕ)
  | fd (n : ℕ)

def OpenAnswer.errno : OpenAnswer → ℕ
  | failed e => e
  | fd _ => 0

/-- The objects by the names the history gives them, and the kernel's descriptors. -/
structure Objects where
  object : ℕ → Option CounterObj
  table : HandleTable

/-- Calls on counter objects. A call that opens comes with the kernel's answer; the
process it counts is this one when no `pid` is given. -/
inductive CounterCall
  /-- `event()`, which opens. -/
  | event (i : ℕ) (e : Event) (a : OpenAnswer)
  /-- `event(quiet)`. -/
  | quiet (i : ℕ) (e : Event)
  | dynamicEvent (i : ℕ)
  | dynamicEventOf (i : ℕ) (d : EventDef) (exclKernel : Bool)
  | configure (i : ℕ) (d : EventDef) (exclKernel : Bool)
  | tdEvent (i : ℕ)
  | tdConfigure (i : ℕ) (config : UInt64) (exclKernel : Bool)
  /-- `open()` and `open(pid)` of a `kernel_clock` or a `dynamic_event`. -/
  | openCounter (i : ℕ) (pid : Option ℕ) (a : OpenAnswer)
  /-- `open_pid` of a `__td_event`. -/
  | openPid (i : ℕ) (pid : ℕ) (a : OpenAnswer)
  /-- `reopen()` and `reopen(pid)`; a `dynamic_event` has only the second. -/
  | reopen (i : ℕ) (pid : Option ℕ) (a : OpenAnswer)
  /-- The object `j` is constructed from `i` by a move. -/
  | move (i j : ℕ)
  | destroy (i : ℕ)
  /-- A call that uses the descriptor: start, stop, begin, end or a read. -/
  | use (i : ℕ)

/-- `perf_event_open`: an answer must be an error or a number that is free. -/
def perfEventOpen (t : HandleTable) : OpenAnswer → Option (HandleTable × Option Handle)
  | .failed _ => some (t, none)
  | .fd n => if t.current n = none then some (t.issue n, some ⟨n, t.next⟩) else none

/-- The tail of every open: the result goes into `e_fd`, whatever was there. -/
def CounterObj.openWith (o : CounterObj) (a : OpenAnswer) (t : HandleTable) :
    Option (HandleTable × CounterObj) :=
  (perfEventOpen t a).map fun (t', fd) =>
    (t', { o with
      eFd := fd
      lastErrno := a.errno
      valid := o.kind = .dynamicEvent && fd.isSome })

namespace Objects

def initial : Objects := ⟨fun _ => none, .empty⟩

/-- The descriptor an object stores. -/
def hold (s : Objects) (i : ℕ) : Option Handle := (s.object i).bind CounterObj.eFd

def set (s : Objects) (i : ℕ) (o : Option CounterObj) : Objects :=
  { s with object := Function.update s.object i o }

/-- A name that is free gets a new object. -/
def construct (s : Objects) (i : ℕ) (o : CounterObj) : Option Objects :=
  match s.object i with
  | none => some (s.set i (some o))
  | some _ => none

/-- Open the counter of `i`. -/
def openAt (s : Objects) (i : ℕ) (o : CounterObj) (a : OpenAnswer) : Option Objects :=
  (o.openWith a s.table).map fun (t, o') => { s.set i (some o') with table := t }

def step (s : Objects) : CounterCall → Option Objects
  | .event i e a =>
    (s.construct i { kind := .kernelClock, attr := e.attr }).bind fun s' =>
      s'.openAt i { kind := .kernelClock, attr := e.attr } a
  | .quiet i e => s.construct i { kind := .kernelClock, attr := e.attr }
  | .dynamicEvent i => s.construct i { kind := .dynamicEvent }
  | .dynamicEventOf i d exclKernel =>
    s.construct i
      { kind := .dynamicEvent, attr := d.configure exclKernel, prettyName := some d.name }
  | .configure i d exclKernel =>
    match s.object i with
    | some o =>
      if o.kind = .dynamicEvent then
        some (s.set i (some { o with
          attr := d.configure exclKernel, prettyName := some d.name }))
      else none
    | none => none
  | .tdEvent i => s.construct i { kind := .tdEvent }
  | .tdConfigure i config exclKernel =>
    match s.object i with
    | some o =>
      if o.kind = .tdEvent then
        some (s.set i (some { o with attr := Topdown.configure config exclKernel }))
      else none
    | none => none
  | .openCounter i _ a =>
    match s.object i with
    | some o => if o.kind = .tdEvent then none else s.openAt i o a
    | none => none
  | .openPid i _ a =>
    match s.object i with
    | some o => if o.kind = .tdEvent then s.openAt i o a else none
    | none => none
  | .reopen i pid a =>
    match s.object i with
    | some o =>
      if o.kind = .kernelClock ∨ o.kind = .dynamicEvent ∧ pid.isSome then
        -- the old descriptor is closed before the new one is asked for
        { s with table := s.table.closeSlot o.eFd }.openAt i o a
      else none
    | none => none
  | .move i j =>
    match s.object i, s.object j with
    | some o, none =>
      some ((s.set i (some { o with eFd := none, valid := false })).set j (some o))
    | _, _ => none
  | .destroy i =>
    match s.object i with
    | some o => some { s.set i none with table := s.table.closeSlot o.eFd }
    | none => none
  | .use i =>
    match s.object i with
    | some o =>
      match o.eFd with
      | some fd =>
        -- a `dynamic_event` asks its flag, the others the descriptor
        if o.kind = .dynamicEvent ∧ o.valid = false then some s
        else some { s with table := s.table.use fd }
      | none => some s
    | none => none

/-! ### The slots of the table -/

variable {s t : Objects} {i : ℕ}

theorem hold_set (s : Objects) (i : ℕ) (o : Option CounterObj) :
    (s.set i o).hold = Function.update s.hold i (o.bind CounterObj.eFd) := by
  funext j
  by_cases hj : j = i
  · simp [hold, set, hj]
  · simp [hold, set, hj]

/-- The invariant of the table holds of the descriptors in the objects. -/
def SoundObjects (s : Objects) : Prop := Sound s.table s.hold

/-- Every open descriptor is stored in exactly one object. -/
def OwnedOnce (s : Objects) : Prop := Owned s.table s.hold

/-- From `s` to `t` the invariant is kept, and a descriptor is lost if `lost` holds. -/
def Keeps (s t : Objects) (lost : Prop) : Prop :=
  SoundObjects t ∧ (OwnedOnce t ↔ OwnedOnce s ∧ ¬ lost)

/-- What an open does to the slots: the descriptor, or the lack of one, goes over what
the object had. -/
theorem openAt_cases {o : CounterObj} {a : OpenAnswer} (h : s.openAt i o a = some t) :
    (t.table = s.table ∧ t.hold = Function.update s.hold i none) ∨
    ∃ n, s.table.current n = none ∧ t.table = s.table.issue n ∧
      t.hold = Function.update s.hold i (some ⟨n, s.table.next⟩) := by
  obtain ⟨⟨table, o'⟩, hopen, rfl⟩ := Option.map_eq_some_iff.mp h
  obtain ⟨⟨table', fd⟩, hanswer, hpair⟩ := Option.map_eq_some_iff.mp hopen
  obtain ⟨rfl, rfl⟩ := Prod.mk.inj hpair
  cases a with
  | failed e =>
    obtain ⟨rfl, rfl⟩ := Prod.mk.inj (Option.some.inj hanswer)
    exact .inl ⟨rfl, hold_set _ _ _⟩
  | fd n =>
    by_cases hn : s.table.current n = none
    · rw [perfEventOpen, if_pos hn] at hanswer
      obtain ⟨rfl, rfl⟩ := Prod.mk.inj (Option.some.inj hanswer)
      exact .inr ⟨n, hn, rfl, hold_set _ _ _⟩
    · rw [perfEventOpen, if_neg hn] at hanswer
      cases hanswer

theorem keeps_openAt (hs : SoundObjects s) {o : CounterObj} {a : OpenAnswer}
    (h : s.openAt i o a = some t) : Keeps s t (s.hold i ≠ none) := by
  unfold Keeps SoundObjects OwnedOnce
  rw [not_ne_iff]
  rcases openAt_cases h with ⟨htable, hhold⟩ | ⟨n, hn, htable, hhold⟩
  · rw [htable, hhold]
    exact ⟨hs.forget i, hs.owned_forget_iff i⟩
  · rw [htable, hhold]
    exact ⟨hs.issue i hn, hs.owned_issue_iff i hn⟩

/-- Nothing changes for the descriptors. -/
theorem keeps_of_eq (hs : SoundObjects s) (htable : t.table = s.table) (hhold : t.hold = s.hold) :
    Keeps s t False := by
  unfold Keeps SoundObjects OwnedOnce
  rw [htable, hhold, not_false_eq_true, and_true]
  exact ⟨hs, Iff.rfl⟩

theorem hold_set_of_eq {o o' : CounterObj} (ho : s.object i = some o) (hfd : o'.eFd = o.eFd) :
    (s.set i (some o')).hold = s.hold := by
  rw [hold_set, Option.bind_some, hfd, ← Option.bind_some (f := CounterObj.eFd), ← ho]
  exact Function.update_eq_self i s.hold

theorem construct_cases {o : CounterObj} (h : s.construct i o = some t) :
    s.object i = none ∧ t = s.set i (some o) := by
  unfold construct at h
  split at h
  · exact ⟨‹_›, (Option.some.inj h).symm⟩
  · cases h

theorem keeps_construct (hs : SoundObjects s) {o : CounterObj} (ho : o.eFd = none)
    (h : s.construct i o = some t) : Keeps s t False ∧ t.hold i = none := by
  obtain ⟨hfree, rfl⟩ := construct_cases h
  have hhold : (s.set i (some o)).hold = s.hold := by
    rw [hold_set, Option.bind_some, ho, Function.update_eq_self_iff, hold, hfree, Option.bind_none]
  exact ⟨keeps_of_eq hs rfl hhold, by rw [hhold, hold, hfree, Option.bind_none]⟩

theorem keeps_closeSlot (hs : SoundObjects s) {o : CounterObj} (ho : s.object i = some o)
    (htable : t.table = s.table.closeSlot o.eFd)
    (hhold : t.hold = Function.update s.hold i none) : Keeps s t False := by
  have heq : s.hold i = o.eFd := by rw [hold, ho, Option.bind_some]
  unfold Keeps SoundObjects OwnedOnce
  rw [htable, hhold, ← heq, not_false_eq_true, and_true]
  exact ⟨hs.closeSlot i, hs.owned_closeSlot_iff i⟩

/-! ### One call -/

/-- The calls that store a result over a descriptor the object still has. -/
def Overwrites (s : Objects) : CounterCall → Prop
  | .openCounter i _ _ | .openPid i _ _ => s.hold i ≠ none
  | _ => False

instance (s : Objects) (c : CounterCall) : Decidable (s.Overwrites c) := by
  unfold Overwrites
  split <;> infer_instance

theorem Keeps.trans {u : Objects} {lost : Prop} (h : Keeps s u False) (h' : Keeps u t lost) :
    Keeps s t lost :=
  ⟨h'.1, h'.2.trans (and_congr_left' (h.2.trans (and_iff_left not_false)))⟩

theorem Keeps.of_not {lost : Prop} (h : Keeps s t lost) (hlost : ¬ lost) : Keeps s t False :=
  ⟨h.1, h.2.trans (and_congr_right' (iff_of_true hlost not_false))⟩

/-- The object an open starts from is not read from the slots. -/
theorem openAt_set (s : Objects) (i : ℕ) (x : Option CounterObj) (o : CounterObj)
    (a : OpenAnswer) : (s.set i x).openAt i o a = s.openAt i o a := by
  simp only [openAt, set, Function.update_idem]

theorem keeps_event (hs : SoundObjects s) {e : Event} {a : OpenAnswer}
    (h : s.step (.event i e a) = some t) : Keeps s t False := by
  obtain ⟨u, hu, ht⟩ := Option.bind_eq_some_iff.mp h
  obtain ⟨hconstruct, hnone⟩ := keeps_construct hs rfl hu
  exact hconstruct.trans ((keeps_openAt hconstruct.1 ht).of_not (not_not.mpr hnone))

theorem keeps_reopen (hs : SoundObjects s) {pid : Option ℕ} {a : OpenAnswer}
    (h : s.step (.reopen i pid a) = some t) : Keeps s t False := by
  cases ho : s.object i with
  | none => simp [step, ho] at h
  | some o =>
    simp only [step, ho] at h
    split at h
    · let u := { s with table := s.table.closeSlot o.eFd }.set i (some { o with eFd := none })
      have hopen : u.openAt i o a = some t := (openAt_set _ _ _ _ _).trans h
      have hhold : u.hold = Function.update s.hold i none := hold_set _ _ _
      have hclose : Keeps s u False := keeps_closeSlot hs ho rfl hhold
      refine hclose.trans ((keeps_openAt hclose.1 hopen).of_not (not_not.mpr ?_))
      rw [hhold, Function.update_self]
    · cases h

theorem keeps_move (hs : SoundObjects s) {j : ℕ} (h : s.step (.move i j) = some t) :
    Keeps s t False := by
  cases hi : s.object i with
  | none => simp [step, hi] at h
  | some o =>
    cases hj : s.object j with
    | some o' => simp [step, hi, hj] at h
    | none =>
      simp only [step, hi, hj, Option.some.injEq] at h
      subst h
      have hne : j ≠ i := fun heq => absurd (heq ▸ hj) (by simp [hi])
      have hhold : ((s.set i (some { o with eFd := none, valid := false })).set j (some o)).hold =
          s.hold ∘ Equiv.swap i j := by
        funext k
        rw [hold_set, hold_set, Function.comp_apply, Equiv.swap_apply_def]
        by_cases hkj : k = j
        · simp [hkj, hne, hold, hi]
        by_cases hki : k = i
        · simp [hki, hne.symm, hold, hj]
        · simp [hkj, hki]
      unfold Keeps SoundObjects OwnedOnce
      rw [hhold, not_false_eq_true, and_true]
      exact ⟨hs.comp_equiv _, hs.owned_comp_equiv_iff _⟩

theorem keeps_destroy (hs : SoundObjects s) (h : s.step (.destroy i) = some t) :
    Keeps s t False := by
  cases ho : s.object i with
  | none => simp [step, ho] at h
  | some o =>
    simp only [step, ho, Option.some.injEq] at h
    subst h
    exact keeps_closeSlot hs ho rfl (hold_set _ _ _)

theorem keeps_use (hs : SoundObjects s) (h : s.step (.use i) = some t) : Keeps s t False := by
  cases ho : s.object i with
  | none => simp [step, ho] at h
  | some o =>
    cases hfd : o.eFd with
    | none =>
      simp only [step, ho, hfd, Option.some.injEq] at h
      exact h ▸ keeps_of_eq hs rfl rfl
    | some fd =>
      have hheld : s.hold i = some fd := by rw [hold, ho, Option.bind_some, hfd]
      simp only [step, ho, hfd] at h
      split at h
      · exact Option.some.inj h ▸ keeps_of_eq hs rfl rfl
      · exact Option.some.inj h ▸ keeps_of_eq hs (hs.use hheld) rfl

/-- A call on an existing object that changes none of its descriptors. -/
theorem keeps_modify (hs : SoundObjects s) {p : CounterObj → Prop} [DecidablePred p]
    {f : CounterObj → CounterObj} (hf : ∀ o, (f o).eFd = o.eFd)
    (h : (match s.object i with
      | some o => if p o then some (s.set i (some (f o))) else none
      | none => none) = some t) : Keeps s t False := by
  cases ho : s.object i with
  | none => simp [ho] at h
  | some o =>
    simp only [ho] at h
    split at h
    · exact Option.some.inj h ▸ keeps_of_eq hs rfl (hold_set_of_eq ho (hf o))
    · cases h

/-- An open on an existing object. -/
theorem keeps_open (hs : SoundObjects s) {p : CounterObj → Prop} [DecidablePred p]
    {a : OpenAnswer} (h : (match s.object i with
      | some o => if p o then s.openAt i o a else none
      | none => none) = some t) : Keeps s t (s.hold i ≠ none) := by
  cases ho : s.object i with
  | none => simp [ho] at h
  | some o =>
    simp only [ho] at h
    split at h
    · exact keeps_openAt hs h
    · cases h

/-- Every call keeps the invariant, and only those that overwrite lose a descriptor. -/
theorem keeps_step (hs : SoundObjects s) {c : CounterCall} (h : s.step c = some t) :
    Keeps s t (s.Overwrites c) := by
  cases c with
  | event i e a => exact keeps_event hs h
  | quiet i e => exact (keeps_construct hs rfl h).1
  | dynamicEvent i => exact (keeps_construct hs rfl h).1
  | dynamicEventOf i d exclKernel => exact (keeps_construct hs rfl h).1
  | configure i d exclKernel =>
    exact keeps_modify (p := fun o => o.kind = .dynamicEvent) (f := fun o =>
      { o with attr := d.configure exclKernel, prettyName := some d.name }) hs (fun _ => rfl) h
  | tdEvent i => exact (keeps_construct hs rfl h).1
  | tdConfigure i config exclKernel =>
    exact keeps_modify (p := fun o => o.kind = .tdEvent) (f := fun o =>
      { o with attr := Topdown.configure config exclKernel }) hs (fun _ => rfl) h
  | openCounter i pid a =>
    refine keeps_open (p := fun o => o.kind ≠ .tdEvent) hs (a := a) ?_
    simpa only [step, ne_eq, ite_not] using h
  | openPid i pid a => exact keeps_open hs h
  | reopen i pid a => exact keeps_reopen hs h
  | move i j => exact keeps_move hs h
  | destroy i => exact keeps_destroy hs h
  | use i => exact keeps_use hs h

/-! ### Histories -/

/-- Every open descriptor is stored in exactly one object, no call was made through a
descriptor that was not open, and once all objects are destroyed every descriptor the
kernel returned has been closed exactly once. -/
structure DescriptorsOwned (s : Objects) : Prop where
  owned : s.OwnedOnce
  no_stray : s.table.stray = false
  all_closed : (∀ i, s.object i = none) → ∀ k < s.table.next, s.table.closed k = 1

theorem soundObjects_initial : SoundObjects initial := Sound.empty

theorem ownedOnce_initial : OwnedOnce initial :=
  fun _ _ h => absurd h (by simp [initial, HandleTable.empty])

/-- In every history no closed descriptor is closed again or used. -/
theorem run_sound {cs : List CounterCall} (h : run step initial cs = some t) : SoundObjects t :=
  run_invariant (fun _ _ _ hs hstep => (keeps_step hs hstep).1) soundObjects_initial h

/-- With the invariant, the rest follows from unique ownership. -/
theorem descriptorsOwned_of_owned (hs : SoundObjects s) (ho : s.OwnedOnce) :
    DescriptorsOwned s where
  owned := ho
  no_stray := hs.stray
  all_closed hnone _ hk := by
    refine hs.closed_eq_one ho (fun i => ?_) hk
    rw [hold, hnone i, Option.bind_none]

theorem ownedOnce_iff {cs : List CounterCall} (h : run step initial cs = some t) :
    OwnedOnce t ↔ Along step (fun s c => ¬ s.Overwrites c) initial cs := by
  rw [← and_iff_right ownedOnce_initial (b := Along step _ initial cs)]
  exact run_iff_along (fun _ _ _ hs hstep => (keeps_step hs hstep).1)
    (fun _ _ _ hs hstep => (keeps_step hs hstep).2) soundObjects_initial h

/-- The descriptors are owned after a history exactly when no call of it opened an object
that still had a descriptor. -/
theorem descriptorsOwned_iff {cs : List CounterCall} (h : run step initial cs = some t) :
    DescriptorsOwned t ↔ Along step (fun s c => ¬ s.Overwrites c) initial cs :=
  ⟨fun hd => (ownedOnce_iff h).mp hd.owned,
    fun halong => descriptorsOwned_of_owned (run_sound h) ((ownedOnce_iff h).mpr halong)⟩

/-- An event is reopened, moved and destroyed. -/
def movedHistory : List CounterCall :=
  [.event 0 hardwareCycles (.fd 3), .reopen 0 (some 7) (.fd 3), .move 0 1, .use 1, .destroy 1,
    .destroy 0]

theorem descriptorsOwned_iff_moved : (run step initial movedHistory).isSome = true ∧
    ∀ t, run step initial movedHistory = some t → DescriptorsOwned t :=
  ⟨by decide, fun _ h => (descriptorsOwned_iff h).mpr (by decide)⟩

/-- An event opens in its constructor and is opened again. -/
def reopenedHistory : List CounterCall :=
  [.event 0 hardwareCycles (.fd 3), .openCounter 0 none (.fd 4), .destroy 0]

/-- The object is gone and its first descriptor was never closed. -/
theorem not_descriptorsOwned : (run step initial reopenedHistory).map
      (fun t => ((t.object 0).isNone, t.table.next, t.table.closed 0)) = some (true, 2, 0) ∧
    ∀ t, run step initial reopenedHistory = some t → ¬ DescriptorsOwned t :=
  ⟨by decide, fun _ h hd => absurd ((ownedOnce_iff h).mp hd.owned) (by decide)⟩

end Objects

end Bbench.Perf
