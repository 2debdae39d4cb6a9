import Bbench.Lib.Handles
import Bbench.Lib.Transition
import Mathlib.Logic.Equiv.Basic

/-! Who closes the descriptor of a sink. A sink closes what it owns when it is destroyed;
one of the standard streams owns nothing, and a move takes the ownership and leaves the
descriptor behind. So each file has one owner at any time and is closed once, and a call
on a sink that was moved from still writes to the file while its owner lives. -/

namespace Bbench.Report

open Lib Transition

/-- `sink`, with `none` for the `-1` of a file that could not be opened. -/
structure SinkObj where
  fd : Option Handle
  owned : Bool := false

/-- The sinks by the names the history gives them, and the kernel's descriptors. -/
structure Sinks where
  object : ℕ → Option SinkObj
  table : HandleTable

inductive SinkCall
  | stdoutSink (i : ℕ)
  | stderrSink (i : ℕ)
  /-- With the answer of `open`, an error or a number that is free. -/
  | fileSink (i : ℕ) (a : Option ℕ)
  /-- The sink `j` is constructed from `i` by a move. -/
  | move (i j : ℕ)
  | destroy (i : ℕ)
  /-- Any of the calls that write. -/
  | emit (i : ℕ)

/-- Standard input, output and error, which are open when `main` starts. -/
def stdHandle (k : Fin 3) : Handle := ⟨k, k⟩

namespace Sinks

def initial : Sinks := ⟨fun _ => none, ((HandleTable.empty.issue 0).issue 1).issue 2⟩

def set (s : Sinks) (i : ℕ) (o : Option SinkObj) : Sinks :=
  { s with object := Function.update s.object i o }

/-- A name that is free gets a new sink. -/
def construct (s : Sinks) (i : ℕ) (o : SinkObj) : Option Sinks :=
  match s.object i with
  | none => some (s.set i (some o))
  | some _ => none

def step (s : Sinks) : SinkCall → Option Sinks
  | .stdoutSink i => s.construct i { fd := some (stdHandle 1) }
  | .stderrSink i => s.construct i { fd := some (stdHandle 2) }
  | .fileSink i none => s.construct i { fd := none, owned := true }
  | .fileSink i (some n) =>
    if s.table.current n = none then
      (s.construct i { fd := some ⟨n, s.table.next⟩, owned := true }).map fun s' =>
        { s' with table := s.table.issue n }
    else none
  | .move i j =>
    match s.object i, s.object j with
    | some o, none => some ((s.set i (some { o with owned := false })).set j (some o))
    | _, _ => none
  | .destroy i =>
    match s.object i with
    | some o =>
      some { s.set i none with
        table := if o.owned then s.table.closeSlot o.fd else s.table }
    | none => none
  | .emit i =>
    match s.object i with
    | some o =>
      match o.fd with
      | some h => some { s with table := s.table.use h }
      | none => some s
    | none => none

/-! ### The slots of the table -/

/-- What the destructor of a sink closes. -/
def slot (o : SinkObj) : Option Handle := if o.owned then o.fd else none

/-- The sinks own what they close, and the process owns the standard streams. -/
def hold (s : Sinks) : ℕ ⊕ Fin 3 → Option Handle
  | .inl i => (s.object i).bind slot
  | .inr k => some (stdHandle k)

variable {s t : Sinks} {i : ℕ}

theorem hold_set (s : Sinks) (i : ℕ) (o : Option SinkObj) :
    (s.set i o).hold = Function.update s.hold (.inl i) (o.bind slot) := by
  funext k
  cases k with
  | inl j =>
    by_cases hj : j = i
    · simp [hold, set, hj]
    · simp [hold, set, hj]
  | inr k => simp [hold]

end Sinks

/-- The table without a look at stray uses. -/
def calm (t : HandleTable) : HandleTable := { t with stray := false }

/-- Each open descriptor has exactly one owner, and an owner's descriptor is open. -/
structure OneOwner {ι : Type*} (t : HandleTable) (hold : ι → Option Handle) : Prop where
  sound : Sound (calm t) hold
  owned : Owned (calm t) hold

namespace OneOwner
variable {ι : Type*} {t : HandleTable} {hold : ι → Option Handle} {x : ι}

theorem empty : OneOwner HandleTable.empty (fun _ : ι => none) :=
  ⟨Sound.empty, Sound.empty.owned_iff.mpr fun n k hn => by simp [HandleTable.empty] at hn⟩

/-- A descriptor is open exactly as long as it has an owner. -/
theorem open_iff (ht : OneOwner t hold) (h : Handle) :
    t.current h.num = some h.serial ↔ ∃ x, hold x = some h := by
  constructor
  · intro hopen
    obtain ⟨x, hx, -⟩ := ht.owned h.num h.serial hopen
    exact ⟨x, hx⟩
  · rintro ⟨x, hx⟩
    exact ht.sound.held_open x h hx

/-- What an owner closes is open, so nothing else is closed. -/
theorem calm_closeSlot (ht : OneOwner t hold) (x : ι) :
    calm (t.closeSlot (hold x)) = (calm t).closeSlot (hold x) := by
  cases hx : hold x with
  | none => rfl
  | some h =>
    have hopen : t.current h.num = some h.serial := ht.sound.held_open x h hx
    simp [calm, HandleTable.closeSlot, HandleTable.close, hopen]

theorem comp_equiv (ht : OneOwner t hold) (e : ι ≃ ι) : OneOwner t (hold ∘ e) :=
  ⟨ht.sound.comp_equiv e, (ht.sound.owned_comp_equiv_iff e).mpr ht.owned⟩

variable [DecidableEq ι]

/-- A free number goes to a slot that owns nothing. -/
theorem issue (ht : OneOwner t hold) (hx : hold x = none) {n : ℕ} (hn : t.current n = none) :
    OneOwner (t.issue n) (Function.update hold x (some ⟨n, t.next⟩)) :=
  ⟨ht.sound.issue x hn, (ht.sound.owned_issue_iff x hn).mpr ⟨ht.owned, hx⟩⟩

/-- A slot that owns nothing goes on owning nothing. -/
theorem forget (ht : OneOwner t hold) (hx : hold x = none) :
    OneOwner t (Function.update hold x none) :=
  ⟨ht.sound.forget x, (ht.sound.owned_forget_iff x).mpr ⟨ht.owned, hx⟩⟩

theorem closeSlot (ht : OneOwner t hold) (x : ι) :
    OneOwner (t.closeSlot (hold x)) (Function.update hold x none) := by
  have hcalm := ht.calm_closeSlot x
  exact ⟨hcalm ▸ ht.sound.closeSlot x, hcalm ▸ (ht.sound.owned_closeSlot_iff x).mpr ht.owned⟩

end OneOwner

namespace Sinks
variable {s t : Sinks} {i : ℕ}

theorem oneOwner_initial : OneOwner initial.table initial.hold := by
  have hempty : OneOwner HandleTable.empty (fun _ : ℕ ⊕ Fin 3 => none) := .empty
  have hfirst := hempty.issue (x := .inr 0) rfl (n := 0) rfl
  have hsecond := hfirst.issue (x := .inr 1) (by simp) (n := 1) rfl
  have hthird := hsecond.issue (x := .inr 2) (by simp) (n := 2) rfl
  have hhold : initial.hold = Function.update (Function.update (Function.update
      (fun _ => none) (.inr 0) (some ⟨0, 0⟩)) (.inr 1) (some ⟨1, 1⟩)) (.inr 2) (some ⟨2, 2⟩) := by
    funext k
    cases k with
    | inl j => rfl
    | inr k =>
      match k with
      | 0 => rfl
      | 1 => rfl
      | 2 => rfl
  rw [hhold]
  exact hthird

/-- A new sink that owns nothing. -/
theorem oneOwner_construct (hs : OneOwner s.table s.hold) {o : SinkObj} (ho : slot o = none)
    (h : s.construct i o = some t) : OneOwner t.table t.hold := by
  cases hi : s.object i with
  | some o' => simp [construct, hi] at h
  | none =>
    simp only [construct, hi, Option.some.injEq] at h
    subst h
    rw [hold_set, Option.bind_some, ho]
    exact hs.forget (by simp [hold, hi])

theorem oneOwner_file (hs : OneOwner s.table s.hold) {n : ℕ}
    (h : s.step (.fileSink i (some n)) = some t) : OneOwner t.table t.hold := by
  by_cases hn : s.table.current n = none
  · cases hi : s.object i with
    | some o => simp [step, construct, hn, hi] at h
    | none =>
      simp only [step, construct, hn, hi, if_true, Option.map_some, Option.some.injEq] at h
      subst h
      have hhold : ∀ t : HandleTable, ({ s.set i (some ⟨some ⟨n, s.table.next⟩, true⟩) with
          table := t } : Sinks).hold =
          Function.update s.hold (.inl i) (some ⟨n, s.table.next⟩) := fun _ => hold_set _ _ _
      rw [hhold]
      exact hs.issue (by simp [hold, hi]) hn
  · simp [step, hn] at h

/-- The ownership goes over, and the descriptor stays behind. -/
theorem oneOwner_move (hs : OneOwner s.table s.hold) {j : ℕ} (h : s.step (.move i j) = some t) :
    OneOwner t.table t.hold := by
  cases hi : s.object i with
  | none => simp [step, hi] at h
  | some o =>
    cases hj : s.object j with
    | some o' => simp [step, hi, hj] at h
    | none =>
      simp only [step, hi, hj, Option.some.injEq] at h
      subst h
      have hne : j ≠ i := fun heq => absurd (heq ▸ hj) (by simp [hi])
      have hhold : ((s.set i (some { o with owned := false })).set j (some o)).hold =
          s.hold ∘ Equiv.swap (.inl i) (.inl j) := by
        funext k
        rw [hold_set, hold_set, Function.comp_apply, Equiv.swap_apply_def]
        by_cases hkj : k = .inl j
        · simp [hkj, hne, hold, hi]
        by_cases hki : k = .inl i
        · simp [hki, hne.symm, hold, hj, slot]
        · simp [hkj, hki]
      rw [hhold]
      exact hs.comp_equiv _

theorem oneOwner_destroy (hs : OneOwner s.table s.hold) (h : s.step (.destroy i) = some t) :
    OneOwner t.table t.hold := by
  cases hi : s.object i with
  | none => simp [step, hi] at h
  | some o =>
    simp only [step, hi, Option.some.injEq] at h
    subst h
    have hslot : s.hold (.inl i) = slot o := by simp [hold, hi]
    have htable : (if o.owned then s.table.closeSlot o.fd else s.table) =
        s.table.closeSlot (s.hold (.inl i)) := by
      rw [hslot, slot]
      split <;> rfl
    have hhold : ∀ t : HandleTable, ({ s.set i none with table := t } : Sinks).hold =
        Function.update s.hold (.inl i) none := fun _ => hold_set _ _ _
    rw [hhold, htable]
    exact hs.closeSlot _

theorem oneOwner_emit (hs : OneOwner s.table s.hold) (h : s.step (.emit i) = some t) :
    OneOwner t.table t.hold := by
  cases hi : s.object i with
  | none => simp [step, hi] at h
  | some o =>
    cases hfd : o.fd with
    | none =>
      simp only [step, hi, hfd, Option.some.injEq] at h
      exact h ▸ hs
    | some fd =>
      simp only [step, hi, hfd, Option.some.injEq] at h
      subst h
      exact ⟨hs.sound, hs.owned⟩

theorem oneOwner_step (hs : OneOwner s.table s.hold) {c : SinkCall} (h : s.step c = some t) :
    OneOwner t.table t.hold := by
  cases c with
  | stdoutSink i => exact oneOwner_construct hs rfl h
  | stderrSink i => exact oneOwner_construct hs rfl h
  | fileSink i a =>
    cases a with
    | none => exact oneOwner_construct hs rfl h
    | some n => exact oneOwner_file hs h
  | move i j => exact oneOwner_move hs h
  | destroy i => exact oneOwner_destroy hs h
  | emit i => exact oneOwner_emit hs h

/-! ### Stray calls -/

/-- The descriptor of a sink that is written to has an owner, be it another sink. -/
def Owns (s : Sinks) : SinkCall → Prop
  | .emit i => ∀ h, (s.object i).bind SinkObj.fd = some h → ∃ x, s.hold x = some h
  | _ => True

theorem construct_table {o : SinkObj} (h : s.construct i o = some t) : t.table = s.table := by
  cases hi : s.object i with
  | some o' => simp [construct, hi] at h
  | none =>
    simp only [construct, hi, Option.some.injEq] at h
    subst h
    rfl

/-- No sink closes a descriptor that is not open. -/
theorem destroy_stray (hs : OneOwner s.table s.hold) (h : s.step (.destroy i) = some t) :
    t.table.stray = s.table.stray := by
  cases hi : s.object i with
  | none => simp [step, hi] at h
  | some o =>
    simp only [step, hi, Option.some.injEq] at h
    subst h
    cases hslot : slot o with
    | none =>
      cases hown : o.owned with
      | false => rfl
      | true =>
        have hfd : o.fd = none := by simpa [slot, hown] using hslot
        simp [hfd, HandleTable.closeSlot]
    | some fd =>
      obtain ⟨hown, hfd⟩ : o.owned = true ∧ o.fd = some fd := by
        simpa [slot] using hslot
      have hopen : s.table.current fd.num = some fd.serial :=
        hs.sound.held_open (.inl i) fd (by simp [hold, hi, hslot])
      simp [hown, hfd, HandleTable.closeSlot, HandleTable.close, hopen]

theorem stray_quiet {c : SinkCall} (hc : s.Owns c) (h : t.table.stray = s.table.stray) :
    t.table.stray = false ↔ s.table.stray = false ∧ s.Owns c := by
  rw [h, and_iff_left hc]

/-- A call is stray only if it writes to a descriptor without an owner. -/
theorem stray_step (hs : OneOwner s.table s.hold) {c : SinkCall} (h : s.step c = some t) :
    t.table.stray = false ↔ s.table.stray = false ∧ s.Owns c := by
  cases c with
  | stdoutSink i => exact stray_quiet trivial (by rw [construct_table h])
  | stderrSink i => exact stray_quiet trivial (by rw [construct_table h])
  | fileSink i a =>
    cases a with
    | none => exact stray_quiet trivial (by rw [construct_table h])
    | some n =>
      refine stray_quiet trivial ?_
      simp only [step] at h
      split at h
      · obtain ⟨s', hs', rfl⟩ := Option.map_eq_some_iff.mp h
        rfl
      · cases h
  | move i j =>
    refine stray_quiet trivial ?_
    simp only [step] at h
    split at h
    · cases h
      rfl
    · cases h
  | destroy i => exact stray_quiet trivial (destroy_stray hs h)
  | emit i =>
    cases hi : s.object i with
    | none => simp [step, hi] at h
    | some o =>
      cases hfd : o.fd with
      | none =>
        simp only [step, hi, hfd, Option.some.injEq] at h
        exact h ▸ stray_quiet (by simp [Owns, hi, hfd]) rfl
      | some fd =>
        simp only [step, hi, hfd, Option.some.injEq] at h
        have howns : s.Owns (.emit i) ↔ s.table.current fd.num = some fd.serial := by
          rw [hs.open_iff fd]
          simp [Owns, hi, hfd]
        rw [howns, ← h]
        simp [HandleTable.use]

/-! ### Histories -/

/-- What every history of sinks keeps. -/
structure Kept (s : Sinks) : Prop where
  /-- Every open descriptor has exactly one owner. -/
  owner : Owned s.table s.hold
  /-- The standard streams are never closed. -/
  std : ∀ k : Fin 3, s.table.current k = some k.val
  /-- Nothing is closed twice. -/
  once : ∀ k, s.table.closed k ≤ 1
  /-- When no sink is left, every file was closed. -/
  ended : (∀ i, s.object i = none) → ∀ k, 3 ≤ k → k < s.table.next → s.table.closed k = 1

theorem kept_of_oneOwner (hs : OneOwner s.table s.hold) : s.Kept where
  owner := hs.owned
  std k := hs.sound.held_open (.inr k) (stdHandle k) rfl
  once k := by
    rcases Nat.lt_or_ge k s.table.next with hlt | hge
    · by_cases hopen : ∃ n, s.table.current n = some k
      · obtain ⟨n, hn⟩ := hopen
        have hzero : s.table.closed k = 0 := hs.sound.closed_open n k hn
        omega
      · have hone : s.table.closed k = 1 :=
          hs.sound.closed_gone k hlt fun n hn => hopen ⟨n, hn⟩
        omega
    · have hzero : s.table.closed k = 0 := hs.sound.closed_new k hge
      omega
  ended hnone k hk hlt := by
    refine hs.sound.closed_gone k hlt fun n hn => ?_
    obtain ⟨x, hx, -⟩ := hs.owned n k hn
    cases x with
    | inl i => simp [hold, hnone i] at hx
    | inr j =>
      have hserial : (j : ℕ) = k := congrArg Handle.serial (Option.some.inj hx)
      omega

/-- What sinks do with descriptors. In every history of sinks that are made for a standard
stream or a file, moved, written to and destroyed, each file has one owner and is closed
once, by the last one, and no standard stream is closed. A write is stray exactly if the
descriptor has no owner any more, so it is through a sink that was moved from. -/
theorem sinks_kept {cs : List SinkCall} {s : Sinks} (h : run step initial cs = some s) :
    s.Kept ∧ (s.table.stray = false ↔ Along step Owns initial cs) := by
  have hkept : OneOwner s.table s.hold :=
    run_invariant (I := fun s => OneOwner s.table s.hold) (fun _ _ _ hs h => oneOwner_step hs h)
      oneOwner_initial h
  have hstray := run_iff_along (I := fun s => OneOwner s.table s.hold)
    (Q := fun s => s.table.stray = false) (P := Owns) (fun _ _ _ hs h => oneOwner_step hs h)
    (fun _ _ _ hs h => stray_step hs h) oneOwner_initial h
  exact ⟨kept_of_oneOwner hkept, hstray.trans (and_iff_right rfl)⟩

/-- A file sink that is moved and then still written to. -/
theorem sinks_kept_moved : ∃ s, run step initial
    [.fileSink 0 (some 3), .move 0 1, .emit 0, .destroy 1, .destroy 0] = some s ∧
    s.Kept ∧ (s.table.stray = false ↔ Along step Owns initial
      [.fileSink 0 (some 3), .move 0 1, .emit 0, .destroy 1, .destroy 0]) :=
  ⟨_, rfl, sinks_kept rfl⟩

end Sinks

end Bbench.Report
