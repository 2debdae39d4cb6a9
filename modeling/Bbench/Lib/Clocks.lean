import Bbench.Lib.Transition
import Mathlib.Algebra.Order.Group.Int

/-! A machine that reads a clock at two of its steps, while the wall clock may be
set at any moment. The monotonic clock goes forward with the machine; the wall
clock shows the same time and an offset on top of it. Between the two readings
the clocks come apart by exactly the adjustments made there. -/

namespace Bbench.Clocks

open Transition

/-- What the two clocks show at one moment, in nanoseconds. -/
structure Instant where
  mono : ℕ
  wall : ℤ
  deriving DecidableEq, Repr

/-- The two readings. -/
inductive Mark
  | start | stop
  deriving DecidableEq, Repr

/-- A machine under a monotonic clock. It has a list of readings still to take, of
which it takes the first, or none, in each step; only by aborting does it drop them. -/
structure Timer (σ Λ : Type*) where
  step : σ → Λ → Option σ
  now : σ → ℕ
  aborted : σ → Prop
  pending : σ → List Mark
  mark : σ → Λ → Option Mark
  now_le : ∀ s l t, step s l = some t → now s ≤ now t
  aborted_step : ∀ s l t, step s l = some t → aborted s → aborted t
  pending_step : ∀ s l t, step s l = some t → ¬ aborted t →
    pending s = (mark s l).toList ++ pending t

/-- A step of the machine, or of whoever sets the wall clock. -/
inductive Event (Λ : Type*)
  | step (l : Λ)
  | adjust (ns : ℤ)
  deriving DecidableEq, Repr

/-- The machine with its last readings; `offset` is how far the wall clock is ahead. -/
structure Watched (σ : Type*) where
  state : σ
  offset : ℤ
  start : Instant
  stop : Instant
  deriving DecidableEq, Repr

namespace Timer

variable {σ Λ : Type*} (T : Timer σ Λ) {w v : Watched σ} {e : Event Λ} {es : List (Event Λ)}
  {net : ℤ}

def instant (w : Watched σ) : Instant := ⟨T.now w.state, T.now w.state + w.offset⟩

/-- Before the first reading. -/
def watched (s : σ) (offset : ℤ) : Watched σ := ⟨s, offset, ⟨0, 0⟩, ⟨0, 0⟩⟩

def watch (w : Watched σ) : Event Λ → Option (Watched σ)
  | .adjust ns => some { w with offset := w.offset + ns }
  | .step l => (T.step w.state l).map fun t =>
    match T.mark w.state l with
    | some .start => { w with state := t, start := T.instant w }
    | some .stop => { w with state := t, stop := T.instant w }
    | none => { w with state := t }

/-- What an event moves the wall clock by between the two readings. -/
def adjustment (w : Watched σ) : Event Λ → ℤ
  | .adjust ns => if T.pending w.state = [.stop] then ns else 0
  | .step _ => 0

/-- What an execution moves the wall clock by between the two readings. -/
def adjusted : Watched σ → List (Event Λ) → ℤ
  | _, [] => 0
  | w, e :: es => T.adjustment w e + match T.watch w e with
    | some v => adjusted v es
    | none => 0

/-- How far the clocks have come apart since the first reading, in each phase. -/
inductive Account (w : Watched σ) (net : ℤ) : Prop
  | before (pending : T.pending w.state = [.start, .stop]) (net_eq : net = 0)
  | running (pending : T.pending w.state = [.stop]) (le : w.start.mono ≤ T.now w.state)
    (apart : w.offset = w.start.wall - w.start.mono + net)
  | ended (pending : T.pending w.state = []) (le : w.start.mono ≤ w.stop.mono)
    (apart : w.stop.wall - w.stop.mono = w.start.wall - w.start.mono + net)

variable {T}

theorem watch_aborted (h : T.watch w e = some v) (hw : T.aborted w.state) : T.aborted v.state := by
  cases e with
  | adjust ns => cases h; exact hw
  | step l =>
    simp only [watch, Option.map_eq_some_iff] at h
    obtain ⟨t, ht, rfl⟩ := h
    have := T.aborted_step _ _ _ ht hw
    split <;> exact this

theorem run_aborted (h : run T.watch w es = some v) (hv : ¬ T.aborted v.state) :
    ¬ T.aborted w.state := fun hw =>
  hv (run_invariant (I := fun w => T.aborted w.state) (fun _ _ _ hw h => watch_aborted h hw) hw h)

namespace Account

/-- Setting the wall clock counts while the second reading is outstanding. -/
theorem adjust (hw : T.Account w net) (ns : ℤ) :
    T.Account { w with offset := w.offset + ns } (net + T.adjustment w (.adjust ns)) := by
  cases hw with
  | before pending net_eq =>
    refine .before pending ?_
    simp [adjustment, pending, net_eq]
  | running pending le apart =>
    refine .running pending le ?_
    simp only [adjustment, pending, if_true]
    omega
  | ended pending le apart =>
    refine .ended pending le ?_
    simpa [adjustment, pending] using apart

/-- Each step takes the reading of its phase, or none. -/
theorem step {l : Λ} (hw : T.Account w net) (h : T.watch w (.step l) = some v)
    (hv : ¬ T.aborted v.state) : T.Account v net := by
  simp only [watch, Option.map_eq_some_iff] at h
  obtain ⟨t, ht, rfl⟩ := h
  have hle := T.now_le _ _ _ ht
  have hpending : ¬ T.aborted t → T.pending w.state = (T.mark w.state l).toList ++ T.pending t :=
    T.pending_step _ _ _ ht
  split at hv <;> rename_i hmark <;> specialize hpending hv <;>
    simp only [hmark, Option.toList_some, Option.toList_none, List.nil_append,
      List.singleton_append] at hpending
  · cases hw with
    | before pending net_eq =>
      rw [pending, List.cons.injEq] at hpending
      refine .running hpending.2.symm hle ?_
      simp only [instant]
      omega
    | running pending le apart => simp [pending] at hpending
    | ended pending le apart => simp [pending] at hpending
  · cases hw with
    | before pending net_eq => simp [pending] at hpending
    | running pending le apart =>
      rw [pending, List.cons.injEq] at hpending
      refine .ended hpending.2.symm le ?_
      simp only [instant]
      omega
    | ended pending le apart => simp [pending] at hpending
  · cases hw with
    | before pending net_eq => exact .before (hpending ▸ pending) net_eq
    | running pending le apart => exact .running (hpending ▸ pending) (le.trans hle) apart
    | ended pending le apart => exact .ended (hpending ▸ pending) le apart

theorem event (hw : T.Account w net) (h : T.watch w e = some v) (hv : ¬ T.aborted v.state) :
    T.Account v (net + T.adjustment w e) := by
  cases e with
  | adjust ns => cases h; exact hw.adjust ns
  | step l => simpa [adjustment] using hw.step h hv

theorem run (hw : T.Account w net) (h : run T.watch w es = some v) (hv : ¬ T.aborted v.state) :
    T.Account v (net + T.adjusted w es) := by
  induction es generalizing w net with
  | nil => cases h; simpa [adjusted] using hw
  | cons e es ih =>
    obtain ⟨u, hu, hrun⟩ := run_cons_eq_some.mp h
    have hnext := ih (hw.event hu (run_aborted hrun hv)) hrun
    simpa only [adjusted, hu, add_assoc] using hnext

end Account

/-- Over an execution that takes both readings, the monotonic clock goes forward, and the
wall clock goes as far and by the adjustments in between. -/
theorem elapsed (hw : T.pending w.state = [.start, .stop]) (h : run T.watch w es = some v)
    (hv : T.pending v.state = []) (hok : ¬ T.aborted v.state) :
    v.start.mono ≤ v.stop.mono ∧
      v.stop.wall - v.start.wall = (v.stop.mono - v.start.mono : ℤ) + T.adjusted w es := by
  have haccount : T.Account w 0 := .before hw rfl
  cases haccount.run h hok with
  | before pending net_eq => rw [hv] at pending; cases pending
  | running pending le apart => rw [hv] at pending; cases pending
  | ended pending le apart => exact ⟨le, by omega⟩

end Timer

end Bbench.Clocks
