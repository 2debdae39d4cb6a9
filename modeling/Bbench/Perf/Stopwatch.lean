import Bbench.Lib.LastWrite
import Bbench.Perf.Clock

/-! The stopwatch of `clock.hpp`. `begin` overwrites the start and nothing else, so the
laps of an earlier measurement stay, and until the next lap the last of them is read
against the new start. -/

namespace Bbench.Perf

open LastWrite

namespace Stopwatch

/-- The member functions that read the clock. -/
inductive Call
  | begin | lap | finish
  deriving DecidableEq, Repr

/-- A call, with what the clock shows in it. -/
structure Event where
  call : Call
  ns : ℤ
  deriving DecidableEq, Repr

/-- A reading, with the number of the call that took it. The code keeps only the time. -/
structure Stamp where
  ns : ℤ
  call : ℕ
  deriving DecidableEq, Repr

def Stamp.time (s : Stamp) : Timespec := .ofNs s.ns

end Stopwatch

open Stopwatch

/-- `stopwatch<C>`, with the two readings of its base. -/
structure Stopwatch where
  timeBegin : Stamp
  timeEnd : Stamp
  start : Stamp
  last : Stamp
  laps : List Stamp
  deriving DecidableEq, Repr

/-- `read_ms(t, ts)`. -/
def readMs (u : Units) (t ts : Timespec) : ℚ :=
  u.milliseconds (t.tvSec - ts.tvSec : ℤ) + (t.tvNsec - ts.tvNsec : ℤ) / 10 ^ 6

namespace Stopwatch

variable (u : Units) (sw : Stopwatch)

/-- A call that reads `now`: `start_get` for `begin`, `stop_get` for the other two. -/
def step (c : Call) (now : Stamp) : Stopwatch :=
  match c with
  | .begin => { sw with timeBegin := now, start := now }
  | .lap | .finish => { sw with timeEnd := now, last := now, laps := sw.laps ++ [now] }

/-- `elapsed`. -/
def elapsed : ℚ := if sw.laps.isEmpty then -1 else readMs u sw.last.time sw.start.time

/-- The two readings `elapsed` is derived from, if it is derived from any. -/
def source : Option (Stamp × Stamp) := if sw.laps.isEmpty then none else some (sw.last, sw.start)

/-! ### Histories -/

/-- The calls with their readings. -/
def stamped (h : List Event) : List (Call × Stamp) := h.mapIdx fun i e => (e.call, ⟨e.ns, i⟩)

def run (h : List Event) : Stopwatch := (stamped h).foldl (fun sw e => sw.step e.1 e.2) sw

def beginStamp (e : Call × Stamp) : Option Stamp := if e.1 = .begin then some e.2 else none

def markStamp (e : Call × Stamp) : Option Stamp := if e.1 = .begin then none else some e.2

/-- The readings of the `begin`s. -/
def begins (h : List Event) : List Stamp := (stamped h).filterMap beginStamp

/-- The readings of the laps and ends. -/
def marks (h : List Event) : List Stamp := (stamped h).filterMap markStamp

/-- There is a lap or an end since the most recent `begin`. -/
def Fresh (h : List Event) : Prop := ∃ m ∈ marks h, ∀ b ∈ begins h, b.call < m.call

/-- A stopwatch measures, after a history: `elapsed` is −1 without a lap or end since the
most recent `begin`, and with one the milliseconds from that `begin` to the most recent
lap or end; nothing is derived from a reading before the most recent `begin`. -/
def Measures (h : List Event) : Prop :=
  (¬ Fresh h → sw.elapsed u = -1) ∧
  (∀ b m, (begins h).getLast? = some b → (marks h).getLast? = some m → Fresh h →
    sw.elapsed u = TimeResolution.ofNs .ms (m.ns - b.ns) ∧ 0 ≤ sw.elapsed u) ∧
  ∀ lap start, sw.source = some (lap, start) → ∀ b ∈ begins h, b.call < lap.call

variable {u sw} {h : List Event}

/-! ### What the fields hold -/

theorem start_run (h : List Event) :
    (sw.run h).start = ((begins h).getLast?).getD sw.start := by
  have hstep : ∀ (sw : Stopwatch) (e : Call × Stamp),
      (sw.step e.1 e.2).start = (beginStamp e).getD sw.start := by
    intro sw e
    obtain ⟨c, now⟩ := e
    cases c <;> rfl
  exact foldl_field hstep sw (stamped h)

theorem last_run (h : List Event) : (sw.run h).last = ((marks h).getLast?).getD sw.last := by
  have hstep : ∀ (sw : Stopwatch) (e : Call × Stamp),
      (sw.step e.1 e.2).last = (markStamp e).getD sw.last := by
    intro sw e
    obtain ⟨c, now⟩ := e
    cases c <;> rfl
  exact foldl_field hstep sw (stamped h)

/-- No call takes a lap away. -/
theorem laps_run (h : List Event) : (sw.run h).laps = sw.laps ++ marks h := by
  have hstep : ∀ (sw : Stopwatch) (e : Call × Stamp),
      (sw.step e.1 e.2).laps = sw.laps ++ (markStamp e).toList := by
    intro sw e
    obtain ⟨c, now⟩ := e
    cases c
    · exact (List.append_nil _).symm
    · rfl
    · rfl
  exact foldl_append hstep sw (stamped h)

/-- Whatever the borrow, two readings differ by their nanoseconds. -/
theorem readMs_time (hu : u.Convert) (a b : Stamp) :
    readMs u a.time b.time = TimeResolution.ofNs .ms (a.ns - b.ns) :=
  elapsed_ofNs hu .ms b.ns a.ns

/-- Before the first lap there is nothing to read. -/
theorem elapsed_run_of_marks_nil (hsw : sw.laps = []) (hm : marks h = []) :
    (sw.run h).elapsed u = -1 ∧ (sw.run h).source = none := by
  have hlaps : (sw.run h).laps = [] := by rw [laps_run, hsw, hm, List.append_nil]
  simp only [elapsed, source, hlaps, List.isEmpty_nil, if_true, and_self]

/-- After it, the most recent lap is read against the most recent `begin`, whichever of the
two came first. -/
theorem elapsed_run_of_last (hu : u.Convert) (sw : Stopwatch) {b m : Stamp}
    (hb : (begins h).getLast? = some b) (hm : (marks h).getLast? = some m) :
    (sw.run h).elapsed u = TimeResolution.ofNs .ms (m.ns - b.ns) ∧
      (sw.run h).source = some (m, b) := by
  have hlaps : (sw.run h).laps ≠ [] := by
    rw [laps_run]
    exact List.append_ne_nil_of_right_ne_nil _ (List.ne_nil_of_mem (List.mem_of_getLast? hm))
  have hempty : (sw.run h).laps.isEmpty = false := List.isEmpty_eq_false_iff.mpr hlaps
  have hlast : (sw.run h).last = m := by rw [last_run, hm, Option.getD_some]
  have hstart : (sw.run h).start = b := by rw [start_run, hb, Option.getD_some]
  simp only [elapsed, source, hempty, hlast, hstart, Bool.false_eq_true, if_false,
    readMs_time hu, and_self]

/-! ### The order of the calls -/

theorem stamped_pairwise (hmono : h.Pairwise fun e e' => e.ns ≤ e'.ns) :
    (stamped h).Pairwise fun e e' => e.2.call < e'.2.call ∧ e.2.ns ≤ e'.2.ns := by
  rw [List.pairwise_iff_getElem] at hmono ⊢
  intro i j hi hj hij
  simp only [stamped, List.length_mapIdx] at hi hj
  simp only [stamped, List.getElem_mapIdx]
  exact ⟨hij, hmono i j hi hj hij⟩

theorem beginStamp_eq {e : Call × Stamp} {b : Stamp} (h : beginStamp e = some b) : e.2 = b := by
  unfold beginStamp at h
  split_ifs at h
  exact Option.some.inj h

theorem markStamp_eq {e : Call × Stamp} {m : Stamp} (h : markStamp e = some m) : e.2 = m := by
  unfold markStamp at h
  split_ifs at h
  exact Option.some.inj h

/-- What is picked out of a history belongs to one of its calls. -/
theorem exists_call {pick : Call × Stamp → Option Stamp}
    (hpick : ∀ {e s}, pick e = some s → e.2 = s) {s : Stamp}
    (hs : s ∈ (stamped h).filterMap pick) : ∃ e ∈ stamped h, e.2 = s := by
  obtain ⟨e, he, hes⟩ := List.mem_filterMap.mp hs
  exact ⟨e, he, hpick hes⟩

/-- A call that comes after another one reads no less. -/
theorem ns_le_of_call_lt (hmono : h.Pairwise fun e e' => e.ns ≤ e'.ns) {b m : Stamp}
    (hb : b ∈ begins h) (hm : m ∈ marks h) (hlt : b.call < m.call) : b.ns ≤ m.ns := by
  obtain ⟨e, he, rfl⟩ := exists_call beginStamp_eq hb
  obtain ⟨e', he', rfl⟩ := exists_call markStamp_eq hm
  obtain ⟨i, hi, rfl⟩ := List.mem_iff_getElem.mp he
  obtain ⟨j, hj, rfl⟩ := List.mem_iff_getElem.mp he'
  have hpair := List.pairwise_iff_getElem.mp (stamped_pairwise hmono)
  have hij : i < j := by
    rcases lt_trichotomy i j with hij | rfl | hji
    · exact hij
    · exact absurd hlt (lt_irrefl _)
    · exact absurd (hpair j i hj hi hji).1 (Nat.lt_asymm hlt)
  exact (hpair i j hi hj hij).2

/-- The last lap was called after all the others. -/
theorem call_le_last (hmono : h.Pairwise fun e e' => e.ns ≤ e'.ns) {m last : Stamp}
    (hm : m ∈ marks h) (hlast : (marks h).getLast? = some last) : m.call ≤ last.call := by
  have hpair : (marks h).Pairwise fun m m' => m.call < m'.call := by
    refine (stamped_pairwise hmono).filterMap markStamp ?_
    intro e e' hlt m hm m' hm'
    rw [← markStamp_eq hm, ← markStamp_eq hm']
    exact hlt.1
  obtain ⟨l, hl⟩ := List.getLast?_eq_some_iff.mp hlast
  rw [hl] at hm hpair
  rcases List.mem_append.mp hm with hm | hm
  · exact ((List.pairwise_append.mp hpair).2.2 m hm last (List.mem_singleton_self _)).le
  · rw [List.mem_singleton.mp hm]

/-- So a fresh lap, where there is one, is the last. -/
theorem fresh_iff_last (hmono : h.Pairwise fun e e' => e.ns ≤ e'.ns) {last : Stamp}
    (hlast : (marks h).getLast? = some last) :
    Fresh h ↔ ∀ b ∈ begins h, b.call < last.call := by
  constructor
  · rintro ⟨m, hm, hall⟩ b hb
    exact (hall b hb).trans_le (call_le_last hmono hm hlast)
  · exact fun hall => ⟨last, List.mem_of_getLast? hlast, hall⟩

theorem exists_begins_last (hstart : h.head?.map Event.call = some .begin) :
    ∃ b, (begins h).getLast? = some b := by
  cases h with
  | nil => cases hstart
  | cons e h =>
    have hc : e.call = .begin := Option.some.inj hstart
    have hmem : (⟨e.ns, 0⟩ : Stamp) ∈ begins (e :: h) := by
      refine List.mem_filterMap.mpr ⟨(e.call, ⟨e.ns, 0⟩), ?_, if_pos hc⟩
      rw [stamped, List.mapIdx_cons]
      exact List.mem_cons_self
    exact ⟨_, List.getLast?_eq_getLast_of_ne_nil (List.ne_nil_of_mem hmem)⟩

/-! ### Results -/

/-- `begin` does not clear the laps, so the stopwatch measures exactly while there is a lap
since the most recent `begin`, or none at all. -/
theorem elapsed_measures_iff (hu : u.Convert) (sw : Stopwatch) (hsw : sw.laps = [])
    (h : List Event) (hstart : h.head?.map Event.call = some .begin)
    (hmono : h.Pairwise fun e e' => e.ns ≤ e'.ns) :
    Measures u (sw.run h) h ↔ marks h = [] ∨ Fresh h := by
  obtain ⟨b, hb⟩ := exists_begins_last hstart
  have hbmem : b ∈ begins h := List.mem_of_getLast? hb
  rcases hmarks : (marks h).getLast? with _ | m
  · -- No lap at all: both sides hold.
    have hnil : marks h = [] := List.getLast?_eq_none_iff.mp hmarks
    obtain ⟨hneg, hnone⟩ := elapsed_run_of_marks_nil (u := u) hsw hnil
    refine iff_of_true ⟨fun _ => hneg, fun _ m _ hm _ => ?_, fun lap start hs => ?_⟩ (.inl hnil)
    · rw [hnil] at hm
      cases hm
    · rw [hnone] at hs
      cases hs
  · obtain ⟨hread, hsource⟩ := elapsed_run_of_last hu sw hb hmarks
    have hmmem : m ∈ marks h := List.mem_of_getLast? hmarks
    constructor
    · rintro ⟨-, -, hderived⟩
      exact .inr ((fresh_iff_last hmono hmarks).mpr (hderived m b hsource))
    · rintro (hnil | hfresh)
      · rw [hnil] at hmmem
        exact absurd hmmem List.not_mem_nil
      have hall := (fresh_iff_last hmono hmarks).mp hfresh
      refine ⟨fun hnot => absurd hfresh hnot, fun b' m' hb' hm' _ => ?_, fun lap start hs => ?_⟩
      · obtain rfl : b = b' := Option.some.inj (hb.symm.trans hb')
        obtain rfl : m = m' := Option.some.inj (hmarks.symm.trans hm')
        refine ⟨hread, ?_⟩
        rw [hread]
        have hle := ns_le_of_call_lt hmono hbmem hmmem (hall b hbmem)
        exact TimeResolution.ofNs_nonneg (by omega)
      · rw [hsource] at hs
        cases hs
        exact hall

/-- A lap 5 ms after `begin`. -/
theorem elapsed_measures_lap :
    Measures ⟨(· * 10 ^ 3), (· * 10 ^ 6), (· * 10 ^ 9)⟩
      (run ⟨⟨0, 0⟩, ⟨0, 0⟩, ⟨0, 0⟩, ⟨0, 0⟩, []⟩ [⟨.begin, 0⟩, ⟨.lap, 5000000⟩])
      [⟨.begin, 0⟩, ⟨.lap, 5000000⟩] :=
  (elapsed_measures_iff ⟨fun _ => rfl, fun _ => rfl, fun _ => rfl⟩ _ rfl _ rfl (by simp)).mpr
    (.inr ⟨⟨5000000, 1⟩, by decide, by decide⟩)

/-- A second `begin` after a lap of 5 ms: the stopwatch reads −5 ms from it. -/
theorem not_elapsed_measures : ¬ ∀ u : Units, u.Convert → ∀ sw : Stopwatch, sw.laps = [] →
    ∀ h : List Event, h.head?.map Event.call = some .begin →
      (h.Pairwise fun e e' => e.ns ≤ e'.ns) → Measures u (sw.run h) h := by
  intro hall
  have hread := (hall ⟨(· * 10 ^ 3), (· * 10 ^ 6), (· * 10 ^ 9)⟩
    ⟨fun _ => rfl, fun _ => rfl, fun _ => rfl⟩ ⟨⟨0, 0⟩, ⟨0, 0⟩, ⟨0, 0⟩, ⟨0, 0⟩, []⟩ rfl
    [⟨.begin, 0⟩, ⟨.lap, 5000000⟩, ⟨.begin, 10000000⟩] rfl (by simp)).1
  have hfresh : ¬ Fresh [⟨.begin, 0⟩, ⟨.lap, 5000000⟩, ⟨.begin, 10000000⟩] := by
    rintro ⟨m, hm, hb⟩
    obtain rfl : m = ⟨5000000, 1⟩ := List.mem_singleton.mp hm
    exact absurd (hb ⟨10000000, 2⟩ (by decide)) (by decide)
  exact absurd (hread hfresh) (by decide +kernel)

end Stopwatch

end Bbench.Perf
