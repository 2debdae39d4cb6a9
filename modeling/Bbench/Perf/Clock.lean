import Bbench.Lib.Clocks
import Mathlib.Algebra.Order.Field.Rat
import Mathlib.Tactic.FieldSimp
import Mathlib.Tactic.Ring

/-! The system clocks of `perf.hpp` and `clock.hpp`. A reading is split into seconds
and nanoseconds, and an elapsed time is put together from the differences of the
two parts, in the unit asked for. A `double` is the number it stands for, without
rounding. -/

namespace Bbench.Perf

open Clocks

/-- `timespec_t`. -/
structure Timespec where
  tvSec : ℤ
  tvNsec : ℤ
  deriving DecidableEq, Repr

/-- The kernel keeps the nanoseconds below a second. -/
def Timespec.ofNs (ns : ℤ) : Timespec := ⟨ns / 10 ^ 9, ns % 10 ^ 9⟩

/-- The enumerators of `system_clocks` for `CLOCK_REALTIME`, `CLOCK_REALTIME_ALARM` and
`CLOCK_MONOTONIC`. -/
inductive SystemClocks
  | realtimeSet | realtime | monotonic
  deriving DecidableEq, Repr

def clockGettime : SystemClocks → Instant → Timespec
  | .realtimeSet, i | .realtime, i => .ofNs i.wall
  | .monotonic, i => .ofNs i.mono

/-- `system_clock<C>`, by the two readings it holds. -/
structure SystemClock where
  timeBegin : Timespec
  timeEnd : Timespec
  deriving DecidableEq, Repr

/-- The clock `C` after `start_get` and `stop_get` at these moments. -/
def systemClock (C : SystemClocks) (start stop : Instant) : SystemClock :=
  ⟨clockGettime C start, clockGettime C stop⟩

/-- `time_clock` and `time_clock_mono`. -/
def timeClock : Instant → Instant → SystemClock := systemClock .realtime
def timeClockMono : Instant → Instant → SystemClock := systemClock .monotonic

inductive TimeResolution
  | seconds | sec | deciseconds | ds | milliseconds | ms | microseconds | us | nanoseconds | ns
  deriving DecidableEq, Repr

/-- `micron::milliseconds` and its siblings, which turn seconds into smaller units. -/
structure Units where
  milliseconds : ℚ → ℚ
  microseconds : ℚ → ℚ
  nanoseconds : ℚ → ℚ

structure Units.Convert (u : Units) : Prop where
  milliseconds (sec : ℚ) : u.milliseconds sec = sec * 10 ^ 3
  microseconds (sec : ℚ) : u.microseconds sec = sec * 10 ^ 6
  nanoseconds (sec : ℚ) : u.nanoseconds sec = sec * 10 ^ 9

namespace SystemClock

variable (u : Units) (c : SystemClock)

/-- The two differences every `read` function starts with. -/
def sec : ℚ := (c.timeEnd.tvSec - c.timeBegin.tvSec : ℤ)
def nsec : ℚ := (c.timeEnd.tvNsec - c.timeBegin.tvNsec : ℤ)

def read : ℚ := c.sec + c.nsec / 10 ^ 9
def readDs : ℚ := c.read * 10
def readMs : ℚ := u.milliseconds c.sec + c.nsec / 10 ^ 6
def readUs : ℚ := u.microseconds c.sec + c.nsec / 10 ^ 3
def readNs : ℚ := u.nanoseconds c.sec + c.nsec

/-- `clock::elapsed<R>`. -/
def elapsed : TimeResolution → ℚ
  | .seconds | .sec => c.read
  | .deciseconds | .ds => c.readDs
  | .milliseconds | .ms => c.readMs u
  | .microseconds | .us => c.readUs u
  | .nanoseconds | .ns => c.readNs u

end SystemClock

/-- The length of a time unit, in nanoseconds. -/
def TimeResolution.length : TimeResolution → ℕ
  | .seconds | .sec => 10 ^ 9
  | .deciseconds | .ds => 10 ^ 8
  | .milliseconds | .ms => 10 ^ 6
  | .microseconds | .us => 10 ^ 3
  | .nanoseconds | .ns => 1

theorem TimeResolution.length_pos (R : TimeResolution) : (0 : ℚ) < R.length := by
  cases R <;> norm_num [length]

/-- A number of nanoseconds, in the unit. -/
def TimeResolution.ofNs (R : TimeResolution) (ns : ℤ) : ℚ := ns / R.length

theorem TimeResolution.ofNs_inj {R : TimeResolution} {a b : ℤ} : R.ofNs a = R.ofNs b ↔ a = b := by
  rw [ofNs, ofNs, div_left_inj' R.length_pos.ne', Int.cast_inj]

theorem TimeResolution.ofNs_nonneg {R : TimeResolution} {a : ℤ} (ha : 0 ≤ a) : 0 ≤ R.ofNs a :=
  div_nonneg (Int.cast_nonneg ha) R.length_pos.le

/-- Seconds and nanoseconds together are the time between the two readings. -/
theorem sec_mul_add_nsec (a b : ℤ) : (⟨.ofNs a, .ofNs b⟩ : SystemClock).sec * 10 ^ 9 +
    (⟨.ofNs a, .ofNs b⟩ : SystemClock).nsec = (b - a : ℤ) := by
  have hsplit : (b / 10 ^ 9 - a / 10 ^ 9) * 10 ^ 9 + (b % 10 ^ 9 - a % 10 ^ 9) = b - a := by omega
  simp only [SystemClock.sec, SystemClock.nsec, Timespec.ofNs]
  rw [← hsplit]
  push_cast
  ring

/-- Whatever the borrow, the elapsed time is the difference of the readings. -/
theorem elapsed_ofNs {u : Units} (hu : u.Convert) (R : TimeResolution) (a b : ℤ) :
    (⟨.ofNs a, .ofNs b⟩ : SystemClock).elapsed u R = R.ofNs (b - a) := by
  rw [TimeResolution.ofNs, ← sec_mul_add_nsec, eq_div_iff R.length_pos.ne']
  cases R <;> simp only [SystemClock.elapsed, SystemClock.read, SystemClock.readDs,
    SystemClock.readMs, SystemClock.readUs, SystemClock.readNs, hu.milliseconds, hu.microseconds,
    hu.nanoseconds, TimeResolution.length] <;> push_cast <;> ring

theorem elapsed_timeClock {u : Units} (hu : u.Convert) (R : TimeResolution) (i j : Instant) :
    (timeClock i j).elapsed u R = R.ofNs (j.wall - i.wall) := elapsed_ofNs hu R _ _

theorem elapsed_timeClockMono {u : Units} (hu : u.Convert) (R : TimeResolution) (i j : Instant) :
    (timeClockMono i j).elapsed u R = R.ofNs (j.mono - i.mono) := elapsed_ofNs hu R _ _

end Bbench.Perf
