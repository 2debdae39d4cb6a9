import Bbench.Perf.Reading
import Bbench.Perf.Topdown

/-! The top-down breakdown. `measure_bin` opens five raw counters on the child and
divides four of them by the fifth. A counter that did not open reads zero; only for
the slots is that noticed. -/

namespace Bbench.Report

open Perf

structure TopdownT where
  frontend : ℚ := 0
  backend : ℚ := 0
  badSpec : ℚ := 0
  retiring : ℚ := 0
  supported : Bool := false
  deriving DecidableEq, Repr

/-- `open_pid` returned a descriptor. -/
def isOpened : Outcome → Bool
  | .opened _ => true
  | .failed _ => false

/-- The probe: the answer is remembered from the first call on. -/
def tdSupported (cached : Option Bool) (probe : Outcome) : Bool :=
  match cached with
  | some b => b
  | none => isOpened probe

/-- What the kernel answers to the five opens, each with its attributes. -/
abbrev TdAnswers := PerfEventAttr → Outcome

/-- The attributes one of the five counters is opened with. -/
def tdAttr (config : UInt64) (opts : BenchmarkOpts) : PerfEventAttr :=
  (Topdown.configure config opts.exclKernel).setEnableOnExec true

section Measure
variable (fl : ℚ → ℚ) (opts : BenchmarkOpts) (kernel : TdAnswers)

/-- The number one of the five counters reads at the end. -/
def tdCount (config : UInt64) : ℤ := retrieveScaled fl (kernel (tdAttr config opts))

/-- `measure_bin`, with what the probe has answered before and would answer now. -/
def measureBin (cached : Option Bool) (probe : Outcome) : TopdownT :=
  if tdSupported cached probe then
    let s := tdCount fl opts kernel Topdown.tdSlots
    if s = 0 then {}
    else
      { retiring := tdCount fl opts kernel Topdown.tdRetiring / s
        badSpec := tdCount fl opts kernel Topdown.tdBadSpec / s
        frontend := tdCount fl opts kernel Topdown.tdFeBound / s
        backend := tdCount fl opts kernel Topdown.tdBeBound / s
        supported := true }
  else {}

end Measure

/-- The four categories, in the order of the sum. -/
def tdCategories : List UInt64 :=
  [Topdown.tdRetiring, Topdown.tdBadSpec, Topdown.tdFeBound, Topdown.tdBeBound]

def tdConfigs : List UInt64 := Topdown.tdSlots :: tdCategories

/-- Four fractions that make up the whole. -/
structure TopdownT.IsBreakdown (td : TopdownT) : Prop where
  retiring : 0 ≤ td.retiring ∧ td.retiring ≤ 1
  badSpec : 0 ≤ td.badSpec ∧ td.badSpec ≤ 1
  frontend : 0 ≤ td.frontend ∧ td.frontend ≤ 1
  backend : 0 ≤ td.backend ∧ td.backend ≤ 1
  sum : td.retiring + td.badSpec + td.frontend + td.backend = 1

section Sound
variable (fl : ℚ → ℚ) (opts : BenchmarkOpts) (kernel : TdAnswers)

def AllOpened : Prop := ∀ config ∈ tdConfigs, isOpened (kernel (tdAttr config opts)) = true

instance : Decidable (AllOpened opts kernel) :=
  List.decidableBAll (fun config => isOpened (kernel (tdAttr config opts)) = true) tdConfigs

/-- With all five counters open, the categories add up to the slots. -/
def Partitioned : Prop := AllOpened opts kernel →
  (tdCategories.map (tdCount fl opts kernel)).sum = tdCount fl opts kernel Topdown.tdSlots

/-- A result is a breakdown when it says so, and only says so with all counters open. -/
def TopdownSound (td : TopdownT) : Prop :=
  (td.supported = true → td.IsBreakdown) ∧ (¬ AllOpened opts kernel → td.supported = false)

/-- The counts have the sign of the slots, so that no fraction is negative. -/
def SameSign : Prop := ∀ config ∈ tdCategories,
  0 ≤ tdCount fl opts kernel config * tdCount fl opts kernel Topdown.tdSlots

variable {fl opts kernel}

theorem div_nonneg_iff_mul {c s : ℤ} (hs : s ≠ 0) : 0 ≤ (c : ℚ) / s ↔ 0 ≤ c * s := by
  have hs' : (0 : ℚ) < (s : ℚ) ^ 2 := by positivity
  have hmul : (c : ℚ) / s * (s : ℚ) ^ 2 = ((c * s : ℤ) : ℚ) := by
    push_cast
    field_simp
  rw [← mul_nonneg_iff_of_pos_right hs', hmul, Int.cast_nonneg_iff]

/-- Four quotients of counts that add up to their denominator. -/
theorem isBreakdown_iff {s : ℤ} (hs : s ≠ 0) {a b c d : ℤ} (hsum : a + b + c + d = s) :
    TopdownT.IsBreakdown ⟨c / s, d / s, b / s, a / s, true⟩ ↔
      0 ≤ a * s ∧ 0 ≤ b * s ∧ 0 ≤ c * s ∧ 0 ≤ d * s := by
  have hs' : (s : ℚ) ≠ 0 := Int.cast_ne_zero.mpr hs
  have hone : (a : ℚ) / s + b / s + c / s + d / s = 1 := by
    rw [← add_div, ← add_div, ← add_div, div_eq_one_iff_eq hs']
    exact_mod_cast hsum
  simp only [← div_nonneg_iff_mul hs]
  constructor
  · rintro ⟨ha, hb, hc, hd, -⟩
    exact ⟨ha.1, hb.1, hc.1, hd.1⟩
  · rintro ⟨ha, hb, hc, hd⟩
    exact ⟨⟨ha, by linarith⟩, ⟨hb, by linarith⟩, ⟨hc, by linarith⟩, ⟨hd, by linarith⟩, hone⟩

/-- The result is sound exactly when nothing is reported, or all five counters opened and
no count has the wrong sign. -/
theorem measureBin_sound_iff (hpart : Partitioned fl opts kernel) (cached : Option Bool)
    (probe : Outcome) : TopdownSound opts kernel (measureBin fl opts kernel cached probe) ↔
      tdSupported cached probe = false ∨ tdCount fl opts kernel Topdown.tdSlots = 0 ∨
        (AllOpened opts kernel ∧ SameSign fl opts kernel) := by
  unfold measureBin
  cases hprobe : tdSupported cached probe with
  | false => simp [TopdownSound]
  | true =>
    by_cases hs : tdCount fl opts kernel Topdown.tdSlots = 0
    · simp [TopdownSound, hs]
    simp only [if_true, hs, if_false, TopdownSound, Bool.true_eq_false, false_or, forall_const,
      imp_false, not_not]
    rw [and_comm]
    refine and_congr_right fun hall => ?_
    have hsum := hpart hall
    simp only [tdCategories, List.map_cons, List.map_nil, List.sum_cons, List.sum_nil] at hsum
    rw [isBreakdown_iff hs (by omega), SameSign, tdCategories]
    simp only [List.forall_mem_cons, List.not_mem_nil, false_implies, implies_true, and_true]

end Sound

/-- A kernel that answers each configuration with a fully counted value. -/
def countKernel (count : UInt64 → Option (BitVec 64)) : TdAnswers := fun attr =>
  match count attr.config with
  | some v => .opened ⟨v, 1, 1⟩
  | none => .failed 2

section Counts
variable (count : UInt64 → Option (BitVec 64)) (opts : BenchmarkOpts) (config : UInt64)

theorem countKernel_tdAttr : countKernel count (tdAttr config opts) =
    match count config with
    | some v => .opened ⟨v, 1, 1⟩
    | none => .failed 2 := rfl

@[simp] theorem isOpened_countKernel :
    isOpened (countKernel count (tdAttr config opts)) = (count config).isSome := by
  rw [countKernel_tdAttr]
  cases count config <;> rfl

@[simp] theorem tdCount_countKernel :
    tdCount id opts (countKernel count) config = (count config).elim 0 BitVec.toInt := by
  rw [tdCount, countKernel_tdAttr]
  cases count config with
  | none => rfl
  | some v => exact scaledCount_of_eq (r := ⟨v, 1, 1⟩) (by simp) rfl

end Counts

/-- A hundred slots, twenty-five in each category. -/
theorem measureBin_sound_quarters :
    let kernel := countKernel fun config => some (if config = Topdown.tdSlots then 100 else 25)
    TopdownSound {} kernel (measureBin id {} kernel none (.opened ⟨0, 0, 0⟩)) := by
  intro kernel
  have hall : AllOpened {} kernel := fun config _ => by simp [kernel]
  have hpart : Partitioned id {} kernel := fun _ => by
    simp [kernel, tdCategories, Topdown.tdSlots, Topdown.tdRetiring, Topdown.tdBadSpec,
      Topdown.tdFeBound, Topdown.tdBeBound]
  have hsign : SameSign id {} kernel := by
    simp [SameSign, kernel, tdCategories, Topdown.tdSlots, Topdown.tdRetiring, Topdown.tdBadSpec,
      Topdown.tdFeBound, Topdown.tdBeBound]
  exact (measureBin_sound_iff hpart none _).mpr (.inr (.inr ⟨hall, hsign⟩))

/-- Only the slots opened: all four categories are reported as zero. -/
theorem not_measureBin_sound :
    let kernel := countKernel fun config => if config = Topdown.tdSlots then some 100 else none
    Partitioned id {} kernel ∧
      ¬ TopdownSound {} kernel (measureBin id {} kernel none (.opened ⟨0, 0, 0⟩)) := by
  intro kernel
  have hopen : ¬ AllOpened {} kernel := fun h => by
    simpa [kernel, Topdown.tdSlots, Topdown.tdRetiring] using
      h Topdown.tdRetiring (by simp [tdConfigs, tdCategories])
  refine ⟨fun h => absurd h hopen, fun h => ?_⟩
  have hsupported := h.2 hopen
  have hslots : tdCount id {} kernel Topdown.tdSlots ≠ 0 := by simp [kernel]
  simp [measureBin, tdSupported, isOpened, hslots] at hsupported

end Bbench.Report
