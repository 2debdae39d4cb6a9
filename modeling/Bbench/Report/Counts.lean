import Bbench.Report.Benchmark

/-! The meaning of a reported count, over all three ways to read a counter. The
paths agree with one another, but none of them knows about `--no-scale`, and an
extrapolated or a very large value need not fit in `long long`. -/

namespace Bbench.Report

open Perf

/-- What a count means, decided. With `tr ≤ te`, the three read paths report one
number in any arithmetic, also through `collect`; this number is the one the
options ask for exactly when the reading is `Faithful`, in exact arithmetic and,
where nothing is scaled, in any. -/
theorem reported_count_iff (opts : BenchmarkOpts) (r : Reading)
    (h : r.timeRunning ≤ r.timeEnabled) :
    (∀ fl, dynamicRetrieve fl (.opened r) = kernelClockRead fl (.opened r) ∧
      retrieveScaled fl (.opened r) = kernelClockRead fl (.opened r) ∧
      ∀ (kernel : PerfEventAttr → Outcome), ∀ e ∈ eventGroup opts.detail,
        kernel (e.prepared opts) = .opened r →
        collected fl kernel (preparedGroup opts (eventGroup opts.detail)) e =
          kernelClockRead fl (.opened r)) ∧
    ∀ fl, fl = id ∨ r.timeRunning = 0 ∨ r.timeRunning = r.timeEnabled →
      (CountMeans opts r (kernelClockRead fl (.opened r)) ↔ Faithful opts r) := by
  refine ⟨fun fl => ⟨dynamicRetrieve_eq fl _, retrieveScaled_eq fl _, fun kernel e he hr => ?_⟩,
    fun fl hfl => ?_⟩
  · rw [collected_preparedGroup fl kernel opts he, hr]
  · have hexact : kernelClockRead fl (.opened r) = scaledCount id r := by
      obtain rfl | hunscaled := hfl
      · rfl
      · exact scaledCount_unscaled fl id hunscaled
    rw [hexact]
    exact scaledCount_means_iff h

theorem reported_count_multiplexed :
    CountMeans {} ⟨10, 3, 2⟩ (kernelClockRead id (.opened ⟨10, 3, 2⟩)) :=
  ((reported_count_iff {} ⟨10, 3, 2⟩ (by decide)).2 id (.inl rfl)).mpr (by decide)

/-- With `--no-scale` a counter that ran half of the time still reports twice its value. -/
theorem not_reported_count : ¬ ∀ (opts : BenchmarkOpts) (r : Reading),
    r.timeRunning ≤ r.timeEnabled → CountMeans opts r (kernelClockRead id (.opened r)) := by
  intro hall
  have hraw := (hall { scale := false } ⟨10, 2, 1⟩ (by decide)).1 (.inl rfl)
  have hscaled : scaledCount id ⟨10, 2, 1⟩ = 20 := by
    rw [scaledCount_scaled (by decide) (by decide)]
    decide
  rw [kernelClockRead, hscaled] at hraw
  exact absurd hraw (by decide)

end Bbench.Report
