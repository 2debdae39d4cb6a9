import Bbench.Perf.Attr

/-! The five raw counters of a top-down breakdown. -/

namespace Bbench.Perf.Topdown

def tdSlots : UInt64 := 0x0400
def tdRetiring : UInt64 := 0x8000
def tdBadSpec : UInt64 := 0x8100
def tdFeBound : UInt64 := 0x8200
def tdBeBound : UInt64 := 0x8300

/-- `__td_event::configure`. -/
def configure (config : UInt64) (exclKernel : Bool) : PerfEventAttr where
  type := perfTypeRaw
  config := config
  disabled := true
  readFormat := formatTotalTimes
  excludeKernel := exclKernel
  excludeHv := true

/-- The counters of `measure_bin`, in the order it opens them. -/
def group (opts : BenchmarkOpts) : List PerfEventAttr :=
  [tdSlots, tdRetiring, tdBadSpec, tdFeBound, tdBeBound].map fun config =>
    (configure config opts.exclKernel).setEnableOnExec true

/-- A top-down counter is never inherited and never pinned. -/
theorem attr_group {opts : BenchmarkOpts} {attr : PerfEventAttr} (h : attr ∈ group opts) :
    attr.excludeUser = false ∧ attr.excludeKernel = opts.exclKernel ∧
      attr.inherit = false ∧ attr.pinned = false := by
  obtain ⟨config, -, rfl⟩ := List.mem_map.mp h
  exact ⟨rfl, rfl, rfl, rfl⟩

theorem group_ne_nil (opts : BenchmarkOpts) : group opts ≠ [] := by simp [group]

end Bbench.Perf.Topdown
