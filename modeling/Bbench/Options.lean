import Mathlib.Data.Nat.Notation

/-! The options of a measurement, with the defaults of `options.hpp`. -/

namespace Bbench

/-- `benchmark_opts`. A pointer that may be null is an `Option`. -/
structure BenchmarkOpts where
  detail : ℕ := 1
  delayMs : UInt32 := 0
  timeoutMs : UInt32 := 0
  inherit : Bool := true
  scale : Bool := true
  pinned : Bool := false
  exclKernel : Bool := true
  exclUser : Bool := false
  eventCsv : Option String := none
  pre : Option String := none
  post : Option String := none
  deriving DecidableEq, Repr

end Bbench
