import Bbench.Cli.Accepted

/-! The two options in milliseconds. The value of `-D` and of `--timeout` is checked
against zero as a `long long` and then cast to 32 bits. From `2 ^ 32` on it is stored
modulo `2 ^ 32`, and a timeout that is a multiple of it becomes no timeout. -/

namespace Bbench.Cli

open LastWrite

/-- Both fields hold the last value of their option, and no positive timeout is lost. -/
def MillisecondsStored (items : List Item) (out : CliOpts) : Prop :=
  (∀ v, lastOf (Item.intOf ["--timeout"]) items = some v →
    (out.benchOpts.timeoutMs.toNat : ℤ) = v) ∧
  (∀ v, lastOf (Item.intOf ["-D"]) items = some v → (out.benchOpts.delayMs.toNat : ℤ) = v) ∧
  ∀ v, lastOf (Item.intOf ["--timeout"]) items = some v → 0 < v → out.benchOpts.timeoutMs ≠ 0

/-- The last value of each of the options fits in 32 bits. -/
def FitsU32 (items : List Item) : Prop :=
  ∀ f ∈ timeFlags, ∀ v, lastOf (Item.intOf [f]) items = some v → v < 2 ^ 32

/-- A number from zero on is its own residue exactly below the modulus. -/
theorem emod_eq_self_iff {v m : ℤ} (hm : 0 < m) (hv : 0 ≤ v) : v % m = v ↔ v < m := by
  constructor
  · intro h
    have hlt := Int.emod_lt_of_pos v hm
    omega
  · exact Int.emod_eq_of_lt hv

/-- A stored number is the last value of its option exactly when that value fits. -/
theorem stored_iff {items : List Item} (hv : ∀ it ∈ items, it.Valid) {f : String} {stored : ℤ}
    (h : stored = (lastOf (Item.intOf [f]) items).getD 0 % 2 ^ 32) :
    (∀ v, lastOf (Item.intOf [f]) items = some v → stored = v) ↔
      ∀ v, lastOf (Item.intOf [f]) items = some v → v < 2 ^ 32 := by
  have hnonneg := lastOf_int_nonneg [f] hv
  refine forall₂_congr fun v hlast => ?_
  rw [hlast, Option.getD_some] at h hnonneg
  rw [h]
  exact emod_eq_self_iff (by omega) hnonneg

/-- When the milliseconds are stored unchanged. For an accepted command line, exactly
when the last `-D` and the last `--timeout`, if there are any, are below `2 ^ 32`. The
field of a timeout `v` is zero exactly when `v` is a multiple of `2 ^ 32`. -/
theorem milliseconds_stored_iff (argv : List String) (out : CliOpts)
    (h : parseArgv argv = .ok out) (items : List Item) (hd : Derives items (argv.drop 1)) :
    (MillisecondsStored items out ↔ FitsU32 items) ∧
      ∀ v, lastOf (Item.intOf ["--timeout"]) items = some v →
        (out.benchOpts.timeoutMs = 0 ↔ v % 2 ^ 32 = 0) := by
  obtain ⟨items', hd', rfl, -⟩ := parseArgv_eq_ok.mp h
  obtain rfl := derives_unique hd' hd
  have htimeout := stored_iff hd.1 (applyAll_timeoutMs hd.1)
  have hdelay := stored_iff hd.1 (applyAll_delayMs hd.1)
  have hzero : (applyAll items').benchOpts.timeoutMs = 0 ↔
      ((applyAll items').benchOpts.timeoutMs.toNat : ℤ) = 0 := by
    rw [← UInt32.toNat_inj]
    simp
  refine ⟨?_, fun v hlast => ?_⟩
  · simp only [MillisecondsStored, FitsU32, timeFlags, List.forall_mem_cons, List.not_mem_nil,
      false_implies, implies_true, and_true, htimeout, hdelay]
    constructor
    · rintro ⟨hT, hD, -⟩
      exact ⟨hD, hT⟩
    · rintro ⟨hD, hT⟩
      refine ⟨hT, hD, fun v hlast hpos => ?_⟩
      rw [ne_eq, hzero, htimeout.mpr hT v hlast]
      omega
  · rw [hzero, applyAll_timeoutMs hd.1, hlast, Option.getD_some]

/-- `--timeout 100` and `-D 5`. -/
theorem milliseconds_stored_plain :
    MillisecondsStored [.int "--timeout" "100" 100, .int "-D" "5" 5, .path "ls"]
      { benchOpts := { timeoutMs := 100, delayMs := 5 }, paths := ["ls"] } := by
  have hargv : parseArgv ["bbench", "--timeout", "100", "-D", "5", "ls"] =
      .ok { benchOpts := { timeoutMs := 100, delayMs := 5 }, paths := ["ls"] } := by decide
  have hd : Derives [.int "--timeout" "100" 100, .int "-D" "5" 5, .path "ls"]
      ["--timeout", "100", "-D", "5", "ls"] := by
    refine ⟨?_, rfl⟩
    simp only [List.forall_mem_cons, List.not_mem_nil, false_implies, implies_true, and_true]
    exact ⟨by decide, by decide, by decide⟩
  have hfits : FitsU32 [.int "--timeout" "100" 100, .int "-D" "5" 5, .path "ls"] := by
    have hdelay : lastOf (Item.intOf ["-D"])
        [.int "--timeout" "100" 100, .int "-D" "5" 5, .path "ls"] = some 5 := by decide
    have htimeout : lastOf (Item.intOf ["--timeout"])
        [.int "--timeout" "100" 100, .int "-D" "5" 5, .path "ls"] = some 100 := by decide
    simp [FitsU32, timeFlags, hdelay, htimeout]
  exact (milliseconds_stored_iff ["bbench", "--timeout", "100", "-D", "5", "ls"] _ hargv _
    hd).1.mpr hfits

/-- A timeout of `2 ^ 32` milliseconds is stored as none. -/
theorem not_milliseconds_stored : ¬ ∀ argv out items, parseArgv argv = .ok out →
    Derives items (argv.drop 1) → MillisecondsStored items out := by
  intro h
  have hargv : parseArgv ["bbench", "--timeout", "4294967296", "./a"] =
      .ok { benchOpts := { timeoutMs := 0 }, paths := ["./a"] } := by decide
  have hd : Derives [.int "--timeout" "4294967296" 4294967296, .path "./a"]
      ["--timeout", "4294967296", "./a"] := by
    refine ⟨?_, rfl⟩
    simp only [List.forall_mem_cons, List.not_mem_nil, false_implies, implies_true, and_true]
    exact ⟨by decide, by decide⟩
  have hstored := (h ["bbench", "--timeout", "4294967296", "./a"] _ _ hargv hd).2.2
  exact hstored 4294967296 (by decide) (by decide) rfl

end Bbench.Cli
