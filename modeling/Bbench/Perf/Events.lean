import Bbench.Perf.Attr

/-! Run-time events. The table `known_events` names an event for `-e`, a
`dynamic_event` is configured from one of its entries, and `parse_event_list`
cuts the option's value at commas through a 64-byte buffer. -/

namespace Bbench.Perf

structure EventDef where
  name : String
  type : UInt32
  config : UInt64
  deriving DecidableEq, Repr

/-- `__cache_cfg` with its default arguments. -/
def cacheCfg (id : UInt64) (op : UInt64 := cacheOpRead) (result : UInt64 := cacheResultAccess) :
    UInt64 :=
  id ||| (op <<< 8) ||| (result <<< 16)

def knownEvents : List EventDef :=
  [ -- hardware
    ⟨"cycles", perfTypeHardware, 0⟩,
    ⟨"cpu-cycles", perfTypeHardware, 0⟩,
    ⟨"instructions", perfTypeHardware, 1⟩,
    ⟨"branches", perfTypeHardware, 4⟩,
    ⟨"branch-instructions", perfTypeHardware, 4⟩,
    ⟨"branch-misses", perfTypeHardware, 5⟩,
    ⟨"cache-references", perfTypeHardware, 2⟩,
    ⟨"cache-misses", perfTypeHardware, 3⟩,
    ⟨"bus-cycles", perfTypeHardware, 6⟩,
    ⟨"stalled-cycles-frontend", perfTypeHardware, 7⟩,
    ⟨"stalled-cycles-backend", perfTypeHardware, 8⟩,
    ⟨"ref-cycles", perfTypeHardware, 9⟩,
    -- software
    ⟨"cpu-clock", perfTypeSoftware, 0⟩,
    ⟨"task-clock", perfTypeSoftware, 1⟩,
    ⟨"page-faults", perfTypeSoftware, 2⟩,
    ⟨"faults", perfTypeSoftware, 2⟩,
    ⟨"context-switches", perfTypeSoftware, 3⟩,
    ⟨"cs", perfTypeSoftware, 3⟩,
    ⟨"cpu-migrations", perfTypeSoftware, 4⟩,
    ⟨"migrations", perfTypeSoftware, 4⟩,
    ⟨"minor-faults", perfTypeSoftware, 5⟩,
    ⟨"major-faults", perfTypeSoftware, 6⟩,
    ⟨"alignment-faults", perfTypeSoftware, 7⟩,
    ⟨"emulation-faults", perfTypeSoftware, 8⟩,
    ⟨"dummy", perfTypeSoftware, 9⟩,
    -- hw cache
    ⟨"L1-dcache-loads", perfTypeHwCache, cacheCfg cacheL1d⟩,
    ⟨"L1-dcache-load-misses", perfTypeHwCache, cacheCfg cacheL1d cacheOpRead cacheResultMiss⟩,
    ⟨"L1-dcache-stores", perfTypeHwCache, cacheCfg cacheL1d cacheOpWrite⟩,
    ⟨"L1-dcache-prefetches", perfTypeHwCache, cacheCfg cacheL1d cacheOpPrefetch⟩,
    ⟨"L1-dcache-prefetch-misses", perfTypeHwCache,
      cacheCfg cacheL1d cacheOpPrefetch cacheResultMiss⟩,
    ⟨"L1-icache-loads", perfTypeHwCache, cacheCfg cacheL1i⟩,
    ⟨"L1-icache-load-misses", perfTypeHwCache, cacheCfg cacheL1i cacheOpRead cacheResultMiss⟩,
    ⟨"LLC-loads", perfTypeHwCache, cacheCfg cacheLl⟩,
    ⟨"LLC-load-misses", perfTypeHwCache, cacheCfg cacheLl cacheOpRead cacheResultMiss⟩,
    ⟨"LLC-stores", perfTypeHwCache, cacheCfg cacheLl cacheOpWrite⟩,
    ⟨"LLC-store-misses", perfTypeHwCache, cacheCfg cacheLl cacheOpWrite cacheResultMiss⟩,
    ⟨"dTLB-loads", perfTypeHwCache, cacheCfg cacheDtlb⟩,
    ⟨"dTLB-load-misses", perfTypeHwCache, cacheCfg cacheDtlb cacheOpRead cacheResultMiss⟩,
    ⟨"iTLB-loads", perfTypeHwCache, cacheCfg cacheItlb⟩,
    ⟨"iTLB-load-misses", perfTypeHwCache, cacheCfg cacheItlb cacheOpRead cacheResultMiss⟩,
    ⟨"branch-loads", perfTypeHwCache, cacheCfg cacheBpu⟩,
    ⟨"branch-load-misses", perfTypeHwCache, cacheCfg cacheBpu cacheOpRead cacheResultMiss⟩,
    ⟨"node-loads", perfTypeHwCache, cacheCfg cacheNode⟩,
    ⟨"node-load-misses", perfTypeHwCache, cacheCfg cacheNode cacheOpRead cacheResultMiss⟩]

/-- The first entry with this name, compared byte by byte. -/
def lookupEvent (name : String) : Option EventDef := knownEvents.find? fun e => e.name = name

/-- `dynamic_event::configure`. -/
def EventDef.configure (d : EventDef) (exclKernel : Bool) : PerfEventAttr where
  type := d.type
  config := d.config
  disabled := true
  readFormat := formatTotalTimes
  excludeKernel := exclKernel
  excludeHv := true

/-- The attributes of one member as `benchmark_bin_dynamic` prepares them. -/
def EventDef.prepared (opts : BenchmarkOpts) (d : EventDef) : PerfEventAttr :=
  (((d.configure opts.exclKernel).setInherit opts.inherit).setPinned opts.pinned).setEnableOnExec
    true

/-- The members of the `dynamic_event_group`, one for each definition. -/
def dynamicGroup (opts : BenchmarkOpts) (defs : List EventDef) : List PerfEventAttr :=
  defs.map (EventDef.prepared opts)

/-- The exclusion of user mode is the one option a run-time counter never carries. -/
theorem attr_dynamicGroup {opts : BenchmarkOpts} {defs : List EventDef} {attr : PerfEventAttr}
    (h : attr ∈ dynamicGroup opts defs) :
    attr.excludeUser = false ∧ attr.excludeKernel = opts.exclKernel ∧
      attr.inherit = opts.inherit ∧ attr.pinned = opts.pinned := by
  obtain ⟨d, -, rfl⟩ := List.mem_map.mp h
  exact ⟨rfl, rfl, rfl, rfl⟩

/-! ### `parse_event_list` -/

/-- `sizeof(buf) - 1`. -/
def bufMax : ℕ := 63

/-- What the loop does at a comma or at the end: an empty token is skipped, a
known one appended, an unknown one clears `all_ok`. -/
def flushToken (buf : List Char) (allOk : Bool) (out : List EventDef) : Bool × List EventDef :=
  if buf = [] then (allOk, out)
  else match lookupEvent (String.ofList buf) with
    | some e => (allOk, out ++ [e])
    | none => (false, out)

/-- The character loop; `buf` holds the bytes of the current token, and a byte
that no longer fits is dropped. -/
def parseEventLoop : List Char → List Char → Bool → List EventDef → Bool × List EventDef
  | [], buf, allOk, out => flushToken buf allOk out
  | c :: cs, buf, allOk, out =>
    if c = ',' then
      let r := flushToken buf allOk out
      parseEventLoop cs [] r.1 r.2
    else if buf.length < bufMax then parseEventLoop cs (buf ++ [c]) allOk out
    else parseEventLoop cs buf allOk out

def parseEventList (csv : String) (out : List EventDef) : Bool × List EventDef :=
  parseEventLoop csv.toList [] true out

/-- Everything appended comes from the table. -/
theorem flushToken_known {buf : List Char} {allOk : Bool} {out : List EventDef}
    (h : ∀ e ∈ out, e ∈ knownEvents) : ∀ e ∈ (flushToken buf allOk out).2, e ∈ knownEvents := by
  unfold flushToken
  split
  · exact h
  · split
    · rename_i e he
      intro d hd
      rcases List.mem_append.mp hd with hd | hd
      · exact h d hd
      · rw [List.mem_singleton.mp hd]
        exact List.mem_of_find?_eq_some he
    · exact h

theorem parseEventLoop_known (cs buf : List Char) (allOk : Bool) (out : List EventDef)
    (h : ∀ e ∈ out, e ∈ knownEvents) :
    ∀ e ∈ (parseEventLoop cs buf allOk out).2, e ∈ knownEvents := by
  induction cs generalizing buf allOk out with
  | nil => exact flushToken_known h
  | cons c cs ih =>
    simp only [parseEventLoop]
    split
    · exact ih _ _ _ (flushToken_known h)
    · split <;> exact ih _ _ _ h

theorem parseEventList_known (csv : String) :
    ∀ e ∈ (parseEventList csv []).2, e ∈ knownEvents :=
  parseEventLoop_known _ _ _ _ (by simp)

example : (parseEventList "cycles,,bogus,cs" []).1 = false ∧
    (parseEventList "cycles,,bogus,cs" []).2.map EventDef.name = ["cycles", "cs"] := by decide

end Bbench.Perf
