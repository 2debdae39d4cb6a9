import Bbench.Options

/-! The request a counter makes of the kernel. A `kernel_clock` fills in a
`perf_event_attr` from three compile-time choices: the privilege domain it counts
in, the kind of event and the event itself. The event aliases of `clock.hpp` and
the three event groups of `bench.hpp` follow. A group is a list of members, each
with its own copy of the attributes, and its `set_*` folds touch every member. -/

namespace Bbench.Perf

/-- The fields of `perf_event_attr` the program sets. A cleared structure is the
default value; `size` is `sizeof` at every use and is left out. -/
structure PerfEventAttr where
  type : UInt32 := 0
  config : UInt64 := 0
  readFormat : UInt64 := 0
  disabled : Bool := false
  inherit : Bool := false
  pinned : Bool := false
  excludeUser : Bool := false
  excludeKernel : Bool := false
  excludeHv : Bool := false
  enableOnExec : Bool := false
  deriving DecidableEq, Repr

namespace PerfEventAttr

def setInherit (on : Bool) (attr : PerfEventAttr) : PerfEventAttr := { attr with inherit := on }

def setPinned (on : Bool) (attr : PerfEventAttr) : PerfEventAttr := { attr with pinned := on }

def setEnableOnExec (on : Bool) (attr : PerfEventAttr) : PerfEventAttr :=
  { attr with enableOnExec := on }

end PerfEventAttr

/-! ### Constants of `linux/perf_event.h` -/

def perfTypeHardware : UInt32 := 0
def perfTypeSoftware : UInt32 := 1
def perfTypeTracepoint : UInt32 := 2
def perfTypeHwCache : UInt32 := 3
def perfTypeRaw : UInt32 := 4

/-- `PERF_FORMAT_TOTAL_TIME_ENABLED | PERF_FORMAT_TOTAL_TIME_RUNNING`. -/
def formatTotalTimes : UInt64 := 1 ||| 2

/-! Identifiers, operations and results of a cache event. -/

def cacheL1d : UInt64 := 0
def cacheL1i : UInt64 := 1
def cacheLl : UInt64 := 2
def cacheDtlb : UInt64 := 3
def cacheItlb : UInt64 := 4
def cacheBpu : UInt64 := 5
def cacheNode : UInt64 := 6

def cacheOpRead : UInt64 := 0
def cacheOpWrite : UInt64 := 1
def cacheOpPrefetch : UInt64 := 2

def cacheResultAccess : UInt64 := 0
def cacheResultMiss : UInt64 := 1

/-! ### `kernel_clock` -/

inductive KernelClockTypes
  | hardware | software | tracepoint | cache
  deriving DecidableEq, Repr

def KernelClockTypes.type : KernelClockTypes → UInt32
  | .hardware => perfTypeHardware
  | .software => perfTypeSoftware
  | .tracepoint => perfTypeTracepoint
  | .cache => perfTypeHwCache

namespace Options

inductive Hardware
  | cpuCycles | totalInst | cacheMisses | branches | branchMisses | busCycles
  | stalledInit | stalledRetirement | totalCycles
  deriving DecidableEq, Repr

def Hardware.config : Hardware → UInt64
  | .cpuCycles => 0
  | .totalInst => 1
  | .cacheMisses => 3
  | .branches => 4
  | .branchMisses => 5
  | .busCycles => 6
  | .stalledInit => 7
  | .stalledRetirement => 8
  | .totalCycles => 9

inductive Software
  | cpuClock | tasks | pageFaults | cntxSwtch | cpuMigrations | minorPageFlt | majorPageFlt
  | alignmentFaults | emulationFaults | nothing | sample | cgroupSwtch
  deriving DecidableEq, Repr

def Software.config : Software → UInt64
  | .cpuClock => 0
  | .tasks => 1
  | .pageFaults => 2
  | .cntxSwtch => 3
  | .cpuMigrations => 4
  | .minorPageFlt => 5
  | .majorPageFlt => 6
  | .alignmentFaults => 7
  | .emulationFaults => 8
  | .nothing => 9
  | .sample => 10
  | .cgroupSwtch => 11

inductive Cache
  | level1d | level1t | lastLevel | dataTlb | instrTlb | branch | localAccess
  | level1dMiss | level1tMiss | lastLevelMiss | dataTlbMiss | instrTlbMiss | branchMiss
  | level1dPrefetch | level1dPrefetchMiss
  deriving DecidableEq, Repr

def Cache.config : Cache → UInt64
  | .level1d => cacheL1d
  | .level1t => cacheL1i
  | .lastLevel => cacheLl
  | .dataTlb => cacheDtlb
  | .instrTlb => cacheItlb
  | .branch => cacheBpu
  | .localAccess => cacheNode
  | .level1dMiss => cacheL1d ||| (cacheResultMiss <<< 16)
  | .level1tMiss => cacheL1i ||| (cacheResultMiss <<< 16)
  | .lastLevelMiss => cacheLl ||| (cacheResultMiss <<< 16)
  | .dataTlbMiss => cacheDtlb ||| (cacheResultMiss <<< 16)
  | .instrTlbMiss => cacheItlb ||| (cacheResultMiss <<< 16)
  | .branchMiss => cacheBpu ||| (cacheResultMiss <<< 16)
  | .level1dPrefetch => cacheL1d ||| (cacheOpPrefetch <<< 8)
  | .level1dPrefetchMiss => cacheL1d ||| (cacheOpPrefetch <<< 8) ||| (cacheResultMiss <<< 16)

end Options

/-- The event argument of the constructor: a value of one of the three option types. -/
inductive EventOption
  | hardware (e : Options.Hardware)
  | software (e : Options.Software)
  | cache (e : Options.Cache)
  deriving DecidableEq, Repr

inductive TimeLand
  | userland | kernelland | vmland | everyland
  deriving DecidableEq, Repr

/-- `config` is assigned only when the option type belongs to the clock type. -/
def KernelClockTypes.config : KernelClockTypes → EventOption → UInt64
  | .hardware, .hardware e => e.config
  | .software, .software e => e.config
  | .cache, .cache e => e.config
  | _, _ => 0

def TimeLand.excludeUser : TimeLand → Bool
  | .kernelland | .vmland => true
  | .userland | .everyland => false

def TimeLand.excludeKernel : TimeLand → Bool
  | .userland | .vmland => true
  | .kernelland | .everyland => false

/-- The hypervisor is left in for `time_vmland`, and for hardware events in `time_everyland`. -/
def TimeLand.excludeHv : TimeLand → KernelClockTypes → Bool
  | .vmland, _ => false
  | .everyland, .hardware => false
  | _, _ => true

/-- The constructor of `kernel_clock<T, R>`: sixteen branches that differ in the
type, the configuration and the three exclusion bits. -/
def kernelClock (land : TimeLand) (clock : KernelClockTypes) (eType : EventOption) :
    PerfEventAttr where
  type := clock.type
  config := clock.config eType
  readFormat := formatTotalTimes
  disabled := true
  pinned := true
  excludeUser := land.excludeUser
  excludeKernel := land.excludeKernel
  excludeHv := land.excludeHv clock

/-- An instance of the `event` template; two instances are the same type exactly
when these parameters agree. -/
structure Event where
  land : TimeLand
  clock : KernelClockTypes
  option : EventOption
  deriving DecidableEq, Repr

def Event.attr (e : Event) : PerfEventAttr := kernelClock e.land e.clock e.option

/-! ### Event aliases -/

def userHardware (e : Options.Hardware) : Event := ⟨.userland, .hardware, .hardware e⟩
def userSoftware (e : Options.Software) : Event := ⟨.userland, .software, .software e⟩
def userCache (e : Options.Cache) : Event := ⟨.userland, .cache, .cache e⟩

def hardwareCycles : Event := userHardware .cpuCycles
def hardwareInstructions : Event := userHardware .totalInst
def cacheMisses : Event := userHardware .cacheMisses
def branches : Event := userHardware .branches
def branchMisses : Event := userHardware .branchMisses
def totalCycles : Event := userHardware .totalCycles
def cpuTime : Event := userSoftware .cpuClock
def contextSwitches : Event := userSoftware .cntxSwtch
def procMigrations : Event := userSoftware .cpuMigrations
def level1d : Event := userCache .level1d
def level1t : Event := userCache .level1t
def llcache : Event := userCache .lastLevel
def cacheNodeEvent : Event := userCache .localAccess
def bpu : Event := userCache .branch
def busCyclesE : Event := userHardware .busCycles
def stalledFront : Event := userHardware .stalledInit
def stalledBack : Event := userHardware .stalledRetirement
def pageFaults : Event := userSoftware .pageFaults
def minorFaults : Event := userSoftware .minorPageFlt
def majorFaults : Event := userSoftware .majorPageFlt
def alignmentFaults : Event := userSoftware .alignmentFaults
def emulationFaults : Event := userSoftware .emulationFaults
def level1dMiss : Event := userCache .level1dMiss
def level1tMiss : Event := userCache .level1tMiss
def llcacheMiss : Event := userCache .lastLevelMiss
def dtlbAccess : Event := userCache .dataTlb
def dtlbMiss : Event := userCache .dataTlbMiss
def itlbAccess : Event := userCache .instrTlb
def itlbMiss : Event := userCache .instrTlbMiss
def l1dPrefetch : Event := userCache .level1dPrefetch
def l1dPrefetchMiss : Event := userCache .level1dPrefetchMiss

/-! ### Event groups -/

def eventGroupD1 : List Event :=
  [hardwareCycles, hardwareInstructions, cacheMisses, branches, branchMisses, totalCycles, cpuTime,
    contextSwitches, procMigrations, level1d, level1t, llcache, cacheNodeEvent, bpu]

def eventGroupD2 : List Event :=
  [hardwareCycles, hardwareInstructions, cacheMisses, branches, branchMisses, totalCycles, cpuTime,
    contextSwitches, procMigrations, level1d, level1t, llcache, cacheNodeEvent, bpu, pageFaults,
    busCyclesE, stalledFront, stalledBack, dtlbAccess, dtlbMiss, itlbAccess, itlbMiss, level1dMiss,
    llcacheMiss]

def eventGroupD3 : List Event :=
  [hardwareCycles, hardwareInstructions, cacheMisses, branches, branchMisses, totalCycles, cpuTime,
    contextSwitches, procMigrations, level1d, level1t, llcache, cacheNodeEvent, bpu, pageFaults,
    busCyclesE, stalledFront, stalledBack, dtlbAccess, dtlbMiss, itlbAccess, itlbMiss, level1dMiss,
    llcacheMiss, level1tMiss, l1dPrefetch, l1dPrefetchMiss, minorFaults, majorFaults,
    alignmentFaults, emulationFaults]

/-- The group `benchmark_bin(path, opts)` instantiates for a detail level. -/
def eventGroup (detail : ℕ) : List Event :=
  match detail with
  | 2 => eventGroupD2
  | 3 => eventGroupD3
  | _ => eventGroupD1

/-- One member of an `event_group` object: its type and its current attributes. -/
structure Member where
  event : Event
  attr : PerfEventAttr
  deriving DecidableEq, Repr

namespace EventGroup

/-- `G gr{ quiet{} }`: every member is constructed, none is opened. -/
def quiet (G : List Event) : List Member := G.map fun e => ⟨e, e.attr⟩

/-- The fold of a setter over the members. -/
def modifyAll (f : PerfEventAttr → PerfEventAttr) (gr : List Member) : List Member :=
  gr.map fun m => ⟨m.event, f m.attr⟩

def setInherit (on : Bool) : List Member → List Member := modifyAll (PerfEventAttr.setInherit on)

def setPinned (on : Bool) : List Member → List Member := modifyAll (PerfEventAttr.setPinned on)

def setEnableOnExec (on : Bool) : List Member → List Member :=
  modifyAll (PerfEventAttr.setEnableOnExec on)

/-- `get<T>()`: the member of the given type. -/
def get (gr : List Member) (e : Event) : Option Member := gr.find? fun m => m.event = e

end EventGroup

/-- The group as `__bench_bin_with_opts` prepares it. -/
def preparedGroup (opts : BenchmarkOpts) (G : List Event) : List Member :=
  EventGroup.setEnableOnExec true
    (EventGroup.setPinned opts.pinned (EventGroup.setInherit opts.inherit (EventGroup.quiet G)))

/-- The attributes of one member of the prepared group. -/
def Event.prepared (opts : BenchmarkOpts) (e : Event) : PerfEventAttr :=
  ((e.attr.setInherit opts.inherit).setPinned opts.pinned).setEnableOnExec true

/-- Each setter reaches every member. -/
theorem preparedGroup_eq (opts : BenchmarkOpts) (G : List Event) :
    preparedGroup opts G = G.map fun e => ⟨e, e.prepared opts⟩ := by
  simp only [preparedGroup, EventGroup.setEnableOnExec, EventGroup.setPinned,
    EventGroup.setInherit, EventGroup.modifyAll, EventGroup.quiet, List.map_map]
  rfl

theorem get_preparedGroup (opts : BenchmarkOpts) {G : List Event} {e : Event} (he : e ∈ G) :
    EventGroup.get (preparedGroup opts G) e = some ⟨e, e.prepared opts⟩ := by
  rw [preparedGroup_eq]
  induction G with
  | nil => simp at he
  | cons a G ih =>
    rw [EventGroup.get, List.map_cons, List.find?_cons]
    by_cases h : a = e
    · simp [h]
    · simpa [h, EventGroup.get] using ih ((List.mem_cons.mp he).resolve_left (Ne.symm h))

/-- Every group counts user mode only, whatever the options say. -/
theorem attr_userland {G : List Event} (hG : ∀ e ∈ G, e.land = .userland) {opts : BenchmarkOpts}
    {m : Member} (hm : m ∈ preparedGroup opts G) :
    m.attr.excludeUser = false ∧ m.attr.excludeKernel = true ∧
      m.attr.inherit = opts.inherit ∧ m.attr.pinned = opts.pinned := by
  rw [preparedGroup_eq, List.mem_map] at hm
  obtain ⟨e, he, rfl⟩ := hm
  simp [Event.prepared, PerfEventAttr.setInherit, PerfEventAttr.setPinned,
    PerfEventAttr.setEnableOnExec, Event.attr, kernelClock, hG e he, TimeLand.excludeUser,
    TimeLand.excludeKernel]

theorem eventGroup_userland (detail : ℕ) : ∀ e ∈ eventGroup detail, e.land = .userland := by
  unfold eventGroup
  split <;> decide

theorem eventGroup_ne_nil (detail : ℕ) : eventGroup detail ≠ [] := by
  unfold eventGroup
  split <;> simp [eventGroupD1, eventGroupD2, eventGroupD3]

end Bbench.Perf
