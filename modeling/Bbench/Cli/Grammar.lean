import Bbench.Cli.Argv
import Bbench.Lib.LastWrite

/-! The language of accepted command lines. An item is a flag, an option with its
value or a path; it spells one or two arguments. A command line is accepted
exactly when its arguments are the spelling of a sequence of items with a path
among them. The sequence is then unique, so no argument has two readings, and
every option holds the value of its last occurrence. -/

namespace Bbench.Cli

open LastWrite

inductive Item
  | flag (f : String)
  | str (f v : String)
  | int (f v : String) (n : ℤ)
  | path (p : String)
  deriving DecidableEq, Repr

def noValueFlags : List String :=
  ["-d", "-dd", "-ddd", "--table", "-v", "--verbose", "--topdown", "--no-inherit", "--no-scale",
    "--all-user", "--all-kernel", "--pinned"]

def strFlags : List String := ["-e", "--pre", "--post", "-x", "-o", "-M"]

def runFlags : List String := ["-n", "-r"]

def timeFlags : List String := ["-D", "--timeout"]

namespace Item

/-- The arguments an item takes up. -/
def args : Item → List String
  | flag f => [f]
  | str f v => [f, v]
  | int f v _ => [f, v]
  | path p => [p]

/-- A string flag takes any value; an integer flag one that `parse_int` accepts and
that is large enough; a path is no listed flag and not a dash that goes on. -/
def Valid : Item → Prop
  | flag f => f ∈ noValueFlags
  | str f _ => f ∈ strFlags
  | int f v n => parseInt v = .value n ∧ (f ∈ runFlags ∧ 1 ≤ n ∨ f ∈ timeFlags ∧ 0 ≤ n)
  | path p => p ∉ noValueFlags ++ strFlags ++ runFlags ++ timeFlags ∧ isDashed p = false

instance (it : Item) : Decidable it.Valid :=
  match it with
  | flag f => inferInstanceAs (Decidable (f ∈ noValueFlags))
  | str f _ => inferInstanceAs (Decidable (f ∈ strFlags))
  | int f v n => inferInstanceAs (Decidable
      (parseInt v = .value n ∧ (f ∈ runFlags ∧ 1 ≤ n ∨ f ∈ timeFlags ∧ 0 ≤ n)))
  | path p => inferInstanceAs (Decidable
      (p ∉ noValueFlags ++ strFlags ++ runFlags ++ timeFlags ∧ isDashed p = false))

/-! What an item says about each option. -/

def path? : Item → Option String
  | path p => some p
  | _ => none

def strOf (g : String) : Item → Option String
  | str f v => if f = g then some v else none
  | _ => none

def intOf (fs : List String) : Item → Option ℤ
  | int f _ n => if f ∈ fs then some n else none
  | _ => none

/-- The value a flag of the list stands for. -/
def flagOf {β : Type} (table : List (String × β)) : Item → Option β
  | flag f => table.lookup f
  | _ => none

def detailTable : List (String × ℕ) := [("-d", 1), ("-dd", 2), ("-ddd", 3)]

/-- The pair of `excl_kernel` and `excl_user`. -/
def exclTable : List (String × Bool × Bool) :=
  [("--all-user", true, false), ("--all-kernel", false, true)]

/-- What one item does to the options. -/
def apply (out : CliOpts) (it : Item) : CliOpts where
  benchOpts :=
    { detail := (it.flagOf detailTable).getD out.benchOpts.detail
      delayMs := ((it.intOf ["-D"]).map toU32).getD out.benchOpts.delayMs
      timeoutMs := ((it.intOf ["--timeout"]).map toU32).getD out.benchOpts.timeoutMs
      inherit := (it.flagOf [("--no-inherit", false)]).getD out.benchOpts.inherit
      scale := (it.flagOf [("--no-scale", false)]).getD out.benchOpts.scale
      pinned := (it.flagOf [("--pinned", true)]).getD out.benchOpts.pinned
      exclKernel := ((it.flagOf exclTable).map Prod.fst).getD out.benchOpts.exclKernel
      exclUser := ((it.flagOf exclTable).map Prod.snd).getD out.benchOpts.exclUser
      eventCsv := ((it.strOf "-e").map some).getD out.benchOpts.eventCsv
      pre := ((it.strOf "--pre").map some).getD out.benchOpts.pre
      post := ((it.strOf "--post").map some).getD out.benchOpts.post }
  nRuns := ((it.intOf runFlags).map Int.toNat).getD out.nRuns
  verbose := (it.flagOf [("-v", true), ("--verbose", true)]).getD out.verbose
  table := (it.flagOf [("--table", true)]).getD out.table
  topdownOnly := (it.flagOf [("--topdown", true)]).getD out.topdownOnly
  csvSep := ((it.strOf "-x").map sepOf).getD out.csvSep
  outputFile := ((it.strOf "-o").map some).getD out.outputFile
  metricsCsv := ((it.strOf "-M").map some).getD out.metricsCsv
  paths := match it.path? with
    | some p => out.paths ++ [p]
    | none => out.paths

end Item

/-- The arguments are the spelling of these items. -/
def Derives (items : List Item) (args : List String) : Prop :=
  (∀ it ∈ items, it.Valid) ∧ items.flatMap Item.args = args

/-! ### One turn of the loop -/

section Turn
variable {a : String} (next : Option String) (out : CliOpts)

theorem parseArg_flag (h : a ∈ noValueFlags) :
    parseArg a next out = noValue ((Item.flag a).apply out) := by
  simp only [noValueFlags, List.mem_cons, List.not_mem_nil, or_false] at h
  rcases h with rfl | rfl | rfl | rfl | rfl | rfl | rfl | rfl | rfl | rfl | rfl | rfl <;> rfl

theorem parseArg_str (h : a ∈ strFlags) :
    parseArg a next out = withValue (needValue a next) fun v => (Item.str a v).apply out := by
  simp only [strFlags, List.mem_cons, List.not_mem_nil, or_false] at h
  rcases h with rfl | rfl | rfl | rfl | rfl | rfl <;> rfl

theorem parseArg_run (h : a ∈ runFlags) :
    parseArg a next out =
      withValue (needIntFrom 1 a next) fun n => (Item.int a "" n).apply out := by
  simp only [runFlags, List.mem_cons, List.not_mem_nil, or_false] at h
  rcases h with rfl | rfl <;> rfl

theorem parseArg_time (h : a ∈ timeFlags) :
    parseArg a next out =
      withValue (needIntFrom 0 a next) fun n => (Item.int a "" n).apply out := by
  simp only [timeFlags, List.mem_cons, List.not_mem_nil, or_false] at h
  rcases h with rfl | rfl <;> rfl

theorem parseArg_other (h : a ∉ noValueFlags ++ strFlags ++ runFlags ++ timeFlags) :
    parseArg a next out =
      if a = "-h" ∨ a = "--help" then .error .usage
      else if isDashed a then .error (.unknownFlag a)
      else noValue ((Item.path a).apply out) := by
  simp only [noValueFlags, strFlags, runFlags, timeFlags, List.cons_append, List.nil_append,
    List.mem_cons, List.not_mem_nil, or_false, not_or] at h
  simp only [parseArg, h, if_false, or_self]
  rfl

end Turn

theorem needValue_eq_ok {flag v : String} {next : Option String} :
    needValue flag next = .ok v ↔ next = some v := by
  cases next <;> simp [needValue]

theorem needIntFrom_eq_ok {least n : ℤ} {flag : String} {next : Option String} :
    needIntFrom least flag next = .ok n ↔
      ∃ v, next = some v ∧ parseInt v = .value n ∧ least ≤ n := by
  cases next with
  | none => simp [needIntFrom, needInt, needValue]
  | some v =>
    cases h : parseInt v with
    | rejected => simp [needIntFrom, needInt, needValue, h]
    | overflow => simp [needIntFrom, needInt, needValue, h]
    | value m =>
      by_cases hm : m < least
      · have : ¬ (m = n ∧ least ≤ n) := by omega
        simpa [needIntFrom, needInt, needValue, h, hm] using this
      · have : m = n ↔ m = n ∧ least ≤ n := by omega
        simpa [needIntFrom, needInt, needValue, h, hm] using this

theorem withValue_eq_ok {α : Type} {v : Except CliError α} {k : α → CliOpts}
    {r : CliOpts × Bool} : withValue v k = .ok r ↔ ∃ x, v = .ok x ∧ r = (k x, true) := by
  cases v <;> simp [withValue, Except.map, eq_comm]

/-- An argument that is consumed alone or with the next one starts a valid item. -/
theorem parseArg_inv {a : String} {next : Option String} {out out' : CliOpts} {used : Bool}
    (h : parseArg a next out = .ok (out', used)) :
    ∃ it : Item, it.Valid ∧ out' = it.apply out ∧
      (used = false ∧ it.args = [a] ∨
        used = true ∧ ∃ v, next = some v ∧ it.args = [a, v]) := by
  by_cases hflag : a ∈ noValueFlags
  · rw [parseArg_flag next out hflag] at h
    cases h
    exact ⟨.flag a, hflag, rfl, .inl ⟨rfl, rfl⟩⟩
  by_cases hstr : a ∈ strFlags
  · rw [parseArg_str next out hstr, withValue_eq_ok] at h
    obtain ⟨v, hv, hr⟩ := h
    cases hr
    exact ⟨.str a v, hstr, rfl, .inr ⟨rfl, v, needValue_eq_ok.mp hv, rfl⟩⟩
  by_cases hrun : a ∈ runFlags
  · rw [parseArg_run next out hrun, withValue_eq_ok] at h
    obtain ⟨n, hn, hr⟩ := h
    obtain ⟨v, hv, hp, hle⟩ := needIntFrom_eq_ok.mp hn
    cases hr
    exact ⟨.int a v n, ⟨hp, .inl ⟨hrun, hle⟩⟩, rfl, .inr ⟨rfl, v, hv, rfl⟩⟩
  by_cases htime : a ∈ timeFlags
  · rw [parseArg_time next out htime, withValue_eq_ok] at h
    obtain ⟨n, hn, hr⟩ := h
    obtain ⟨v, hv, hp, hle⟩ := needIntFrom_eq_ok.mp hn
    cases hr
    exact ⟨.int a v n, ⟨hp, .inr ⟨htime, hle⟩⟩, rfl, .inr ⟨rfl, v, hv, rfl⟩⟩
  · have hother : a ∉ noValueFlags ++ strFlags ++ runFlags ++ timeFlags := by
      simp only [List.mem_append, not_or]
      exact ⟨⟨⟨hflag, hstr⟩, hrun⟩, htime⟩
    rw [parseArg_other next out hother] at h
    split_ifs at h with hhelp hdash
    cases h
    exact ⟨.path a, ⟨hother, eq_false_of_ne_true hdash⟩, rfl, .inl ⟨rfl, rfl⟩⟩

/-- A valid item is consumed whole, whatever its value looks like. -/
theorem parseArg_item {it : Item} (hv : it.Valid) (next : Option String) (out : CliOpts) :
    (∃ a, it.args = [a] ∧ parseArg a next out = .ok (it.apply out, false)) ∨
      ∃ a v, it.args = [a, v] ∧ parseArg a (some v) out = .ok (it.apply out, true) := by
  cases it with
  | flag f => exact .inl ⟨f, rfl, parseArg_flag next out hv⟩
  | str f v => exact .inr ⟨f, v, rfl, parseArg_str (some v) out hv⟩
  | int f v n =>
    obtain ⟨hp, ⟨hf, hle⟩ | ⟨hf, hle⟩⟩ := hv
    · have hn : needIntFrom 1 f (some v) = .ok n := needIntFrom_eq_ok.mpr ⟨v, rfl, hp, hle⟩
      exact .inr ⟨f, v, rfl, by rw [parseArg_run (some v) out hf, hn]; rfl⟩
    · have hn : needIntFrom 0 f (some v) = .ok n := needIntFrom_eq_ok.mpr ⟨v, rfl, hp, hle⟩
      exact .inr ⟨f, v, rfl, by rw [parseArg_time (some v) out hf, hn]; rfl⟩
  | path p =>
    have hhelp : ¬ (p = "-h" ∨ p = "--help") := by
      rintro (rfl | rfl) <;> exact absurd hv.2 (by decide)
    refine .inl ⟨p, rfl, ?_⟩
    rw [parseArg_other next out hv.1, if_neg hhelp, hv.2]
    rfl

/-! ### The loop -/

theorem parseArgs_cons (a : String) (rest : List String) (out : CliOpts) :
    parseArgs (a :: rest) out = match parseArg a rest.head? out with
      | .error e => .error e
      | .ok (out', true) => parseArgs rest.tail out'
      | .ok (out', false) => parseArgs rest out' := by
  cases rest with
  | nil =>
    simp only [parseArgs, List.head?_nil, List.tail_nil]
    cases parseArg a none out with
    | error e => rfl
    | ok r => obtain ⟨out', used⟩ := r; cases used <;> rfl
  | cons v rest => rfl

theorem parseArgs_of_derives {items : List Item} {args : List String} (h : Derives items args)
    (out : CliOpts) : parseArgs args out = .ok (items.foldl Item.apply out) := by
  obtain ⟨hv, rfl⟩ := h
  induction items generalizing out with
  | nil => rfl
  | cons it items ih =>
    have htail := ih (it.apply out) fun i hi => hv i (List.mem_cons_of_mem it hi)
    rw [List.flatMap_cons, List.foldl_cons, ← htail]
    obtain ⟨a, ha, hp⟩ | ⟨a, v, ha, hp⟩ :=
      parseArg_item (hv it List.mem_cons_self) (items.flatMap Item.args).head? out
    · rw [ha, List.singleton_append, parseArgs_cons, hp]
    · rw [ha, List.cons_append, parseArgs_cons, List.singleton_append, List.head?_cons, hp,
        List.tail_cons]

theorem derives_of_parseArgs {args : List String} {out out' : CliOpts}
    (h : parseArgs args out = .ok out') :
    ∃ items, Derives items args ∧ out' = items.foldl Item.apply out := by
  induction hn : args.length using Nat.strongRecOn generalizing args out with
  | _ n ih =>
    subst hn
    cases args with
    | nil => cases h; exact ⟨[], ⟨by simp, rfl⟩, rfl⟩
    | cons a rest =>
      rw [parseArgs_cons] at h
      cases hp : parseArg a rest.head? out with
      | error e => rw [hp] at h; cases h
      | ok r =>
        obtain ⟨mid, used⟩ := r
        obtain ⟨it, hv, rfl, ⟨rfl, ha⟩ | ⟨rfl, v, hnext, ha⟩⟩ := parseArg_inv hp
        · rw [hp] at h
          obtain ⟨items, hd, rfl⟩ := ih rest.length (by simp) h rfl
          refine ⟨it :: items, ⟨List.forall_mem_cons.mpr ⟨hv, hd.1⟩, ?_⟩, rfl⟩
          rw [List.flatMap_cons, ha, hd.2, List.singleton_append]
        · rw [hp] at h
          obtain ⟨tail, rfl⟩ : ∃ tail, rest = v :: tail := by
            cases rest with
            | nil => cases hnext
            | cons w tail => cases hnext; exact ⟨tail, rfl⟩
          obtain ⟨items, hd, rfl⟩ := ih tail.length (by simp only [List.length_cons]; omega) h rfl
          refine ⟨it :: items, ⟨List.forall_mem_cons.mpr ⟨hv, hd.1⟩, ?_⟩, rfl⟩
          rw [List.flatMap_cons, ha, hd.2]
          rfl

/-! ### One reading -/

inductive Kind
  | flag | str | int | path
  deriving DecidableEq

/-- The kind of item an argument starts. -/
def startsKind (a : String) : Kind :=
  if a ∈ noValueFlags then .flag
  else if a ∈ strFlags then .str
  else if a ∈ runFlags ++ timeFlags then .int
  else .path

theorem startsKind_flag : ∀ f ∈ noValueFlags, startsKind f = .flag := by decide

theorem startsKind_str : ∀ f ∈ strFlags, startsKind f = .str := by decide

theorem startsKind_int : ∀ f ∈ runFlags ++ timeFlags, startsKind f = .int := by decide

theorem startsKind_path {p : String} {n : Bool}
    (h : p ∉ noValueFlags ++ strFlags ++ runFlags ++ timeFlags ∧ isDashed p = n) :
    startsKind p = .path := by
  simp only [List.mem_append, not_or] at h
  simp [startsKind, h]

/-- The first argument of a valid item tells its kind. -/
theorem Item.startsKind_args {it : Item} (hv : it.Valid) : ∃ a rest, it.args = a :: rest ∧
    startsKind a = match it with
      | .flag _ => .flag
      | .str _ _ => .str
      | .int _ _ _ => .int
      | .path _ => .path := by
  cases it with
  | flag f => exact ⟨f, [], rfl, startsKind_flag f hv⟩
  | str f v => exact ⟨f, [v], rfl, startsKind_str f hv⟩
  | int f v n =>
    refine ⟨f, [v], rfl, startsKind_int f (List.mem_append.mpr ?_)⟩
    exact hv.2.imp And.left And.left
  | path p => exact ⟨p, [], rfl, startsKind_path hv⟩

/-- Two valid items that start the same arguments are the same item. -/
theorem Item.eq_of_args_append {it it' : Item} (hv : it.Valid) (hv' : it'.Valid)
    {rest rest' : List String} (h : it.args ++ rest = it'.args ++ rest') : it = it' := by
  obtain ⟨a, _, ha, hk⟩ := startsKind_args hv
  obtain ⟨a', _, ha', hk'⟩ := startsKind_args hv'
  have haa : a = a' := by
    rw [ha, ha', List.cons_append, List.cons_append] at h
    exact (List.cons.inj h).1
  subst haa
  rw [hk] at hk'
  cases it <;> cases it' <;> simp only [reduceCtorEq] at hk' <;>
    simp only [args, List.cons_append, List.nil_append, List.cons.injEq] at h
  · rw [h.1]
  · rw [h.1, h.2.1]
  · obtain ⟨rfl, rfl, -⟩ := h
    rw [ParseInt.value.inj (hv.1.symm.trans hv'.1)]
  · rw [h.1]

/-- No command line has two readings. -/
theorem derives_unique {items items' : List Item} {args : List String} (h : Derives items args)
    (h' : Derives items' args) : items = items' := by
  induction items generalizing items' args with
  | nil =>
    obtain ⟨-, rfl⟩ := h
    cases items' with
    | nil => rfl
    | cons it items' =>
      obtain ⟨a, rest, ha, -⟩ := Item.startsKind_args (h'.1 it List.mem_cons_self)
      simp [Derives, ha] at h'
  | cons it items ih =>
    obtain ⟨hv, rfl⟩ := h
    have hit := hv it List.mem_cons_self
    cases items' with
    | nil =>
      obtain ⟨a, rest, ha, -⟩ := Item.startsKind_args hit
      simp [Derives, ha] at h'
    | cons it' items' =>
      obtain ⟨hv', heq⟩ := h'
      rw [List.flatMap_cons, List.flatMap_cons] at heq
      obtain rfl := Item.eq_of_args_append (hv' it' List.mem_cons_self) hit heq
      have htail := List.append_cancel_left heq
      rw [ih ⟨fun i hi => hv i (List.mem_cons_of_mem _ hi), rfl⟩
        ⟨fun i hi => hv' i (List.mem_cons_of_mem _ hi), htail⟩]

end Bbench.Cli
