import Bbench.Options
import Mathlib.Algebra.Group.Int.Defs

/-! The command line of `bbench`. `parse_argv` walks over the arguments with one
shared index: an option that takes a value looks at the next argument and moves
the index past it. A C string is a `String` whose characters are its bytes. -/

namespace Bbench.Cli

structure CliOpts where
  benchOpts : BenchmarkOpts := {}
  nRuns : ℕ := 1
  verbose : Bool := false
  table : Bool := false
  topdownOnly : Bool := false
  /-- The NUL character stands for the human format. -/
  csvSep : Char := Char.ofNat 0
  outputFile : Option String := none
  metricsCsv : Option String := none
  paths : List String := []
  deriving DecidableEq, Repr

/-! ### `parse_int` -/

/-- How a call of `parse_int` ends. -/
inductive ParseInt
  /-- It returns false and leaves `out` alone. -/
  | rejected
  /-- It returns true with this value. -/
  | value (v : ℤ)
  /-- The accumulator leaves `long long`; C++ promises nothing from there on. -/
  | overflow
  deriving DecidableEq, Repr

def isDigit (c : Char) : Bool := '0' ≤ c && c ≤ '9'

def digit (c : Char) : ℤ := (c.toNat : ℤ) - ('0'.toNat : ℤ)

/-- The accumulate loop: it stops at the first byte that is no digit. -/
def scanDigits : List Char → ℤ → Option ℤ
  | [], v => some v
  | c :: cs, v =>
    if isDigit c then
      if v * 10 + digit c < 2 ^ 63 then scanDigits cs (v * 10 + digit c) else none
    else some v

/-- Leading blanks. -/
def skipSpaces : List Char → List Char
  | [] => []
  | c :: cs => if c = ' ' then skipSpaces cs else c :: cs

/-- The optional sign: whether it is a minus, and the rest. -/
def takeSign : List Char → Bool × List Char
  | [] => (false, [])
  | c :: cs => if c = '-' then (true, cs) else if c = '+' then (false, cs) else (false, c :: cs)

def parseInt (s : String) : ParseInt :=
  let (neg, digits) := takeSign (skipSpaces s.toList)
  match digits with
  | [] => .rejected
  | c :: _ =>
    if isDigit c then
      match scanDigits digits 0 with
      | some v => .value (if neg then -v else v)
      | none => .overflow
    else .rejected

/-! ### `parse_argv` -/

/-- Why `parse_argv` does not return true. -/
inductive CliError
  | requiresValue (flag : String)
  | requiresInteger (flag : String)
  /-- The value is below the least one the option takes; nothing is printed. -/
  | outOfRange
  /-- `-h`, `--help` or no path: the usage text is printed. -/
  | usage
  | unknownFlag (a : String)
  /-- The behaviour is undefined after an overflow in `parse_int`. -/
  | undefined
  deriving DecidableEq, Repr

/-- What is written to standard error. -/
def CliError.message : CliError → String
  | .requiresValue flag => "bbench: " ++ flag ++ " requires a value\n"
  | .requiresInteger flag => "bbench: " ++ flag ++ " requires an integer\n"
  | .unknownFlag a => "bbench: unknown flag: " ++ a ++ "\n"
  | .outOfRange | .usage | .undefined => ""

/-- `need_value`: the next argument, if there is one. -/
def needValue (flag : String) : Option String → Except CliError String
  | none => .error (.requiresValue flag)
  | some v => .ok v

/-- `need_int`. -/
def needInt (flag : String) (next : Option String) : Except CliError ℤ :=
  match needValue flag next with
  | .error e => .error e
  | .ok v =>
    match parseInt v with
    | .rejected => .error (.requiresInteger flag)
    | .value n => .ok n
    | .overflow => .error .undefined

/-- `need_int` with the comparison that follows it. -/
def needIntFrom (least : ℤ) (flag : String) (next : Option String) : Except CliError ℤ :=
  match needInt flag next with
  | .error e => .error e
  | .ok v => if v < least then .error .outOfRange else .ok v

/-- `static_cast<u32>` of a `long long` that is not negative. -/
def toU32 (v : ℤ) : UInt32 := UInt32.ofNat v.toNat

/-- The first byte of the value of `-x`, or a comma. -/
def sepOf (v : String) : Char := v.toList.headD ','

/-- An argument that starts with a dash and goes on. -/
def isDashed (a : String) : Bool :=
  match a.toList with
  | '-' :: _ :: _ => true
  | _ => false

/-- The new options, and whether the next argument was consumed as a value. -/
abbrev Taken := Except CliError (CliOpts × Bool)

/-- An option without a value. -/
def noValue (out : CliOpts) : Taken := .ok (out, false)

/-- An option with a value: `k` says what it does with it. -/
def withValue {α : Type} (v : Except CliError α) (k : α → CliOpts) : Taken :=
  v.map fun x => (k x, true)

def CliOpts.mapBench (f : BenchmarkOpts → BenchmarkOpts) (out : CliOpts) : CliOpts :=
  { out with benchOpts := f out.benchOpts }

/-- The body of the loop: argument `a`, with `next` after it. -/
def parseArg (a : String) (next : Option String) (out : CliOpts) : Taken :=
  if a = "-n" ∨ a = "-r" then
    withValue (needIntFrom 1 a next) fun v => { out with nRuns := v.toNat }
  else if a = "-d" then noValue (out.mapBench fun b => { b with detail := 1 })
  else if a = "-dd" then noValue (out.mapBench fun b => { b with detail := 2 })
  else if a = "-ddd" then noValue (out.mapBench fun b => { b with detail := 3 })
  else if a = "-e" then
    withValue (needValue a next) fun v => out.mapBench fun b => { b with eventCsv := some v }
  else if a = "-D" then
    withValue (needIntFrom 0 a next) fun v => out.mapBench fun b => { b with delayMs := toU32 v }
  else if a = "--timeout" then
    withValue (needIntFrom 0 a next) fun v => out.mapBench fun b => { b with timeoutMs := toU32 v }
  else if a = "--pre" then
    withValue (needValue a next) fun v => out.mapBench fun b => { b with pre := some v }
  else if a = "--post" then
    withValue (needValue a next) fun v => out.mapBench fun b => { b with post := some v }
  else if a = "--table" then noValue { out with table := true }
  else if a = "-x" then withValue (needValue a next) fun v => { out with csvSep := sepOf v }
  else if a = "-o" then withValue (needValue a next) fun v => { out with outputFile := some v }
  else if a = "-v" ∨ a = "--verbose" then noValue { out with verbose := true }
  else if a = "-M" then withValue (needValue a next) fun v => { out with metricsCsv := some v }
  else if a = "--topdown" then noValue { out with topdownOnly := true }
  else if a = "--no-inherit" then noValue (out.mapBench fun b => { b with inherit := false })
  else if a = "--no-scale" then noValue (out.mapBench fun b => { b with scale := false })
  else if a = "--all-user" then
    noValue (out.mapBench fun b => { b with exclKernel := true, exclUser := false })
  else if a = "--all-kernel" then
    noValue (out.mapBench fun b => { b with exclKernel := false, exclUser := true })
  else if a = "--pinned" then noValue (out.mapBench fun b => { b with pinned := true })
  else if a = "-h" ∨ a = "--help" then .error .usage
  else if isDashed a then .error (.unknownFlag a)
  else noValue { out with paths := out.paths ++ [a] }

/-- The loop. -/
def parseArgs : List String → CliOpts → Except CliError CliOpts
  | [], out => .ok out
  | [a], out => (parseArg a none out).map Prod.fst
  | a :: v :: rest, out =>
    match parseArg a (some v) out with
    | .error e => .error e
    | .ok (out', true) => parseArgs rest out'
    | .ok (out', false) => parseArgs (v :: rest) out'

/-- `parse_argv`, from the initial options: `.ok` where the source returns true. -/
def parseArgv (argv : List String) : Except CliError CliOpts :=
  match parseArgs (argv.drop 1) {} with
  | .error e => .error e
  | .ok out => if out.paths.length = 0 then .error .usage else .ok out

end Bbench.Cli
