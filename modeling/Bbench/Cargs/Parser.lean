import Bbench.Lib.BoundedText
import Bbench.Lib.Sentinel
import Mathlib.Logic.Function.Basic

/-! The argument parser of `cargs.hpp`. Every argument has a slot of a fixed array, by
its index; a slot holds a key, data and a type. `general_parse` compares arguments with
a table of registered parameters, `general_parse_np` goes by their leading characters
alone. A C string is the list of its characters before the terminator. -/

namespace Bbench.Cargs

open Lib (BoundedText walk)

inductive Accepts
  | czero | cvoid | cpath | cparam | coperand | ckey | cbool | cint | clong | cfloat | cdouble
  | cstring
  deriving DecidableEq, Repr

/-- The template parameters of `parser`: `P_COUNT`, the number of arguments a callback of
type `C` takes, whether `F` is there, `FLAG`, `MAX_LENGTH` and `MAX_BUFFER`. Arrays and
strings of length zero do not exist. -/
structure Config where
  pCount : ℕ := 0
  arity : Option ℕ := none
  hasGlobal : Bool := false
  flagChar : Char := '-'
  maxLength : ℕ := 32
  maxBuffer : ℕ := 127
  length_pos : 0 < maxLength := by decide
  buffer_pos : 0 < maxBuffer := by decide

/-- `packet`. -/
structure Packet where
  key : List Char := []
  data : List Char := []
  type : Accepts := .czero
  deriving DecidableEq, Repr

/-- `param_packet`, with `none` for a null pointer. -/
structure ParamPacket (φ : Type*) where
  param : Option (List Char) := none
  abbr : Option (List Char) := none
  acc : Accepts := .czero
  ptr : Option φ := none
  deriving DecidableEq, Repr

/-- `param_packet()`. -/
def ParamPacket.null {φ : Type*} : ParamPacket φ := ⟨none, none, .czero, none⟩

/-- The array `args`. -/
abbrev Slots (cfg : Config) := Fin cfg.maxLength → Packet

/-- What a parser calls: a callback of the table with what is passed to it, and the
global callback. -/
inductive Call (φ : Type*)
  | packet (f : φ) (passed : List (List Char))
  | global (c : ℕ) (key data : List Char)
  deriving DecidableEq, Repr

/-- `args` after a parse, the calls made, and whether the loop over the slots has ended
inside the array. -/
structure Run (cfg : Config) (φ : Type*) where
  args : Slots cfg
  calls : List (Call φ)
  inside : Bool

variable {cfg : Config} {φ : Type*}

/-! ### The slots -/

namespace Slots

/-- `args[i]`, or `none` outside the array. -/
def read (slots : Slots cfg) (i : ℕ) : Option Packet :=
  if h : i < cfg.maxLength then some (slots ⟨i, h⟩) else none

/-- A change of `args[i]`, or `none` outside the array. -/
def write (slots : Slots cfg) (i : ℕ) (change : Packet → Packet) : Option (Slots cfg) :=
  if h : i < cfg.maxLength then
    some (Function.update slots ⟨i, h⟩ (change (slots ⟨i, h⟩)))
  else none

/-- As they are constructed. -/
def fresh : Slots cfg := fun _ => {}

end Slots

/-! ### The scanners -/

section Scanners
variable (FLAG : Char)

def empty : List Char → Bool
  | [] => true
  | c :: str => if c ≠ FLAG then false else empty str

def param (str : List Char) : Bool := str.headD '\x00' = FLAG

/-- The loop of `flag`, with the number of `FLAG`s before. -/
def flagFrom : ℕ → List Char → Bool
  | _, [] => false
  | c, x :: ptr => if x = FLAG then if 0 < c then true else flagFrom (c + 1) ptr else flagFrom c ptr

def flag (ptr : List Char) : Bool := flagFrom FLAG 0 ptr

def trim : List Char → List Char
  | [] => []
  | c :: ptr => if c = FLAG then trim ptr else c :: ptr

end Scanners

/-! ### Callbacks -/

/-- `operator()` of a table entry. -/
def ParamPacket.call (cfg : Config) (n : ParamPacket φ) (p : Packet) : List (Call φ) :=
  match n.ptr with
  | none => []
  | some f =>
    match cfg.arity with
    | some 0 => [.packet f []]
    | some 1 => [.packet f [p.key]]
    | some 2 => [.packet f [p.key, p.data]]
    | _ => []

/-- A slot's key is the name of a table entry, in either form. -/
def ParamPacket.named (n : ParamPacket φ) (key : List Char) : Bool :=
  n.param = some key || n.abbr = some key

/-- The calls for one slot. -/
def visit (cfg : Config) (table : List (ParamPacket φ)) (c : ℕ) (p : Packet) : List (Call φ) :=
  (table.flatMap fun n => if n.named p.key then n.call cfg p else []) ++
    if cfg.hasGlobal then [.global c p.key p.data] else []

/-- `callbacks_handler`, which ends a parse. -/
def callbacksHandler (table : List (ParamPacket φ)) (slots : Slots cfg) : Run cfg φ :=
  let dispatch := walk (fun p : Packet => p.type = .czero) (visit cfg table) 0 (List.ofFn slots)
  ⟨slots, dispatch.1, dispatch.2⟩

@[simp] theorem callbacksHandler_args (table : List (ParamPacket φ)) (slots : Slots cfg) :
    (callbacksHandler table slots).args = slots := rfl

/-! ### Parsing -/

section Parsing
variable (S : BoundedText cfg.maxBuffer Char)

/-- The program's own path. -/
def parsePath (slots : Slots cfg) (argv : List (List Char)) : Option (Slots cfg) :=
  slots.write 0 fun p => { p with key := S.append p.key (argv.headD []), type := .cpath }

/-- Whether the argument is a table entry's parameter or its abbreviation. -/
def entryKind (cfg : Config) (n : ParamPacket φ) (arg : List Char) : Option Accepts :=
  let fl := flag cfg.flagChar arg
  let pm := if fl then false else param cfg.flagChar arg
  let ch := trim cfg.flagChar arg
  if n.param = some ch ∧ fl then some .ckey
  else if n.abbr = some ch ∧ pm then some .cparam
  else none

/-- The loop over the table, for one argument and the one after it. Every branch goes to
`data`, and from there the loop is left, so that only the first entry is looked at. -/
def matchTable (table : List (ParamPacket φ)) (arg : List Char) (next : Option (List Char))
    (p : Packet) : Packet :=
  match table with
  | [] => p
  | n :: _ =>
    let p : Packet := match entryKind cfg n arg with
      | some type => { p with key := S.append p.key (trim cfg.flagChar arg), type := type }
      | none => { p with data := S.append p.data arg, type := .coperand }
    match next with
    | some value =>
      if n.acc ≠ .czero then { p with data := S.append p.data value, type := n.acc } else p
    | none => p

/-- The loop of `general_parse` from index `i`, with the arguments from there on. -/
def parseLoop (table : List (ParamPacket φ)) :
    ℕ → List (List Char) → Slots cfg → Option (Slots cfg)
  | _, [], slots => some slots
  | i, arg :: rest, slots =>
    (if cfg.maxBuffer < arg.length then some slots
      else slots.write i (matchTable S table arg rest.head?)).bind
    (parseLoop table (i + 1) rest)

/-- `general_parse`, without exceptions; `none` is an access outside `args`. -/
def generalParse (table : List (ParamPacket φ)) (slots : Slots cfg) (argv : List (List Char)) :
    Option (Run cfg φ) :=
  if cfg.maxLength < argv.length then some ⟨slots, [], true⟩
  else if argv.length = 1 then some ⟨slots, [], true⟩
  else ((parsePath S slots argv).bind (parseLoop S table 1 argv.tail)).map (callbacksHandler table)

/-- The body of the loop of `general_parse_np`. -/
def npStep (slots : Slots cfg) (i : ℕ) (arg : List Char) : Option (Slots cfg) :=
  if cfg.maxBuffer < arg.length then some slots
  else
    let fl := flag cfg.flagChar arg
    let pm := if fl then false else param cfg.flagChar arg
    let emp := empty cfg.flagChar arg
    if !emp && fl then
      slots.write i fun p => { p with key := S.append p.key (trim cfg.flagChar arg), type := .ckey }
    else if !emp && pm then
      slots.write i fun p =>
        { p with key := S.append p.key (trim cfg.flagChar arg), type := .cparam }
    else
      (slots.read (i - 1)).bind fun prev =>
        if prev.type = .ckey then
          (slots.write (i - 1) fun p =>
            { p with data := S.append p.data arg, type := .cstring }).bind
              fun slots => slots.write i fun p => { p with type := .czero }
        else slots.write i fun p => { p with data := S.append p.data arg, type := .coperand }

/-- The loop of `general_parse_np`. -/
def npLoop : ℕ → List (List Char) → Slots cfg → Option (Slots cfg)
  | _, [], slots => some slots
  | i, arg :: rest, slots => (npStep S slots i arg).bind (npLoop (i + 1) rest)

/-- `general_parse_np`, likewise. -/
def generalParseNp (table : List (ParamPacket φ)) (slots : Slots cfg) (argv : List (List Char)) :
    Option (Run cfg φ) :=
  if cfg.maxLength < argv.length then some ⟨slots, [], true⟩
  else if argv.length = 1 then some ⟨slots, [], true⟩
  else ((parsePath S slots argv).bind (npLoop S 1 argv.tail)).map (callbacksHandler table)

end Parsing

/-! ### The class -/

/-- The array `parameters`: the registered ones, and null entries up to its size. -/
def storage (cfg : Config) (ls : List (ParamPacket φ)) : List (ParamPacket φ) :=
  ls ++ List.replicate (max 1 cfg.pCount - ls.length) .null

/-- `parser`. -/
structure Parser (cfg : Config) (φ : Type*) where
  args : Slots cfg
  parameters : List (ParamPacket φ)
  stored : parameters ≠ []

theorem storage_ne_nil (cfg : Config) (ls : List (ParamPacket φ)) : storage cfg ls ≠ [] := by
  have hlen : 0 < (storage cfg ls).length := by
    rw [storage, List.length_append, List.length_replicate]
    omega
  exact List.ne_nil_of_length_pos hlen

namespace Parser

/-- The constructor from parameters. -/
def register (ls : List (ParamPacket φ)) : Parser cfg φ :=
  ⟨.fresh, storage cfg ls, storage_ne_nil cfg ls⟩

/-- The constructor from a command line, whose parameters are all null. -/
def ofArgv (S : BoundedText cfg.maxBuffer Char) (argv : List (List Char)) : Option (Run cfg φ) :=
  generalParseNp S (storage cfg []) .fresh argv

/-- `parser(const parser &)`, which leaves the parameters null. -/
def copyConstruct (o : Parser cfg φ) : Parser cfg φ :=
  ⟨o.args, storage cfg [], storage_ne_nil cfg []⟩

/-- `parser(parser &&)`, likewise. -/
def moveConstruct (o : Parser cfg φ) : Parser cfg φ :=
  ⟨o.args, storage cfg [], storage_ne_nil cfg []⟩

/-- `operator=(const parser &)` on `p`, which keeps its parameters. -/
def copyAssign (p o : Parser cfg φ) : Parser cfg φ := { p with args := o.args }

/-- `operator=(parser &&)` on `p`, likewise. -/
def moveAssign (p o : Parser cfg φ) : Parser cfg φ := { p with args := o.args }

/-- `operator()(argc, argv)`. -/
def call (S : BoundedText cfg.maxBuffer Char) (p : Parser cfg φ) (argv : List (List Char)) :
    Option (Run cfg φ) :=
  generalParse S p.parameters p.args argv

/-- The parser after it. -/
def after (S : BoundedText cfg.maxBuffer Char) (p : Parser cfg φ) (argv : List (List Char)) :
    Option (Parser cfg φ) :=
  (p.call S argv).map fun r => { p with args := r.args }

end Parser

/-! ### Looking up -/

namespace Slots

/-- `operands`. -/
def operands (slots : Slots cfg) : List (List Char) :=
  ((List.ofFn slots).filter fun n => n.type = .coperand).map Packet.data

/-- `operator()(str)`. -/
def lookup (slots : Slots cfg) (str : List Char) : List Char :=
  match (List.ofFn slots).find? fun n => str = n.key with
  | some n => n.data
  | none => []

/-- `operator[](str)`. -/
def has (slots : Slots cfg) (str : List Char) : Bool := (List.ofFn slots).any fun n => str = n.key

end Slots

end Bbench.Cargs
