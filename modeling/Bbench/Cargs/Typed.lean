import Bbench.Cargs.Classes
import Bbench.Cargs.Number
import Bbench.Cargs.Table
import Mathlib.Data.List.OfFn

/-! The typed lookup `get(str)` after `general_parse`. The value of a name is the argument
behind it, read as what the parameter accepts; that parameter is the first of the table,
whatever the name. -/

namespace Bbench.Cargs

open Lib (BoundedText)
open Cli (decimalValue)

variable {cfg : Config} {φ : Type*} {S : BoundedText cfg.maxBuffer Char}
  {argv : List (List Char)} {str : List Char} {i : ℕ}

/-- `micron::any<long, long long, double, bool>`. -/
inductive Number
  | long (v : ℤ)
  | longLong (v : ℤ)
  | double (q : ℚ)
  | bool (b : Bool)
  deriving DecidableEq, Repr

/-- `to_number`, or `none` where an accumulator overflows. -/
def toNumber (str : List Char) : Accepts → Option Number
  | .cint => (toI64 str).map .long
  | .clong => (toI64 str).map .longLong
  | .cfloat | .cdouble => (toF64 str).map .double
  | _ => some (.bool false)

/-- `get(str)`. -/
def Slots.getNumber (slots : Slots cfg) (str : List Char) : Option Number :=
  match (List.ofFn slots).find? fun n => str = n.key with
  | some n => toNumber n.data n.type
  | none => some (.bool false)

/-! ### What is meant -/

/-- The string starts with the number, and none of the rest belongs to it. -/
def Decimal.Begins (d : Decimal) (s : List Char) : Prop := ∃ rest, s = d.text ++ rest ∧ d.Ends rest

/-- A written number as a parameter accepts it. -/
def Decimal.accepted (d : Decimal) : Accepts → Option Number
  | .cint => if decimalValue d.whole < 2 ^ 63 then some (.long d.truncated) else none
  | .clong => if decimalValue d.whole < 2 ^ 63 then some (.longLong d.truncated) else none
  | .cfloat | .cdouble =>
    if d.exp.elim 0 Exponent.size < 2 ^ 31 then some (.double d.value) else none
  | _ => some (.bool false)

theorem toNumber_begins {d : Decimal} {s : List Char} (h : d.Begins s) (type : Accepts) :
    toNumber s type = d.accepted type := by
  obtain ⟨rest, rfl, hends⟩ := h
  cases type <;> simp only [toNumber, Decimal.accepted, Decimal.toI64_text hends,
    Decimal.toF64_text hends] <;> split <;> rfl

/-- Argument `i` is the parameter `n`, by the name `str`. -/
def Matches (cfg : Config) (n : ParamPacket φ) (argv : List (List Char)) (str : List Char)
    (i : ℕ) : Prop :=
  0 < i ∧ i < argv.length ∧ (entryKind cfg n (argAt argv i)).isSome = true ∧
    trim cfg.flagChar (argAt argv i) = str

/-! ### The scan -/

theorem getNumber_of_first {slots : Slots cfg} (hi : i < cfg.maxLength)
    (hkey : (slots.get i).key = str) (hfirst : ∀ j < i, (slots.get j).key ≠ str) :
    slots.getNumber str = toNumber (slots.get i).data (slots.get i).type := by
  have hfind : (List.ofFn slots).find? (fun n => str = n.key) = some (slots.get i) := by
    rw [ofFn_get, List.find?_map, Option.map_eq_some_iff]
    refine ⟨i, ?_, rfl⟩
    rw [List.find?_range_eq_some]
    refine ⟨?_, List.mem_range.mpr hi, fun j hj => ?_⟩
    · simpa using hkey.symm
    · simpa using Ne.symm (hfirst j hj)
  rw [Slots.getNumber, hfind]

theorem getNumber_of_none {slots : Slots cfg} (h : ∀ i < cfg.maxLength, (slots.get i).key ≠ str) :
    slots.getNumber str = some (.bool false) := by
  have hfind : (List.ofFn slots).find? (fun n => str = n.key) = none := by
    rw [ofFn_get, List.find?_eq_none]
    intro p hp
    obtain ⟨i, hi, rfl⟩ := List.mem_map.mp hp
    simpa using Ne.symm (h i (List.mem_range.mp hi))
  rw [Slots.getNumber, hfind]

/-! ### The slots of a parse -/

section Parsed
variable {n : ParamPacket φ} {table : List (ParamPacket φ)}

/-- The path and the parameters have names, and nothing else. -/
theorem parsed_key (h : Within cfg argv) (hstr : str ≠ []) (hpath : argAt argv 0 ≠ str) :
    ((parsed S (n :: table) .fresh argv).get i).key = str ↔ Matches cfg n argv str i := by
  rcases Nat.eq_zero_or_pos i with rfl | hi
  · have hshort : (argv.headD []).length ≤ cfg.maxBuffer := by
      cases argv with
      | nil => exact Nat.zero_le _
      | cons path rest => exact h.short path List.mem_cons_self
    have hhead : argv.headD [] = argAt argv 0 := by cases argv <;> rfl
    rw [get_parsed_zero, fresh_get, S.nil_append hshort, hhead]
    exact iff_of_false hpath fun hm => absurd hm.1 (Nat.lt_irrefl 0)
  · rcases Nat.lt_or_ge i argv.length with hlt | hge
    · rw [get_parsed_fresh n h.argc.le hi hlt (h.short _ (mem_argAt hlt)), Matches,
        and_iff_right hi, and_iff_right hlt]
      dsimp only [keyText]
      split_ifs with hkind
      · rw [and_iff_right hkind]
      · exact iff_of_false (Ne.symm hstr) fun hm => hkind hm.1
    · rw [get_parsed h.argc.le hi, argSlot, List.getElem?_eq_none hge, fresh_get]
      exact iff_of_false (Ne.symm hstr) fun hm => absurd hm.2.1 (by omega)

/-- The slot of a parameter holds its value, with the type of what it accepts. -/
theorem parsed_value (table : List (ParamPacket φ)) (h : Within cfg argv)
    (hm : Matches cfg n argv str i) :
    ((parsed S (n :: table) .fresh argv).get i).data =
        (if n.acc ≠ .czero ∧ i + 1 < argv.length then argAt argv (i + 1) else []) ∧
      ((parsed S (n :: table) .fresh argv).get i).type =
        if n.acc ≠ .czero ∧ i + 1 < argv.length then n.acc
        else (entryKind cfg n (argAt argv i)).getD .coperand := by
  obtain ⟨hi, hlt, hkind, -⟩ := hm
  rw [get_parsed_fresh n h.argc.le hi hlt (h.short _ (mem_argAt hlt)), valueFor_eq, ownText,
    if_pos hkind]
  by_cases hvalue : n.acc ≠ .czero ∧ i + 1 < argv.length
  · simp only [if_pos hvalue, Option.getD_some, Option.isSome_some, if_true, and_true]
    exact S.nil_append (h.short _ (mem_argAt hvalue.2))
  · simp only [if_neg hvalue, Option.getD_none, Option.isSome_none, Bool.false_eq_true, if_false,
      and_true]
    exact S.append_nil []

/-- A parameter without a value is no number. -/
theorem toNumber_entryKind (hkind : (entryKind cfg n (argAt argv i)).isSome = true)
    (s : List Char) :
    toNumber s ((entryKind cfg n (argAt argv i)).getD .coperand) = some (.bool false) := by
  rcases entryKind_cases cfg n (argAt argv i) with hk | hk | hk
  · simp [hk] at hkind
  · rw [hk]
    rfl
  · rw [hk]
    rfl

end Parsed

/-- What `get(str)` says after a new parser has read a command line. With no argument that is
the first parameter of the table, by the name `str`, it is `false`, and so it is when the
first such argument is the last of the command line. Otherwise it is the number the next
argument starts with, as the parameter accepts it; every argument starts with one. -/
theorem typed_lookup (cfg : Config) (S : BoundedText cfg.maxBuffer Char)
    (ls : List (ParamPacket φ)) (argv : List (List Char)) (str : List Char)
    (h : Within cfg argv) (htwo : argv.length ≠ 1) (hstr : str ≠ [])
    (hpath : argAt argv 0 ≠ str) :
    ∃ r, (Parser.register ls : Parser cfg φ).call S argv = some r ∧
      ((∀ i, ¬ Matches cfg (ls.headD .null) argv str i) →
        r.args.getNumber str = some (.bool false)) ∧
      ∀ i, Matches cfg (ls.headD .null) argv str i →
        (∀ j < i, ¬ Matches cfg (ls.headD .null) argv str j) →
        (argv.length = i + 1 → r.args.getNumber str = some (.bool false)) ∧
        (i + 1 < argv.length → (∃ d : Decimal, d.Begins (argAt argv (i + 1))) ∧
          ∀ d : Decimal, d.Begins (argAt argv (i + 1)) →
            r.args.getNumber str = d.accepted (ls.headD .null).acc) := by
  obtain ⟨table, htable⟩ := storage_eq cfg ls
  have hcall : (Parser.register ls : Parser cfg φ).call S argv =
      some (callbacksHandler (storage cfg ls)
        (parsed S (ls.headD .null :: table) .fresh argv)) := by
    rw [← htable]
    exact generalParse_eq cfg S _ _ _ h.argc.le htwo
  refine ⟨_, hcall, fun hnone => ?_, fun i hm hfirst => ?_⟩
  · exact getNumber_of_none fun i _ hkey => hnone i ((parsed_key h hstr hpath).mp hkey)
  · have hget : (parsed S (ls.headD .null :: table) .fresh argv).getNumber str = _ :=
      getNumber_of_first (hm.2.1.trans h.argc) ((parsed_key h hstr hpath).mpr hm)
        fun j hj hkey => hfirst j hj ((parsed_key h hstr hpath).mp hkey)
    obtain ⟨hdata, htype⟩ := parsed_value (S := S) table h hm
    rw [hdata, htype] at hget
    rw [callbacksHandler_args]
    refine ⟨fun hlast => ?_, fun hnext => ⟨?_, fun d hd => ?_⟩⟩
    · have hnot : ¬ ((ls.headD .null).acc ≠ .czero ∧ i + 1 < argv.length) := fun hv => by omega
      rw [hget, if_neg hnot, if_neg hnot, toNumber_entryKind hm.2.2.1]
    · exact exists_decimal _
    · rw [hget]
      by_cases hacc : (ls.headD .null).acc = .czero
      · have hnot : ¬ ((ls.headD .null).acc ≠ .czero ∧ i + 1 < argv.length) := fun hv => hv.1 hacc
        rw [if_neg hnot, if_neg hnot, toNumber_entryKind hm.2.2.1, hacc]
        rfl
      · rw [if_pos ⟨hacc, hnext⟩, if_pos ⟨hacc, hnext⟩, toNumber_begins hd]

/-- The number in `-2k`. -/
def minusTwo : Decimal where
  blanks := []
  sign := ['-']
  whole := ['2']
  frac := none
  exp := none
  areBlanks := by simp
  isSign := .inr (.inr rfl)
  wholeDigits := List.forall_mem_singleton.mpr rfl
  fracDigits := by simp

theorem typed_lookup_minus : ∃ r : Run {} Unit,
    (Parser.register [⟨some ['n'], none, .cint, none⟩] : Parser {} Unit).call (.unbounded _ _)
      [['p'], ['-', '-', 'n'], ['-', '2', 'k']] = some r ∧
    r.args.getNumber ['n'] = some (.long (-2)) := by
  obtain ⟨r, hcall, -, hvalue⟩ := typed_lookup {} (.unbounded _ _)
    [(⟨some ['n'], none, .cint, none⟩ : ParamPacket Unit)]
    [['p'], ['-', '-', 'n'], ['-', '2', 'k']] ['n'] ⟨by decide, by decide⟩ (by decide) (by decide)
    (by decide)
  have hbegins : minusTwo.Begins ['-', '2', 'k'] :=
    ⟨['k'], by decide, by simp [Decimal.Ends, Decimal.Continues, minusTwo]; decide⟩
  have hmatch : Matches {} (⟨some ['n'], none, .cint, none⟩ : ParamPacket Unit)
      [['p'], ['-', '-', 'n'], ['-', '2', 'k']] ['n'] 1 :=
    ⟨by decide, by decide, by decide, by decide⟩
  refine ⟨r, hcall, ?_⟩
  rw [((hvalue 1 hmatch fun j hj hm => absurd hm.1 (by omega)).2 (by decide)).2 minusTwo hbegins]
  decide

end Bbench.Cargs
