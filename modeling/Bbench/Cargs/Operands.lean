import Bbench.Cargs.Classes
import Bbench.Cargs.Table
import Mathlib.Data.List.OfFn

/-! The operands after `general_parse`. An argument is meant as an operand if no registered
parameter matches it and the argument before it does not take it as a value. The loop asks
neither: it tries the first entry alone, an argument that it does not match takes the next
one as its value as well, and the value is an operand of its own again. So an operand can end
up in the slot before its own too, behind a value or another operand. -/

namespace Bbench.Cargs

open Lib (BoundedText)

variable {cfg : Config} {φ : Type*} {S : BoundedText cfg.maxBuffer Char}
  {argv : List (List Char)} {ps : List (ParamPacket φ)} {slots : Slots cfg}

/-- The registered parameter that matches an argument. -/
def matching (cfg : Config) (ps : List (ParamPacket φ)) (arg : List Char) :
    Option (ParamPacket φ) := ps.find? fun n => (entryKind cfg n arg).isSome

/-- Argument `i` matches no parameter and is not the value of one. -/
def isFree (cfg : Config) (ps : List (ParamPacket φ)) (argv : List (List Char)) (i : ℕ) : Bool :=
  (matching cfg ps (argAt argv i)).isNone &&
    (i < 2 || (matching cfg ps (argAt argv (i - 1))).all fun n => n.acc = .czero)

/-- What the slot of an argument that is no operand may hold: nothing or the argument, and
the next argument after that, unless the next one is an operand. -/
def mayHold (S : BoundedText cfg.maxBuffer Char) (ps : List (ParamPacket φ))
    (argv : List (List Char)) (i : ℕ) : List (List Char) :=
  [[], argAt argv i] ++
    if i + 1 < argv.length ∧ isFree cfg ps argv (i + 1) = false then
      [argAt argv (i + 1), S.append (argAt argv i) (argAt argv (i + 1))]
    else []

/-- An operand has its own slot, as it was passed; the slot of any other argument is no
operand and holds none. -/
def SlotVerbatim (S : BoundedText cfg.maxBuffer Char) (slots : Slots cfg)
    (ps : List (ParamPacket φ)) (argv : List (List Char)) (i : ℕ) : Prop :=
  if isFree cfg ps argv i then slots.get i = ⟨[], argAt argv i, .coperand⟩
  else (slots.get i).type ≠ .coperand ∧ (slots.get i).data ∈ mayHold S ps argv i

/-- The free arguments are the operands, in order, and every slot is right. -/
def Verbatim (S : BoundedText cfg.maxBuffer Char) (slots : Slots cfg) (ps : List (ParamPacket φ))
    (argv : List (List Char)) : Prop :=
  slots.operands =
      ((List.range argv.length).filter fun i => 1 ≤ i && isFree cfg ps argv i).map (argAt argv) ∧
    ∀ i, 1 ≤ i → i < argv.length → SlotVerbatim S slots ps argv i

/-! ### The list -/

/-- The operands are among the slots of the arguments. -/
theorem operands_eq (hlen : argv.length ≤ cfg.maxLength)
    (hbeyond : ∀ i, argv.length ≤ i → (slots.get i).type ≠ .coperand) :
    slots.operands = ((List.range argv.length).filter fun i => (slots.get i).type = .coperand).map
      fun i => (slots.get i).data := by
  obtain ⟨k, hk⟩ := Nat.exists_eq_add_of_le hlen
  have hrest : ((List.range k).map fun i => argv.length + i).filter
      (fun i => decide ((slots.get i).type = .coperand)) = [] := by
    rw [List.filter_eq_nil_iff]
    intro i hi
    obtain ⟨j, -, rfl⟩ := List.mem_map.mp hi
    simpa using hbeyond (argv.length + j) (by omega)
  rw [Slots.operands, ofFn_get, List.filter_map, List.map_map, hk, List.range_add,
    List.filter_append]
  simp only [Function.comp_def] at hrest ⊢
  rw [hrest, List.append_nil]

/-- Slots that are right one by one make the list right. -/
theorem verbatim_iff (ps : List (ParamPacket φ)) (hlen : argv.length ≤ cfg.maxLength)
    (hpath : (slots.get 0).type = .cpath)
    (hbeyond : ∀ i, 0 < i → argv.length ≤ i → (slots.get i).type ≠ .coperand) :
    Verbatim S slots ps argv ↔
      ∀ i, 1 ≤ i → i < argv.length → SlotVerbatim S slots ps argv i := by
  refine and_iff_right_of_imp fun hall => ?_
  have hend : ∀ i, argv.length ≤ i → (slots.get i).type ≠ .coperand := by
    intro i hi
    rcases Nat.eq_zero_or_pos i with rfl | hpos
    · simp [hpath]
    · exact hbeyond i hpos hi
  have hfree : ∀ i ∈ List.range argv.length,
      decide ((slots.get i).type = .coperand) = (1 ≤ i && isFree cfg ps argv i) := by
    intro i hi
    rw [List.mem_range] at hi
    rcases Nat.eq_zero_or_pos i with rfl | hpos
    · simp [hpath]
    · have hslot := hall i hpos hi
      cases hf : isFree cfg ps argv i with
      | true =>
        rw [SlotVerbatim, hf, if_pos rfl] at hslot
        simp [hslot, Nat.one_le_iff_ne_zero.mpr hpos.ne']
      | false =>
        rw [SlotVerbatim, hf, if_neg (by simp)] at hslot
        simp [hslot.1]
  rw [operands_eq hlen hend, List.filter_congr hfree]
  refine List.map_congr_left fun i hi => ?_
  obtain ⟨hi, hf⟩ := List.mem_filter.mp hi
  rw [Bool.and_eq_true, decide_eq_true_eq] at hf
  have hslot := hall i hf.1 (List.mem_range.mp hi)
  rw [SlotVerbatim, hf.2, if_pos rfl] at hslot
  rw [hslot]

/-! ### The slots -/

/-- A free argument is not the first entry's. -/
theorem entryKind_of_isFree {i : ℕ} (h : isFree cfg ps argv i = true) :
    entryKind cfg (ps.headD .null) (argAt argv i) = none := by
  cases ps with
  | nil => simp [entryKind, ParamPacket.null]
  | cons n ps =>
    rw [isFree, Bool.and_eq_true, Option.isNone_iff_eq_none, matching, List.find?_eq_none] at h
    simpa using h.1 n List.mem_cons_self

/-- An operand after an argument that the first entry matches is not taken as a value. -/
theorem entryKind_of_isFree_succ {i : ℕ} (hi : 1 ≤ i)
    (hacc : (ps.headD .null).acc ≠ .czero) (h : isFree cfg ps argv (i + 1) = true) :
    entryKind cfg (ps.headD .null) (argAt argv i) = none := by
  cases ps with
  | nil => exact absurd rfl hacc
  | cons n ps =>
    by_contra hsome
    have hfirst : matching cfg (n :: ps) (argAt argv i) = some n := by
      rw [matching, List.find?_cons_of_pos]
      exact Option.isSome_iff_ne_none.mpr hsome
    have hnot : ¬ i + 1 < 2 := by omega
    simp only [isFree, hnot, Nat.add_sub_cancel, hfirst, decide_false, Bool.false_or,
      Option.all_some, Bool.and_eq_true, decide_eq_true_eq] at h
    exact hacc h.2

/-- The slot of an argument with a value holds no operand, unless the value is one that adds
no text to the argument. -/
theorem data_mem_mayHold_iff {n : ParamPacket φ} (h : Within cfg argv) {i : ℕ}
    (hnext : i + 1 < argv.length)
    (hkind : isFree cfg ps argv (i + 1) = true → entryKind cfg n (argAt argv i) = none) :
    S.append (ownText n (argAt argv i) cfg) (argAt argv (i + 1)) ∈ mayHold S ps argv i ↔
      (isFree cfg ps argv (i + 1) = true →
        S.append (argAt argv i) (argAt argv (i + 1)) ∈ [[], argAt argv i]) := by
  cases hf : isFree cfg ps argv (i + 1) with
  | true => simp [mayHold, hf, hkind hf, ownText]
  | false =>
    have hshort : S.append [] (argAt argv (i + 1)) = argAt argv (i + 1) :=
      S.nil_append (h.short _ (mem_argAt hnext))
    rw [ownText]
    split_ifs <;> simp [mayHold, hf, hnext, hshort]

/-- One argument's slot is right. -/
theorem slotVerbatim_iff {n : ParamPacket φ} {table : List (ParamPacket φ)} (h : Within cfg argv)
    {i : ℕ} (hi : 1 ≤ i) (hlt : i < argv.length)
    (hkind : isFree cfg ps argv i = true → entryKind cfg n (argAt argv i) = none)
    (hnextKind : n.acc ≠ .czero → isFree cfg ps argv (i + 1) = true →
      entryKind cfg n (argAt argv i) = none) :
    SlotVerbatim S (parsed S (n :: table) .fresh argv) ps argv i ↔
    if n.acc = .czero ∨ i + 1 = argv.length then
      entryKind cfg n (argAt argv i) = none → isFree cfg ps argv i = true
    else if n.acc = .coperand then
      isFree cfg ps argv i = true ∧ S.append (argAt argv i) (argAt argv (i + 1)) = argAt argv i
    else isFree cfg ps argv i = false ∧ (isFree cfg ps argv (i + 1) = true →
      S.append (argAt argv i) (argAt argv (i + 1)) ∈ [[], argAt argv i]) := by
  rw [SlotVerbatim, get_parsed_fresh n h.argc.le hi hlt (h.short _ (mem_argAt hlt)), valueFor_eq]
  by_cases hlast : n.acc = .czero ∨ i + 1 = argv.length
  · -- no value
    have hvalue : ¬ (n.acc ≠ .czero ∧ i + 1 < argv.length) := by
      rintro ⟨hacc, hnext⟩
      exact hlast.elim hacc fun heq => by omega
    rw [if_pos hlast, if_neg hvalue]
    cases hf : isFree cfg ps argv i with
    | true => simp [hkind hf, keyText, ownText]
    | false =>
      rcases entryKind_cases cfg n (argAt argv i) with hk | hk | hk <;> simp [hk, ownText, mayHold]
  · have hvalue : n.acc ≠ .czero ∧ i + 1 < argv.length := by
      rw [not_or] at hlast
      exact ⟨hlast.1, by omega⟩
    have hdata := data_mem_mayHold_iff (S := S) h hvalue.2 (hnextKind hvalue.1)
    rw [if_neg hlast, if_pos hvalue]
    cases hf : isFree cfg ps argv i with
    | true => by_cases hacc : n.acc = .coperand <;> simp [hkind hf, keyText, ownText, hacc]
    | false =>
      by_cases hacc : n.acc = .coperand
      · simp [hacc]
      · simpa [hacc] using hdata

/-- A call leaves the operands verbatim when it leaves every slot right. -/
theorem call_verbatim_iff (cfg : Config) (S : BoundedText cfg.maxBuffer Char)
    (ps : List (ParamPacket φ)) {argv : List (List Char)} (hargc : 2 ≤ argv.length)
    (h : Within cfg argv) :
    (∃ r, (Parser.register ps).call S argv = some r ∧ Verbatim S r.args ps argv) ↔
      ∀ i, 1 ≤ i → i < argv.length →
        SlotVerbatim S (parsed S (storage cfg ps) .fresh argv) ps argv i := by
  have hle : argv.length ≤ cfg.maxLength := h.argc.le
  have hparse : (Parser.register ps).call S argv = some _ :=
    generalParse_eq cfg S (storage cfg ps) .fresh argv hle (by omega)
  have hbeyond : ∀ i, 0 < i → argv.length ≤ i →
      ((parsed S (storage cfg ps) .fresh argv).get i).type ≠ .coperand := by
    intro i hi hge
    rw [get_parsed hle hi, argSlot, List.getElem?_eq_none hge, fresh_get]
    simp
  rw [← verbatim_iff ps hle (by rw [get_parsed_zero]) hbeyond, hparse]
  simp

/-- When operands stay verbatim. Let `n` be the first entry of the table, null if nothing is
registered. Where `n` accepts nothing, and at the last argument, an argument that `n` does not
match is free; everywhere else no argument is free or, if `n` accepts `coperand`, all are and
the next one adds no text to any. If the last argument is free and `n` accepts something else,
it adds no text to the argument before it either. -/
theorem verbatim_operands_iff (cfg : Config) (S : BoundedText cfg.maxBuffer Char)
    (ps : List (ParamPacket φ)) (argv : List (List Char)) (hargc : 2 ≤ argv.length)
    (h : Within cfg argv) :
    (∃ r, (Parser.register ps).call S argv = some r ∧ Verbatim S r.args ps argv) ↔
      ∀ i, 1 ≤ i → i < argv.length →
        if (ps.headD .null).acc = .czero ∨ i + 1 = argv.length then
          entryKind cfg (ps.headD .null) (argAt argv i) = none → isFree cfg ps argv i = true
        else if (ps.headD .null).acc = .coperand then
          isFree cfg ps argv i = true ∧
            S.append (argAt argv i) (argAt argv (i + 1)) = argAt argv i
        else isFree cfg ps argv i = false ∧ (isFree cfg ps argv (i + 1) = true →
          S.append (argAt argv i) (argAt argv (i + 1)) ∈ [[], argAt argv i]) := by
  obtain ⟨table, htable⟩ := storage_eq cfg ps
  rw [call_verbatim_iff cfg S ps hargc h, htable]
  exact forall_congr' fun i => forall_congr' fun hi => forall_congr' fun hlt =>
    slotVerbatim_iff h hi hlt entryKind_of_isFree (entryKind_of_isFree_succ hi)

/-- A key that accepts nothing, and an operand. -/
theorem verbatim_operands_flag : ∃ r : Run { pCount := 1 } Unit,
    (Parser.register [{ param := some ['a'], abbr := some ['a'] }]).call (.unbounded _ _)
      [['p'], ['-', '-', 'a'], ['x']] = some r ∧
    Verbatim (.unbounded _ _) r.args
      [({ param := some ['a'], abbr := some ['a'] } : ParamPacket Unit)]
      [['p'], ['-', '-', 'a'], ['x']] := by
  refine (verbatim_operands_iff (φ := Unit) { pCount := 1 } (.unbounded _ _)
    [{ param := some ['a'], abbr := some ['a'] }] [['p'], ['-', '-', 'a'], ['x']] (by decide)
    ⟨by decide, by decide⟩).mpr fun i hi hlt => ?_
  have hcases : i = 1 ∨ i = 2 := by
    simp at hlt
    omega
  obtain rfl | rfl := hcases <;> decide

/-- With a parameter that accepts an integer, the operands `x y` become its value `xy`; and
after the key and its value `7`, the operand `z` is also part of a value `7z`. -/
theorem not_verbatim_operands :
    (¬ ∀ (cfg : Config) (S : BoundedText cfg.maxBuffer Char) (ps : List (ParamPacket Unit))
      (argv : List (List Char)), 2 ≤ argv.length → Within cfg argv →
        ∃ r, (Parser.register ps).call S argv = some r ∧ Verbatim S r.args ps argv) ∧
    let cfg : Config := { pCount := 1 }
    let S : BoundedText cfg.maxBuffer Char := .unbounded _ _
    let ps : List (ParamPacket Unit) := [{ param := some ['a'], acc := .cint }]
    let argv := [['p'], ['-', '-', 'a'], ['7'], ['z']]
    Within cfg argv ∧
      ¬ ∃ r, (Parser.register ps).call S argv = some r ∧ Verbatim S r.args ps argv := by
  constructor
  · intro hall
    have hwithin : Within { pCount := 1 } [['p'], ['x'], ['y']] := ⟨by decide, by decide⟩
    have hslots := (call_verbatim_iff _ _ _ (by decide) hwithin).mp
      (hall { pCount := 1 } (.unbounded _ _) [{ param := some ['a'], acc := .cint }] _ (by decide)
        hwithin)
    have hslot := (slotVerbatim_iff hwithin le_rfl (by decide) (by decide)
      (by decide)).mp (hslots 1 le_rfl (by decide))
    exact absurd hslot (by decide)
  · intro cfg S ps argv
    have hwithin : Within cfg argv := ⟨by decide, by decide⟩
    refine ⟨hwithin, fun h => ?_⟩
    have hslots := (call_verbatim_iff cfg S ps (by decide) hwithin).mp h
    have hslot := (slotVerbatim_iff hwithin (by decide)
      (by decide) (by decide) (by decide)).mp (hslots 2 (by decide) (by decide))
    exact absurd hslot (by decide)

end Bbench.Cargs
