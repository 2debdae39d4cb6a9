import Bbench.Cargs.Scanners
import Mathlib.Data.List.GetD

/-! What `general_parse_np` leaves in the slots. An argument's slot is settled by its own
class and those of its neighbours: while the loop runs, only the slot of the last argument
is open, because the next argument may become its value. -/

namespace Bbench.Cargs

open Lib (BoundedText)

variable {cfg : Config} {φ : Type*} (S : BoundedText cfg.maxBuffer Char)

/-- The argument at a position, empty where there is none. -/
def argAt (argv : List (List Char)) (i : ℕ) : List Char := argv.getD i []

/-- The slot of a position: a key takes a plain argument behind it as its value, whose own
slot stays empty. -/
def npSlot (argv : List (List Char)) (i : ℕ) : Packet :=
  match kindAt cfg argv i with
  | .program => ⟨S.append [] (argv.headD []), [], .cpath⟩
  | .key =>
    if kindAt cfg argv (i + 1) = .plain then
      ⟨trim cfg.flagChar (argAt argv i), argAt argv (i + 1), .cstring⟩
    else ⟨trim cfg.flagChar (argAt argv i), [], .ckey⟩
  | .param => ⟨trim cfg.flagChar (argAt argv i), [], .cparam⟩
  | .plain => if kindAt cfg argv (i - 1) = .key then {} else ⟨[], argAt argv i, .coperand⟩
  | .skipped | .absent => {}

def layout (argv : List (List Char)) : Slots cfg := fun i => npSlot S argv i

/-- A slot by its number, and an empty one beyond the array. -/
def Slots.get (slots : Slots cfg) (i : ℕ) : Packet := (slots.read i).getD {}

variable {S} {argv : List (List Char)} {i : ℕ}

theorem Slots.get_of_lt (slots : Slots cfg) (hi : i < cfg.maxLength) :
    slots.get i = slots ⟨i, hi⟩ := by
  rw [get, read, dif_pos hi, Option.getD_some]

theorem fresh_get (i : ℕ) : (Slots.fresh : Slots cfg).get i = {} := by
  rw [Slots.get, Slots.read]
  split_ifs <;> rfl

theorem Slots.ext_get {slots slots' : Slots cfg}
    (h : ∀ i < cfg.maxLength, slots.get i = slots'.get i) : slots = slots' := by
  funext i
  have hi := h i i.isLt
  rwa [get_of_lt _ i.isLt, get_of_lt _ i.isLt] at hi

theorem ofFn_get (slots : Slots cfg) :
    List.ofFn slots = (List.range cfg.maxLength).map slots.get := by
  refine List.ext_getElem (by simp) fun i hi hi' => ?_
  rw [List.getElem_ofFn, List.getElem_map, List.getElem_range,
    Slots.get_of_lt _ (by simpa using hi)]

theorem getElem?_argAt (hlt : i < argv.length) : argv[i]? = some (argAt argv i) := by
  rw [List.getElem?_eq_getElem hlt, argAt, List.getD_eq_getElem _ _ hlt]

theorem argAt_append (hlt : i < argv.length) (rest : List (List Char)) :
    argAt (argv ++ rest) i = argAt argv i := by
  rw [argAt, argAt, List.getD_append _ _ _ _ hlt]

theorem argAt_concat (arg : List Char) : argAt (argv ++ [arg]) argv.length = arg := by
  rw [argAt, List.getD_append_right _ _ _ _ le_rfl, Nat.sub_self]
  rfl

theorem npSlot_zero : npSlot S argv 0 = ⟨S.append [] (argv.headD []), [], .cpath⟩ := by
  rw [npSlot, kindAt_zero]

theorem npSlot_beyond (hi : 0 < i) (hge : argv.length ≤ i) : npSlot S argv i = {} := by
  rw [npSlot, kindAt_absent hi hge]

theorem get_layout (hlen : argv.length ≤ cfg.maxLength) (i : ℕ) :
    (layout S argv).get i = npSlot S argv i := by
  rcases Nat.lt_or_ge i cfg.maxLength with hi | hi
  · rw [Slots.get_of_lt _ hi, layout]
  · have hpos := cfg.length_pos
    rw [Slots.get, Slots.read, dif_neg (by omega), Option.getD_none,
      npSlot_beyond (by omega) (by omega)]

/-! ### One argument more -/

theorem headD_append (hne : argv ≠ []) (rest : List (List Char)) :
    (argv ++ rest).headD [] = argv.headD [] := by
  cases argv with
  | nil => exact absurd rfl hne
  | cons a argv => rfl

/-- The slots before the last one are settled. -/
theorem npSlot_settled (hlt : i + 1 < argv.length) (rest : List (List Char)) :
    npSlot S (argv ++ rest) i = npSlot S argv i := by
  have hne : argv ≠ [] := List.ne_nil_of_length_pos (by omega)
  rw [npSlot, npSlot, kindAt_append (by omega), kindAt_append (by omega),
    kindAt_append (i := i - 1) (by omega), argAt_append (by omega), argAt_append hlt,
    headD_append hne]

/-- The last slot takes the new argument if it is a key's and the argument is plain. -/
theorem npSlot_last (hne : argv ≠ []) (arg : List Char) :
    npSlot S (argv ++ [arg]) (argv.length - 1) =
      if kindAt cfg argv (argv.length - 1) = .key ∧ kindOf cfg arg = .plain then
        { npSlot S argv (argv.length - 1) with data := arg, type := .cstring }
      else npSlot S argv (argv.length - 1) := by
  have hpos := List.length_pos_iff.mpr hne
  have hsucc : argv.length - 1 + 1 = argv.length := by omega
  have hend : kindAt cfg argv argv.length = .absent := kindAt_absent hpos le_rfl
  rw [npSlot, npSlot, kindAt_append (by omega), hsucc, kindAt_concat hne,
    kindAt_append (i := argv.length - 1 - 1) (by omega), argAt_append (by omega), argAt_concat,
    headD_append hne, hend]
  cases kindAt cfg argv (argv.length - 1) <;> cases kindOf cfg arg <;> simp

/-- The slot of the new argument. -/
theorem npSlot_new (hne : argv ≠ []) (arg : List Char) :
    npSlot S (argv ++ [arg]) argv.length =
      match kindOf cfg arg with
      | .key => ⟨trim cfg.flagChar arg, [], .ckey⟩
      | .param => ⟨trim cfg.flagChar arg, [], .cparam⟩
      | .plain => if kindAt cfg argv (argv.length - 1) = .key then {} else ⟨[], arg, .coperand⟩
      | _ => {} := by
  have hpos := List.length_pos_iff.mpr hne
  have hend : kindAt cfg (argv ++ [arg]) (argv.length + 1) = .absent :=
    kindAt_absent (by omega) (by simp)
  rw [npSlot, kindAt_concat hne, hend, argAt_concat,
    kindAt_append (i := argv.length - 1) (by omega)]
  have hne' := kindOf_ne cfg arg
  cases hk : kindOf cfg arg <;> simp_all

/-- Only the last two slots of the longer command line differ. -/
theorem layout_concat (hne : argv ≠ []) (hlt : argv.length < cfg.maxLength) (arg : List Char) :
    layout S (argv ++ [arg]) =
      Function.update
        (Function.update (layout S argv) ⟨argv.length - 1, by omega⟩
          (npSlot S (argv ++ [arg]) (argv.length - 1)))
        ⟨argv.length, hlt⟩ (npSlot S (argv ++ [arg]) argv.length) := by
  have hpos := List.length_pos_iff.mpr hne
  funext i
  rw [Function.update_apply, Function.update_apply]
  split_ifs with hnew hlast
  · rw [layout, hnew]
  · rw [layout, hlast]
  · have hnew' : i.val ≠ argv.length := fun h => hnew (Fin.ext h)
    have hlast' : i.val ≠ argv.length - 1 := fun h => hlast (Fin.ext h)
    rcases Nat.lt_or_ge (i.val + 1) argv.length with hi | hi
    · exact npSlot_settled hi [arg]
    · rw [layout, layout, npSlot_beyond (by omega) (by simp; omega),
        npSlot_beyond (by omega) (by omega)]

/-! ### The loop -/

theorem npStep_eq (slots : Slots cfg) (i : ℕ) (arg : List Char) : npStep S slots i arg =
    match kindOf cfg arg with
    | .skipped => some slots
    | .key => slots.write i fun p =>
        { p with key := S.append p.key (trim cfg.flagChar arg), type := .ckey }
    | .param => slots.write i fun p =>
        { p with key := S.append p.key (trim cfg.flagChar arg), type := .cparam }
    | _ => (slots.read (i - 1)).bind fun prev =>
        if prev.type = .ckey then
          (slots.write (i - 1) fun p =>
            { p with data := S.append p.data arg, type := .cstring }).bind
              fun slots => slots.write i fun p => { p with type := .czero }
        else slots.write i fun p => { p with data := S.append p.data arg, type := .coperand } := by
  by_cases hskip : cfg.maxBuffer < arg.length
  · simp [npStep, kindOf, hskip]
  · cases hemp : empty cfg.flagChar arg <;> cases hfl : flag cfg.flagChar arg <;>
      cases hpm : param cfg.flagChar arg <;> simp [npStep, kindOf, hskip, hemp, hfl, hpm]

/-- The types of settled slots: a key's slot is the only one of type `ckey`. -/
theorem npSlot_type_ckey : (npSlot S argv i).type = .ckey ↔
    kindAt cfg argv i = .key ∧ kindAt cfg argv (i + 1) ≠ .plain := by
  rw [npSlot]
  cases kindAt cfg argv i <;> simp <;> split_ifs <;> simp_all

/-- One round of the loop. -/
theorem npStep_layout (hne : argv ≠ []) (hlt : argv.length < cfg.maxLength) (arg : List Char) :
    npStep S (layout S argv) argv.length arg = some (layout S (argv ++ [arg])) := by
  have hpos := List.length_pos_iff.mpr hne
  have hnew := npSlot_new (S := S) hne arg
  have hlast := npSlot_last (S := S) hne arg
  have hopen : layout S argv ⟨argv.length, hlt⟩ = {} := npSlot_beyond hpos le_rfl
  have hread : (layout S argv).read (argv.length - 1) = some (npSlot S argv (argv.length - 1)) := by
    rw [Slots.read, dif_pos (by omega)]
    rfl
  have hend : kindAt cfg argv (argv.length - 1 + 1) ≠ .plain := by
    rw [Nat.sub_add_cancel hpos, kindAt_absent hpos le_rfl]
    simp
  have hsame : Function.update (layout S argv) ⟨argv.length - 1, by omega⟩
      (npSlot S argv (argv.length - 1)) = layout S argv := Function.update_eq_self _ _
  have hcap : kindOf cfg arg ≠ .skipped → arg.length ≤ cfg.maxBuffer := by
    rw [ne_eq, kindOf_skipped]
    omega
  rw [npStep_eq, layout_concat hne hlt, hnew, hlast]
  cases hk : kindOf cfg arg with
  | skipped =>
    simp only [reduceCtorEq, and_false, if_false, hsame]
    rw [← hopen, Function.update_eq_self]
  | key =>
    have hle := (length_trim_le cfg.flagChar arg).trans (hcap (by simp [hk]))
    simp only [reduceCtorEq, and_false, if_false, hsame, Slots.write, dif_pos hlt, hopen,
      S.nil_append hle]
  | param =>
    have hle := (length_trim_le cfg.flagChar arg).trans (hcap (by simp [hk]))
    simp only [reduceCtorEq, and_false, if_false, hsame, Slots.write, dif_pos hlt, hopen,
      S.nil_append hle]
  | plain =>
    have hle := hcap (by simp [hk])
    simp only [hread, Option.bind_some, npSlot_type_ckey, and_iff_left hend, and_true]
    by_cases hkey : kindAt cfg argv (argv.length - 1) = .key
    · -- the argument goes to the key before it, and its own slot stays as it is
      have hdata : (npSlot S argv (argv.length - 1)).data = [] := by
        rw [npSlot, hkey]
        simp [hend]
      have hprev : argv.length - 1 < cfg.maxLength := by omega
      have hne' : (⟨argv.length, hlt⟩ : Fin cfg.maxLength) ≠ ⟨argv.length - 1, hprev⟩ := by
        simp only [ne_eq, Fin.mk.injEq]
        omega
      have hslot : layout S argv ⟨argv.length - 1, hprev⟩ = npSlot S argv (argv.length - 1) := rfl
      simp only [hkey, if_true, Slots.write, hprev, hlt, dif_pos, Option.bind_some,
        Function.update_of_ne hne', hopen, hslot, hdata, S.nil_append hle]
    · simp only [hkey, if_false, hsame, Slots.write, hlt, dif_pos, hopen, S.nil_append hle]
  | program => exact absurd hk (kindOf_ne cfg arg).1
  | absent => exact absurd hk (kindOf_ne cfg arg).2

/-- The loop over the rest of the command line. -/
theorem npLoop_layout (argv : List (List Char)) (hne : argv ≠ []) (rest : List (List Char))
    (hlen : (argv ++ rest).length ≤ cfg.maxLength) :
    npLoop S argv.length rest (layout S argv) = some (layout S (argv ++ rest)) := by
  induction rest generalizing argv with
  | nil => rw [List.append_nil]; rfl
  | cons arg rest ih =>
    rw [List.length_append, List.length_cons] at hlen
    have hstep := npStep_layout (S := S) hne (by omega) arg
    have hrest := ih (argv ++ [arg]) (by simp) (by simp; omega)
    rw [List.length_append, List.length_singleton, List.append_assoc,
      List.singleton_append] at hrest
    rw [npLoop, hstep, Option.bind_some, hrest]

/-- What a new parser does with a command line it does not turn down at once. -/
theorem generalParseNp_eq (cfg : Config) (S : BoundedText cfg.maxBuffer Char)
    (argv : List (List Char)) (table : List (ParamPacket φ))
    (hlen : argv.length ≤ cfg.maxLength) (hone : argv.length ≠ 1) :
    generalParseNp S table .fresh argv = some (callbacksHandler table (layout S argv)) := by
  have hpath : parsePath S .fresh argv = some (layout S (argv.take 1)) := by
    rw [parsePath, Slots.write, dif_pos cfg.length_pos, Option.some.injEq]
    funext i
    rw [Function.update_apply]
    split_ifs with hi
    · rw [layout, hi, npSlot_zero]
      cases argv <;> rfl
    · have hpos : i.val ≠ 0 := fun h => hi (Fin.ext h)
      rw [layout, npSlot_beyond (by omega) (by simp; omega)]
      rfl
  rw [generalParseNp, if_neg (by omega), if_neg hone, hpath, Option.bind_some]
  cases argv with
  | nil => rfl
  | cons a rest =>
    have hloop := npLoop_layout (S := S) [a] (by simp) rest hlen
    exact congrArg (Option.map (callbacksHandler table)) hloop

/-- What a new parser satisfies, with the slots of the command line. -/
theorem exists_ofArgv_iff (P : Run cfg φ → Prop) (hlen : argv.length ≤ cfg.maxLength)
    (hone : argv.length ≠ 1) : (∃ r, Parser.ofArgv S argv = some r ∧ P r) ↔
      P (callbacksHandler (storage cfg []) (layout S argv)) := by
  rw [Parser.ofArgv, generalParseNp_eq cfg S argv _ hlen hone]
  simp

/-- A command line without arguments, or with too many, changes nothing. -/
theorem generalParseNp_idle (S : BoundedText cfg.maxBuffer Char) (table : List (ParamPacket φ))
    (slots : Slots cfg) (h : cfg.maxLength < argv.length ∨ argv.length = 1) :
    generalParseNp S table slots argv = some ⟨slots, [], true⟩ := by
  rw [generalParseNp]
  split_ifs
  · rfl
  · rfl
  · omega

end Bbench.Cargs
