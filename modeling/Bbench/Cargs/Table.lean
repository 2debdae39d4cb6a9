import Bbench.Cargs.Layout

/-! What `general_parse` does with the slots. Every argument changes its own slot and no
other, and of the table only the first entry has a part in it. -/

namespace Bbench.Cargs

open Lib (BoundedText)

variable {cfg : Config} {φ : Type*} (S : BoundedText cfg.maxBuffer Char)
  (table : List (ParamPacket φ)) (slots : Slots cfg) (argv : List (List Char))

/-- An argument's own slot, with what it held before. -/
def argSlot (argv : List (List Char)) (i : ℕ) (p : Packet) : Packet :=
  match argv[i]? with
  | none => p
  | some arg => if cfg.maxBuffer < arg.length then p else matchTable S table arg argv[i + 1]? p

/-- The slots after the loop. -/
def parsed : Slots cfg := fun i =>
  if i.val = 0 then { slots i with key := S.append (slots i).key (argv.headD []), type := .cpath }
  else argSlot S table argv i (slots i)

variable {S table slots argv}

theorem argSlot_cons (arg : List Char) (rest : List (List Char)) (i : ℕ) (p : Packet) :
    argSlot S table (arg :: rest) (i + 1) p = argSlot S table rest i p := by
  rw [argSlot, argSlot, List.getElem?_cons_succ, List.getElem?_cons_succ]

theorem argSlot_nil (i : ℕ) (p : Packet) : argSlot S table [] i p = p := by
  rw [argSlot, List.getElem?_nil]

/-- The loop over the rest of the command line, from index `i` on. -/
theorem parseLoop_eq (i : ℕ) (rest : List (List Char)) (slots : Slots cfg)
    (hlen : i + rest.length ≤ cfg.maxLength) : parseLoop S table i rest slots =
      some fun j => if j.val < i then slots j else argSlot S table rest (j.val - i) (slots j) := by
  induction rest generalizing i slots with
  | nil =>
    rw [parseLoop, Option.some.injEq]
    funext j
    rw [argSlot_nil, ite_self]
  | cons arg rest ih =>
    rw [List.length_cons] at hlen
    have hi : i < cfg.maxLength := by omega
    have hstep : (if cfg.maxBuffer < arg.length then some slots
        else slots.write i (matchTable S table arg rest.head?)) =
          some (Function.update slots ⟨i, hi⟩
            (argSlot S table (arg :: rest) 0 (slots ⟨i, hi⟩))) := by
      rw [argSlot, List.getElem?_cons_zero, List.getElem?_cons_succ, ← List.head?_eq_getElem?]
      dsimp only
      split_ifs
      · rw [Function.update_eq_self]
      · rw [Slots.write, dif_pos hi]
    rw [parseLoop, hstep, Option.bind_some, ih (i + 1) _ (by omega), Option.some.injEq]
    funext j
    rcases lt_trichotomy j.val i with hj | hj | hj
    · rw [if_pos (by omega), if_pos hj, Function.update_of_ne (fun h => by simp [h] at hj)]
    · obtain rfl : j = ⟨i, hi⟩ := Fin.ext hj
      rw [if_pos (by simp), if_neg (by simp), Function.update_self, Nat.sub_self]
    · rw [if_neg (by omega), if_neg (by omega), Function.update_of_ne (fun h => by simp [h] at hj),
        show j.val - i = j.val - (i + 1) + 1 by omega, argSlot_cons]

/-- What a parser does with a command line it does not turn down at once. -/
theorem generalParse_eq (cfg : Config) (S : BoundedText cfg.maxBuffer Char)
    (table : List (ParamPacket φ)) (slots : Slots cfg) (argv : List (List Char))
    (hlen : argv.length ≤ cfg.maxLength) (hone : argv.length ≠ 1) :
    generalParse S table slots argv =
      some (callbacksHandler table (parsed S table slots argv)) := by
  have hpos := cfg.length_pos
  rw [generalParse, if_neg (by omega), if_neg hone, parsePath, Slots.write, dif_pos hpos,
    Option.bind_some, parseLoop_eq _ _ _ (by simp; omega), Option.map_some, Option.some.injEq]
  congr 1
  funext j
  rw [parsed]
  by_cases hj : j.val = 0
  · obtain rfl : j = ⟨0, hpos⟩ := Fin.ext hj
    rw [if_pos (by simp), if_pos hj, Function.update_self]
  · rw [if_neg (by omega), if_neg hj, Function.update_of_ne (fun h => by simp [h] at hj)]
    cases argv with
    | nil => rw [List.tail_nil, argSlot_nil, argSlot_nil]
    | cons path rest =>
      rw [List.tail_cons, ← argSlot_cons path, Nat.sub_add_cancel (by omega)]

theorem get_parsed_zero : (parsed S table slots argv).get 0 =
    { slots.get 0 with key := S.append (slots.get 0).key (argv.headD []), type := .cpath } := by
  rw [Slots.get_of_lt _ cfg.length_pos, Slots.get_of_lt _ cfg.length_pos, parsed, if_pos rfl]

theorem get_parsed (hlen : argv.length ≤ cfg.maxLength) {i : ℕ} (hi : 0 < i) :
    (parsed S table slots argv).get i = argSlot S table argv i (slots.get i) := by
  rcases Nat.lt_or_ge i cfg.maxLength with hlt | hge
  · rw [Slots.get_of_lt _ hlt, Slots.get_of_lt _ hlt, parsed, if_neg (by simp; omega)]
  · rw [Slots.get, Slots.get, Slots.read, Slots.read, dif_neg (by omega), argSlot,
      List.getElem?_eq_none (by omega), dif_neg (by omega)]

/-- A command line without arguments, or with too many, changes nothing. -/
theorem generalParse_idle (S : BoundedText cfg.maxBuffer Char) (table : List (ParamPacket φ))
    (slots : Slots cfg) (h : cfg.maxLength < argv.length ∨ argv.length = 1) :
    generalParse S table slots argv = some ⟨slots, [], true⟩ := by
  rw [generalParse]
  split_ifs
  · rfl
  · rfl
  · omega

/-- The slots after a call. -/
theorem call_args (S : BoundedText cfg.maxBuffer Char) (p : Parser cfg φ)
    (argv : List (List Char)) : (p.call S argv).map Run.args =
      some (if cfg.maxLength < argv.length ∨ argv.length = 1 then p.args
        else parsed S p.parameters p.args argv) := by
  split_ifs with hlen
  · rw [Parser.call, generalParse_idle S _ _ hlen, Option.map_some]
  · rw [not_or, not_lt] at hlen
    rw [Parser.call, generalParse_eq cfg S _ _ _ hlen.1 hlen.2, Option.map_some,
      callbacksHandler_args]

/-! ### One argument -/

section Entry
variable (S) (n : ParamPacket φ) (arg : List Char) (next : Option (List Char)) (p : Packet)

/-- The argument that goes along as the entry's value. -/
def valueFor : Option (List Char) := if n.acc ≠ .czero then next else none

/-- What an argument adds to the key and, without its value, to the data of its slot. -/
def keyText (cfg : Config) : List Char :=
  if (entryKind cfg n arg).isSome then trim cfg.flagChar arg else []

def ownText (cfg : Config) : List Char :=
  if (entryKind cfg n arg).isSome then [] else arg

theorem matchTable_cons (table : List (ParamPacket φ)) :
    matchTable S (n :: table) arg next p =
      ⟨S.append p.key (keyText n arg cfg),
        S.append (S.append p.data (ownText n arg cfg)) ((valueFor n next).getD []),
        if (valueFor n next).isSome then n.acc else (entryKind cfg n arg).getD .coperand⟩ := by
  simp only [matchTable, keyText, ownText, valueFor]
  cases entryKind cfg n arg <;> cases next <;> by_cases hacc : n.acc = .czero <;> simp [hacc]

/-- The two kinds of a match. -/
theorem entryKind_cases (cfg : Config) (n : ParamPacket φ) (arg : List Char) :
    entryKind cfg n arg = none ∨ entryKind cfg n arg = some .ckey ∨
      entryKind cfg n arg = some .cparam := by
  simp only [entryKind]
  split_ifs <;> simp

/-- A slot that was written is in use. -/
theorem matchType_ne : (if (valueFor n next).isSome then n.acc
    else (entryKind cfg n arg).getD .coperand) ≠ .czero := by
  have hkind : (entryKind cfg n arg).getD .coperand ≠ .czero := by
    rcases entryKind_cases cfg n arg with hk | hk | hk <;> simp [hk]
  by_cases hacc : n.acc = .czero
  · simpa [valueFor, hacc] using hkind
  · split_ifs
    · exact hacc
    · exact hkind

end Entry

theorem valueFor_eq (n : ParamPacket φ) (argv : List (List Char)) (i : ℕ) :
    valueFor n argv[i + 1]? =
      if n.acc ≠ .czero ∧ i + 1 < argv.length then some (argAt argv (i + 1)) else none := by
  rw [valueFor]
  rcases Nat.lt_or_ge (i + 1) argv.length with hlt | hge
  · rw [getElem?_argAt hlt]
    simp only [hlt, and_true]
  · rw [List.getElem?_eq_none hge, ite_self]
    simp only [Nat.not_lt.mpr hge, and_false, if_false]

/-- The first entry of the table, which is null if nothing is registered. -/
theorem storage_eq (cfg : Config) (ls : List (ParamPacket φ)) :
    ∃ table, storage cfg ls = ls.headD .null :: table := by
  cases ls with
  | nil =>
    obtain ⟨k, hk⟩ := Nat.exists_eq_add_of_le' (Nat.le_max_left 1 cfg.pCount)
    refine ⟨List.replicate k .null, ?_⟩
    rw [storage, List.nil_append, List.length_nil, Nat.sub_zero, hk]
    rfl
  | cons n ls => exact ⟨_, rfl⟩

/-! ### What an argument brings -/

/-- What an argument brings to its slot: text for the key, its own text and its value's for
the data, and the type. -/
structure Entry where
  key : List Char
  own : List Char
  value : List Char
  type : Accepts

namespace Entry

/-- A slot after it. -/
def into (S : BoundedText cfg.maxBuffer Char) (e : Entry) (p : Packet) : Packet :=
  ⟨S.append p.key e.key, S.append (S.append p.data e.own) e.value, e.type⟩

/-- Of the program's path, and of an argument with `n` as the first entry of the table. -/
def ofArg (cfg : Config) (n : ParamPacket φ) (argv : List (List Char)) (i : ℕ) : Entry :=
  if i = 0 then ⟨argAt argv 0, [], [], .cpath⟩
  else
    let value := valueFor n argv[i + 1]?
    ⟨keyText n (argAt argv i) cfg, ownText n (argAt argv i) cfg, value.getD [],
      if value.isSome then n.acc else (entryKind cfg n (argAt argv i)).getD .coperand⟩

theorem ofArg_type_ne (n : ParamPacket φ) (i : ℕ) : (ofArg cfg n argv i).type ≠ .czero := by
  rw [ofArg]
  split_ifs
  · simp
  · exact matchType_ne n _ _

end Entry

/-- A parse writes the slots of the path and of the arguments that are not too long. -/
def Written (cfg : Config) (argv : List (List Char)) (i : ℕ) : Prop :=
  i = 0 ∨ i < argv.length ∧ (argAt argv i).length ≤ cfg.maxBuffer

instance (cfg : Config) (argv : List (List Char)) (i : ℕ) : Decidable (Written cfg argv i) :=
  inferInstanceAs (Decidable (_ ∨ _ ∧ _))

/-- What a parse with `n` as the first entry leaves in a slot. -/
def slotAfter (S : BoundedText cfg.maxBuffer Char) (n : ParamPacket φ) (slots : Slots cfg)
    (argv : List (List Char)) (i : ℕ) : Packet :=
  if Written cfg argv i then (Entry.ofArg cfg n argv i).into S (slots.get i) else slots.get i

/-- Every slot after a parse, from what its argument brings. -/
theorem get_parsed_eq (n : ParamPacket φ) (hlen : argv.length ≤ cfg.maxLength) (i : ℕ) :
    (parsed S (n :: table) slots argv).get i = slotAfter S n slots argv i := by
  rw [slotAfter]
  rcases Nat.eq_zero_or_pos i with rfl | hi
  · have hpath : Written cfg argv 0 := Or.inl rfl
    rw [get_parsed_zero, if_pos hpath, Entry.ofArg, if_pos rfl]
    cases argv <;> rfl
  · rw [get_parsed hlen hi]
    rcases Nat.lt_or_ge i argv.length with hlt | hge
    · rw [argSlot, getElem?_argAt hlt]
      dsimp only
      by_cases hshort : (argAt argv i).length ≤ cfg.maxBuffer
      · have hwritten : Written cfg argv i := Or.inr ⟨hlt, hshort⟩
        rw [if_neg (by omega), if_pos hwritten, matchTable_cons, Entry.ofArg, if_neg hi.ne']
        rfl
      · have hlong : ¬ Written cfg argv i := fun h => hshort (h.resolve_left hi.ne').2
        rw [if_pos (by omega), if_neg hlong]
    · have hbeyond : ¬ Written cfg argv i := fun h =>
        absurd (h.resolve_left hi.ne').1 (Nat.not_lt.mpr hge)
      rw [argSlot, List.getElem?_eq_none hge, if_neg hbeyond]

/-- An argument that is not too long has room in an empty slot, with the text that it adds to
the key and its own. -/
theorem into_fresh (n : ParamPacket φ) {i : ℕ} (hi : 0 < i)
    (hshort : (argAt argv i).length ≤ cfg.maxBuffer) :
    (Entry.ofArg cfg n argv i).into S {} = ⟨(Entry.ofArg cfg n argv i).key,
      S.append (Entry.ofArg cfg n argv i).own (Entry.ofArg cfg n argv i).value,
      (Entry.ofArg cfg n argv i).type⟩ := by
  have hkey : (keyText n (argAt argv i) cfg).length ≤ cfg.maxBuffer := by
    rw [keyText]
    split_ifs
    · exact (length_trim_le _ _).trans hshort
    · exact Nat.zero_le _
  have hown : (ownText n (argAt argv i) cfg).length ≤ cfg.maxBuffer := by
    rw [ownText]
    split_ifs
    · exact Nat.zero_le _
    · exact hshort
  rw [Entry.ofArg, if_neg hi.ne', Entry.into]
  dsimp only
  rw [S.nil_append hkey, S.nil_append hown]

/-- The slot of an argument of a new parser. -/
theorem get_parsed_fresh (n : ParamPacket φ) (hlen : argv.length ≤ cfg.maxLength) {i : ℕ}
    (hi : 0 < i) (hlt : i < argv.length) (hshort : (argAt argv i).length ≤ cfg.maxBuffer) :
    (parsed S (n :: table) .fresh argv).get i =
      ⟨keyText n (argAt argv i) cfg,
        S.append (ownText n (argAt argv i) cfg) ((valueFor n argv[i + 1]?).getD []),
        if (valueFor n argv[i + 1]?).isSome then n.acc
          else (entryKind cfg n (argAt argv i)).getD .coperand⟩ := by
  have hwritten : Written cfg argv i := Or.inr ⟨hlt, hshort⟩
  rw [get_parsed_eq n hlen, slotAfter, if_pos hwritten, fresh_get, into_fresh n hi hshort,
    Entry.ofArg, if_neg hi.ne']

/-- Two parses agree when they agree on every argument that is not too long. -/
theorem parsed_eq_iff (n n' : ParamPacket φ) (table' : List (ParamPacket φ))
    (hlen : argv.length ≤ cfg.maxLength) :
    parsed S (n :: table) slots argv = parsed S (n' :: table') slots argv ↔
      ∀ i, 1 ≤ i → i < argv.length → (argAt argv i).length ≤ cfg.maxBuffer →
        (Entry.ofArg cfg n argv i).into S (slots.get i) =
          (Entry.ofArg cfg n' argv i).into S (slots.get i) := by
  constructor
  · intro h i hi hlt hshort
    have hget := congrArg (fun slots : Slots cfg => slots.get i) h
    have hwritten : Written cfg argv i := Or.inr ⟨hlt, hshort⟩
    simpa only [get_parsed_eq _ hlen, slotAfter, if_pos hwritten] using hget
  · intro h
    refine Slots.ext_get fun i _ => ?_
    rw [get_parsed_eq _ hlen, get_parsed_eq _ hlen, slotAfter, slotAfter]
    rcases Nat.eq_zero_or_pos i with rfl | hi
    · rw [Entry.ofArg, Entry.ofArg, if_pos rfl, if_pos rfl]
    · refine ite_congr rfl (fun hwritten => ?_) fun _ => rfl
      obtain ⟨hlt, hshort⟩ := hwritten.resolve_left hi.ne'
      exact h i hi hlt hshort

end Bbench.Cargs
