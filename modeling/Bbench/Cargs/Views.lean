import Bbench.Cargs.Dispatch
import Mathlib.Data.List.Chain

/-! What a new parser shows of a command line as a whole. The arguments are a sequence of
parts, keys with and without a value among them, and each list that a parser gives out is
one kind of part, in order; the keys and their values are at the same places of two lists. -/

namespace Bbench.Cargs

open Lib (BoundedText)

variable {cfg : Config} {φ : Type*}

namespace Slots

/-- `n.type >= Accepts::ckey`, by the order of the enumeration. -/
def keyed (n : Packet) : Bool := Accepts.ckey.ctorIdx ≤ n.type.ctorIdx

/-- `list`. -/
def list (slots : Slots cfg) : List (List Char) :=
  ((List.ofFn slots).filter keyed).map Packet.key

/-- `data`. -/
def data (slots : Slots cfg) : List (List Char) :=
  ((List.ofFn slots).filter keyed).map Packet.data

/-- `params`. -/
def params (slots : Slots cfg) : List (List Char) :=
  ((List.ofFn slots).filter fun n => n.type = .cparam).map Packet.key

/-- `operator[](list)`. -/
def hasAny (slots : Slots cfg) (list : List (List Char)) : Bool :=
  (List.ofFn slots).any fun n => list.any fun c => c = n.key

theorem hasAny_iff {slots : Slots cfg} {list : List (List Char)} :
    slots.hasAny list = true ↔ ∃ n ∈ List.ofFn slots, n.key ∈ list := by
  rw [hasAny, List.any_eq_true]
  refine exists_congr fun n => and_congr_right fun _ => ?_
  rw [List.any_eq_true]
  simp

end Slots

/-! ### The parts of a command line -/

/-- A part of a command line. -/
inductive Part
  | key (arg : List Char) (value : Option (List Char))
  | param (arg : List Char)
  | operand (arg : List Char)
  /-- An argument that is too long. -/
  | skipped (arg : List Char)
  deriving DecidableEq, Repr

namespace Part

def args : Part → List (List Char)
  | key arg value => arg :: value.toList
  | param arg | operand arg | skipped arg => [arg]

def Valid (cfg : Config) : Part → Prop
  | key arg value => kindOf cfg arg = .key ∧ ∀ v ∈ value, kindOf cfg v = .plain
  | param arg => kindOf cfg arg = .param
  | operand arg => kindOf cfg arg = .plain
  | skipped arg => kindOf cfg arg = .skipped

/-- After a key without a value there is no operand. -/
def Apart : Part → Part → Prop
  | key _ none, operand _ => False
  | _, _ => True

/-- The name of a key, and its value or the empty text. -/
def pair? (cfg : Config) : Part → Option (List Char × List Char)
  | key arg value => some (trim cfg.flagChar arg, value.getD [])
  | _ => none

def param? (cfg : Config) : Part → Option (List Char)
  | param arg => some (trim cfg.flagChar arg)
  | _ => none

def operand? : Part → Option (List Char)
  | operand arg => some arg
  | _ => none

/-- The name a part can be found by. -/
def name? (cfg : Config) : Part → Option (List Char)
  | key arg _ | param arg => some (trim cfg.flagChar arg)
  | _ => none

/-- The slot that a part fills. -/
def packet? (cfg : Config) : Part → Option Packet
  | key arg none => some ⟨trim cfg.flagChar arg, [], .ckey⟩
  | key arg (some v) => some ⟨trim cfg.flagChar arg, v, .cstring⟩
  | param arg => some ⟨trim cfg.flagChar arg, [], .cparam⟩
  | operand arg => some ⟨[], arg, .coperand⟩
  | skipped _ => none

end Part

/-- The arguments are these parts, one after the other. -/
structure Divides (cfg : Config) (parts : List Part) (args : List (List Char)) : Prop where
  valid : ∀ part ∈ parts, part.Valid cfg
  apart : parts.IsChain Part.Apart
  args : parts.flatMap Part.args = args

/-- What a key takes of the parts after it, and what it leaves. -/
def takeValue : List Part → Option (List Char) × List Part
  | .operand v :: parts => (some v, parts)
  | parts => (none, parts)

/-- One argument more in front. -/
def addPart (cfg : Config) (arg : List Char) (parts : List Part) : List Part :=
  match kindOf cfg arg with
  | .key => .key arg (takeValue parts).1 :: (takeValue parts).2
  | .param => .param arg :: parts
  | .skipped => .skipped arg :: parts
  | _ => .operand arg :: parts

def partsOf (cfg : Config) (args : List (List Char)) : List Part := args.foldr (addPart cfg) []

theorem partsOf_cons (arg : List Char) (args : List (List Char)) :
    partsOf cfg (arg :: args) = addPart cfg arg (partsOf cfg args) := rfl

theorem kindOf_cases (cfg : Config) (arg : List Char) : kindOf cfg arg = .key ∨
    kindOf cfg arg = .param ∨ kindOf cfg arg = .skipped ∨ kindOf cfg arg = .plain := by
  unfold kindOf
  split_ifs <;> simp

section AddPart
variable {arg : List Char} (parts : List Part)

theorem addPart_of_key (h : kindOf cfg arg = .key) : addPart cfg arg parts =
    .key arg (takeValue parts).1 :: (takeValue parts).2 := by rw [addPart, h]

theorem addPart_of_param (h : kindOf cfg arg = .param) :
    addPart cfg arg parts = .param arg :: parts := by rw [addPart, h]

theorem addPart_of_skipped (h : kindOf cfg arg = .skipped) :
    addPart cfg arg parts = .skipped arg :: parts := by rw [addPart, h]

theorem addPart_of_plain (h : kindOf cfg arg = .plain) :
    addPart cfg arg parts = .operand arg :: parts := by rw [addPart, h]

end AddPart

/-- Taking off a value changes nothing else. -/
theorem takeValue_cases (parts : List Part) :
    (∃ v, parts = .operand v :: (takeValue parts).2 ∧ (takeValue parts).1 = some v) ∨
      ((takeValue parts).1 = none ∧ (takeValue parts).2 = parts ∧
        ∀ v rest, parts ≠ .operand v :: rest) := by
  cases parts with
  | nil => exact .inr ⟨rfl, rfl, fun v rest => nofun⟩
  | cons part parts =>
    cases part with
    | operand v => exact .inl ⟨v, rfl, rfl⟩
    | key arg value => exact .inr ⟨rfl, rfl, fun v rest => nofun⟩
    | param arg => exact .inr ⟨rfl, rfl, fun v rest => nofun⟩
    | skipped arg => exact .inr ⟨rfl, rfl, fun v rest => nofun⟩

theorem Divides.addPart {parts : List Part} {args : List (List Char)}
    (h : Divides cfg parts args) (arg : List Char) :
    Divides cfg (addPart cfg arg parts) (arg :: args) := by
  rcases kindOf_cases cfg arg with hk | hk | hk | hk
  · rw [addPart_of_key parts hk]
    obtain ⟨v, hparts, hv⟩ | ⟨hnone, hrest, hop⟩ := takeValue_cases parts
    · -- the operand in front is the value of the new key
      have hvalid := h.valid
      have hapart := h.apart
      have hargs := h.args
      rw [hparts] at hvalid hapart hargs
      obtain ⟨hplain, hvalid⟩ := List.forall_mem_cons.mp hvalid
      refine ⟨List.forall_mem_cons.mpr ⟨⟨hk, ?_⟩, hvalid⟩, ?_, ?_⟩
      · rw [hv]
        rintro x ⟨⟩
        exact hplain
      · rw [hv]
        exact hapart.tail.cons fun y _ => trivial
      · rw [hv, List.flatMap_cons, ← hargs, List.flatMap_cons]
        rfl
    · rw [hnone, hrest]
      refine ⟨List.forall_mem_cons.mpr ⟨⟨hk, nofun⟩, h.valid⟩, h.apart.cons ?_, ?_⟩
      · intro y hy
        cases y with
        | operand v =>
          obtain ⟨rest, hparts⟩ := List.head?_eq_some_iff.mp hy
          exact absurd hparts (hop v rest)
        | _ => trivial
      · rw [List.flatMap_cons, h.args]
        rfl
  all_goals
    rw [Cargs.addPart, hk]
    refine ⟨List.forall_mem_cons.mpr ⟨hk, h.valid⟩, h.apart.cons fun y _ => trivial, ?_⟩
    rw [List.flatMap_cons, h.args]
    rfl

theorem divides_partsOf (args : List (List Char)) : Divides cfg (partsOf cfg args) args := by
  induction args with
  | nil => exact ⟨nofun, .nil, rfl⟩
  | cons arg args ih => exact ih.addPart arg

/-- A part in front is found again. -/
theorem addPart_args {part : Part} {parts : List Part} (hvalid : part.Valid cfg)
    (hapart : (part :: parts).IsChain Part.Apart) :
    part.args.foldr (addPart cfg) parts = part :: parts := by
  cases part with
  | key arg value =>
    cases value with
    | none =>
      have htake : takeValue parts = (none, parts) := by
        cases parts with
        | nil => rfl
        | cons part' parts =>
          cases part' with
          | operand v => exact (List.isChain_cons_cons.mp hapart).1.elim
          | _ => rfl
      show addPart cfg arg parts = _
      rw [addPart_of_key parts hvalid.1, htake]
    | some v =>
      have hv : kindOf cfg v = .plain := hvalid.2 v rfl
      show addPart cfg arg (addPart cfg v parts) = _
      rw [addPart_of_plain parts hv, addPart_of_key _ hvalid.1]
      rfl
  | param arg => exact addPart_of_param parts hvalid
  | operand arg => exact addPart_of_plain parts hvalid
  | skipped arg => exact addPart_of_skipped parts hvalid

/-- The parts of a command line are unique. -/
theorem divides_iff {parts : List Part} {args : List (List Char)} :
    Divides cfg parts args ↔ parts = partsOf cfg args := by
  constructor
  · rintro ⟨hvalid, hapart, rfl⟩
    induction parts with
    | nil => rfl
    | cons part parts ih =>
      obtain ⟨hpart, hvalid⟩ := List.forall_mem_cons.mp hvalid
      have hrest := ih hvalid hapart.tail
      rw [partsOf, List.flatMap_cons, List.foldr_append, ← partsOf, ← hrest,
        addPart_args hpart hapart]
  · rintro rfl
    exact divides_partsOf args

/-! ### The slots -/

section Slots
variable {S : BoundedText cfg.maxBuffer Char} {argv : List (List Char)}

/-- A slot without a type is empty. -/
theorem npSlot_eq_of_czero {i : ℕ} (h : (npSlot S argv i).type = .czero) :
    npSlot S argv i = {} := by
  cases hk : kindAt cfg argv i <;> rw [npSlot, hk] at h ⊢ <;> dsimp only at h ⊢
  case key => split_ifs at h
  case plain =>
    split_ifs at h ⊢
    rfl
  all_goals cases h

theorem getElem_of_drop {i : ℕ} {arg : List Char} {rest : List (List Char)}
    (hdrop : argv.drop i = arg :: rest) : ∃ hlt : i < argv.length, argv[i] = arg := by
  refine List.getElem?_eq_some_iff.mp ?_
  rw [← List.head?_drop, hdrop]
  rfl

/-- The next argument is a key's value if it is plain. -/
theorem takeValue_partsOf {i : ℕ} {rest : List (List Char)} (hi : 0 < i)
    (hdrop : argv.drop i = rest) : (takeValue (partsOf cfg rest)).1 =
      if kindAt cfg argv i = .plain then some (argAt argv i) else none := by
  cases rest with
  | nil =>
    rw [kindAt_absent hi (List.drop_eq_nil_iff.mp hdrop)]
    rfl
  | cons arg rest =>
    obtain ⟨hlt, hget⟩ := getElem_of_drop hdrop
    rw [kindAt_eq hi hlt, argAt, List.getD_eq_getElem _ _ hlt, hget, partsOf_cons, addPart]
    rcases kindOf_cases cfg arg with hk | hk | hk | hk <;> rw [hk] <;> rfl

/-- The filled slots from an argument on are those of the parts from there on; an operand in
front of them that is the value of the key before has none of its own. -/
theorem filled_drop (rest : List (List Char)) (i : ℕ) (hi : 0 < i) (hdrop : argv.drop i = rest) :
    ((List.range' i rest.length).map (npSlot S argv)).filter (fun n => n.type ≠ .czero) =
      (if kindAt cfg argv (i - 1) = .key then (takeValue (partsOf cfg rest)).2
        else partsOf cfg rest).filterMap (Part.packet? cfg) := by
  induction rest generalizing i with
  | nil => split_ifs <;> rfl
  | cons arg rest ih =>
    obtain ⟨hlt, hget⟩ := getElem_of_drop hdrop
    have hdrop' : argv.drop (i + 1) = rest := by rw [← List.tail_drop, hdrop, List.tail_cons]
    have harg : argAt argv i = arg := by rw [argAt, List.getD_eq_getElem _ _ hlt, hget]
    have hkind : kindAt cfg argv i = kindOf cfg arg := by rw [kindAt_eq hi hlt, hget]
    have hvalue : (takeValue (partsOf cfg rest)).1 =
        if kindAt cfg argv (i + 1) = .plain then some (argAt argv (i + 1)) else none :=
      takeValue_partsOf (Nat.succ_pos i) hdrop'
    have hrest := ih (i + 1) (Nat.succ_pos i) hdrop'
    rw [Nat.add_sub_cancel, hkind] at hrest
    rw [List.length_cons, List.range'_succ, List.map_cons, List.filter_cons, hrest, npSlot, hkind,
      harg, partsOf_cons]
    rcases kindOf_cases cfg arg with hk | hk | hk | hk
    · have htake (value : Option (List Char)) (parts : List Part) :
          takeValue (.key arg value :: parts) = (none, .key arg value :: parts) := rfl
      rw [addPart_of_key _ hk, htake, ite_self, hvalue, hk, if_pos rfl]
      by_cases hplain : kindAt cfg argv (i + 1) = .plain
      · simp only [hplain, if_true]
        rfl
      · simp only [hplain, if_false]
        rfl
    · have htake : takeValue (.param arg :: partsOf cfg rest) =
        (none, .param arg :: partsOf cfg rest) := rfl
      rw [addPart_of_param _ hk, htake, ite_self, hk]
      simp only [reduceCtorEq, if_false]
      rfl
    · have htake : takeValue (.skipped arg :: partsOf cfg rest) =
        (none, .skipped arg :: partsOf cfg rest) := rfl
      rw [addPart_of_skipped _ hk, htake, ite_self, hk]
      simp only [reduceCtorEq, if_false]
      rfl
    · rw [addPart_of_plain _ hk, hk]
      by_cases hprev : kindAt cfg argv (i - 1) = .key
      · -- the slot stays empty, and the key before has taken the operand
        simp only [hprev, reduceCtorEq, if_true, if_false]
        rfl
      · simp only [hprev, reduceCtorEq, if_false]
        rfl

/-- All filled slots. -/
theorem filled_layout (hlen : argv.length ≤ cfg.maxLength) :
    (List.ofFn (layout S argv)).filter (fun n => n.type ≠ .czero) =
      npSlot S argv 0 :: (partsOf cfg argv.tail).filterMap (Part.packet? cfg) := by
  have hslots : List.ofFn (layout S argv) = (List.range cfg.maxLength).map (npSlot S argv) := by
    rw [ofFn_get]
    exact List.map_congr_left fun i _ => get_layout hlen i
  have hpos := cfg.length_pos
  have hrange : List.range cfg.maxLength = 0 :: (List.range' 1 argv.tail.length ++
      List.range' (argv.tail.length + 1) (cfg.maxLength - 1 - argv.tail.length)) := by
    have happend : List.range' 1 argv.tail.length ++
        List.range' (1 + argv.tail.length) (cfg.maxLength - 1 - argv.tail.length) =
          List.range' 1 (argv.tail.length + (cfg.maxLength - 1 - argv.tail.length)) :=
      List.range'_append_1
    rw [Nat.add_comm argv.tail.length 1, happend, List.length_tail,
      Nat.add_sub_of_le (Nat.sub_le_sub_right hlen 1), List.range_eq_range']
    obtain ⟨m, hm⟩ := Nat.exists_eq_add_of_le' hpos
    rw [hm]
    rfl
  have hbeyond : ((List.range' (argv.tail.length + 1)
      (cfg.maxLength - 1 - argv.tail.length)).map (npSlot S argv)).filter
        (fun n => n.type ≠ .czero) = [] := by
    rw [List.filter_eq_nil_iff]
    intro n hn
    obtain ⟨i, hi, rfl⟩ := List.mem_map.mp hn
    rw [List.mem_range'_1, List.length_tail] at hi
    rw [npSlot_beyond (by omega) (by omega)]
    simp
  have hfilled := filled_drop (S := S) argv.tail 1 Nat.one_pos List.drop_one
  rw [Nat.sub_self, kindAt_zero, if_neg (by decide)] at hfilled
  rw [hslots, hrange, List.map_cons, List.map_append, List.filter_cons, List.filter_append,
    hfilled, hbeyond, List.append_nil, npSlot_zero]
  rfl

end Slots

/-- What a parser gives out, kind by kind, and the names it finds, apart from the empty one
and the text of the first slot, which is the path's. -/
structure Shows (slots : Slots cfg) (parts : List Part) : Prop where
  list : slots.list = (parts.filterMap (Part.pair? cfg)).map Prod.fst
  data : slots.data = (parts.filterMap (Part.pair? cfg)).map Prod.snd
  params : slots.params = parts.filterMap (Part.param? cfg)
  operands : slots.operands = parts.filterMap Part.operand?
  has : ∀ names : List (List Char), [] ∉ names → (slots.get 0).key ∉ names →
    (slots.hasAny names = true ↔ ∃ part ∈ parts, ∃ name ∈ part.name? cfg, name ∈ names)

/-- A list of one kind of slot is a list of one kind of part. -/
theorem filter_layout {S : BoundedText cfg.maxBuffer Char} {argv : List (List Char)}
    (hlen : argv.length ≤ cfg.maxLength) {q : Packet → Bool}
    (hq : ∀ n, n.type = .czero ∨ n.type = .cpath → q n = false)
    {f : Packet → List Char} {view : Part → Option (List Char)}
    (hview : ∀ part, ((part.packet? cfg).filter q).map f = view part) :
    ((List.ofFn (layout S argv)).filter q).map f = (partsOf cfg argv.tail).filterMap view := by
  have hfilled : (List.ofFn (layout S argv)).filter q =
      ((List.ofFn (layout S argv)).filter fun n => n.type ≠ .czero).filter q := by
    rw [List.filter_filter]
    refine List.filter_congr fun n _ => ?_
    by_cases hn : n.type = .czero
    · rw [hq n (.inl hn), Bool.false_and]
    · simp [hn]
  have hprogram : q (npSlot S argv 0) = false := hq _ (.inr (by rw [npSlot_zero]))
  rw [hfilled, filled_layout hlen, List.filter_cons_of_neg (by simp [hprogram]),
    List.filter_filterMap, List.map_filterMap]
  exact congrArg (List.filterMap · _) (funext hview)

/-- A name that is found is the name of a part. -/
theorem hasAny_layout {S : BoundedText cfg.maxBuffer Char} {argv : List (List Char)}
    (hlen : argv.length ≤ cfg.maxLength) {names : List (List Char)} (hnil : [] ∉ names)
    (hpath : (npSlot S argv 0).key ∉ names) : (layout S argv).hasAny names = true ↔
      ∃ part ∈ partsOf cfg argv.tail, ∃ name ∈ part.name? cfg, name ∈ names := by
  have hfilled := filled_layout (S := S) hlen
  rw [Slots.hasAny_iff]
  constructor
  · rintro ⟨n, hn, hkey⟩
    have htype : n.type ≠ .czero := by
      obtain ⟨i, rfl⟩ := List.mem_ofFn.mp hn
      intro hzero
      have hempty : npSlot S argv i = {} := npSlot_eq_of_czero hzero
      rw [layout, hempty] at hkey
      exact hnil hkey
    have hmem : n ∈ (List.ofFn (layout S argv)).filter fun n => n.type ≠ .czero :=
      List.mem_filter.mpr ⟨hn, by simp [htype]⟩
    rw [hfilled, List.mem_cons, List.mem_filterMap] at hmem
    obtain rfl | ⟨part, hpart, hpacket⟩ := hmem
    · exact absurd hkey hpath
    · refine ⟨part, hpart, ?_⟩
      rcases part with ⟨arg, _ | v⟩ | arg | arg | arg
      · cases hpacket
        exact ⟨_, rfl, hkey⟩
      · cases hpacket
        exact ⟨_, rfl, hkey⟩
      · cases hpacket
        exact ⟨_, rfl, hkey⟩
      · cases hpacket
        exact absurd hkey hnil
      · cases hpacket
  · rintro ⟨part, hpart, name, hname, hmem⟩
    have hslot (n : Packet) (hn : part.packet? cfg = some n) : n ∈ List.ofFn (layout S argv) := by
      have hin : n ∈ (List.ofFn (layout S argv)).filter fun n => n.type ≠ .czero := by
        rw [hfilled]
        exact List.mem_cons_of_mem _ (List.mem_filterMap.mpr ⟨part, hpart, hn⟩)
      exact (List.mem_filter.mp hin).1
    rcases part with ⟨arg, _ | v⟩ | arg | arg | arg
    · cases hname
      exact ⟨_, hslot _ rfl, hmem⟩
    · cases hname
      exact ⟨_, hslot _ rfl, hmem⟩
    · cases hname
      exact ⟨_, hslot _ rfl, hmem⟩
    · cases hname
    · cases hname

theorem keyed_eq_false {n : Packet} (h : n.type = .czero ∨ n.type = .cpath) :
    Slots.keyed n = false := by
  rcases h with h | h <;> rw [Slots.keyed, h] <;> rfl

theorem shows_layout {S : BoundedText cfg.maxBuffer Char} {argv : List (List Char)}
    (hlen : argv.length ≤ cfg.maxLength) : Shows (layout S argv) (partsOf cfg argv.tail) where
  list := by
    rw [List.map_filterMap]
    refine filter_layout hlen (fun n hn => keyed_eq_false hn) fun part => ?_
    rcases part with ⟨arg, _ | v⟩ | arg | arg | arg <;> rfl
  data := by
    rw [List.map_filterMap]
    refine filter_layout hlen (fun n hn => keyed_eq_false hn) fun part => ?_
    rcases part with ⟨arg, _ | v⟩ | arg | arg | arg <;> rfl
  params := by
    refine filter_layout hlen ?_ fun part => ?_
    · rintro n (hn | hn) <;> rw [hn] <;> rfl
    · rcases part with ⟨arg, _ | v⟩ | arg | arg | arg <;> rfl
  operands := by
    refine filter_layout hlen ?_ fun part => ?_
    · rintro n (hn | hn) <;> rw [hn] <;> rfl
    · rcases part with ⟨arg, _ | v⟩ | arg | arg | arg <;> rfl
  has names hnil hpath := by
    rw [get_layout hlen] at hpath
    exact hasAny_layout hlen hnil hpath

theorem shows_fresh : Shows (Slots.fresh : Slots cfg) [] where
  list := by simp [Slots.list, Slots.fresh, keyed_eq_false]
  data := by simp [Slots.data, Slots.fresh, keyed_eq_false]
  params := by simp [Slots.params, Slots.fresh]
  operands := by simp [Slots.operands, Slots.fresh]
  has names hnil _ := by
    rw [Slots.hasAny_iff]
    refine iff_of_false ?_ (by simp)
    rintro ⟨n, hn, hkey⟩
    obtain ⟨i, rfl⟩ := List.mem_ofFn.mp hn
    exact hnil hkey

/-- What a new parser has in its slots, the loop over them aside. -/
theorem ofArgv_shows (cfg : Config) (S : BoundedText cfg.maxBuffer Char)
    (argv : List (List Char)) :
    ∃ r : Run cfg φ, Parser.ofArgv S argv = some r ∧ ∃ parts, Shows r.args parts ∧
      ∀ parts', Divides cfg parts' (if argv.length ≤ cfg.maxLength then argv.tail else []) ↔
        parts' = parts := by
  by_cases hlen : argv.length ≤ cfg.maxLength
  · rw [if_pos hlen]
    by_cases hone : argv.length = 1
    · have htail : argv.tail = [] := List.length_eq_zero_iff.mp (by rw [List.length_tail, hone])
      refine ⟨_, generalParseNp_idle S _ .fresh (.inr hone), _, shows_fresh, fun parts' => ?_⟩
      rw [htail]
      exact divides_iff
    · exact ⟨_, generalParseNp_eq cfg S argv _ hlen hone, _, shows_layout hlen,
        fun parts' => divides_iff⟩
  · rw [if_neg hlen]
    exact ⟨_, generalParseNp_idle S _ .fresh (.inl (by omega)), _, shows_fresh,
      fun parts' => divides_iff⟩

/-- The loop over the slots ends inside them unless there are as many arguments. -/
theorem ofArgv_inside_of_ne (S : BoundedText cfg.maxBuffer Char) {argv : List (List Char)}
    (hargv : argv ≠ []) (hne : argv.length ≠ cfg.maxLength) :
    StaysInside (Parser.ofArgv (φ := φ) S argv) := by
  have hpos := List.length_pos_iff.mpr hargv
  refine (ofArgv_inside cfg S argv).mpr ?_
  rcases Nat.lt_or_gt_of_ne hne with hlt | hgt
  · have hlast : kindAt cfg argv (cfg.maxLength - 1) = .absent :=
      kindAt_absent (by omega) (by omega)
    exact .inr (.inr ⟨_, by omega, .inl hlast⟩)
  · exact .inl hgt

/-- The lists of a parser are the command line, sorted by kind. For every configuration and
every command line, the arguments that a new parser has read are a unique sequence of parts:
keys, each with the plain argument behind it as its value if there is one, params, operands
and arguments that are too long. `list` and `data` have the name of every key and its value
at the same place, `params` has every param and `operands` every operand, all in order, and
one of some names is found if it is the name of a key or a param; with too many arguments,
nothing is read. The constructor has to stay inside the slots, as it does at least when there
are some arguments and not as many as slots. -/
theorem np_shows (cfg : Config) (S : BoundedText cfg.maxBuffer Char) (argv : List (List Char)) :
    ∃ r : Run cfg φ, Parser.ofArgv S argv = some r ∧
      (argv ≠ [] → argv.length ≠ cfg.maxLength → r.inside = true) ∧
      (r.inside = true → ∃ parts, Shows r.args parts ∧
        ∀ parts', Divides cfg parts' (if argv.length ≤ cfg.maxLength then argv.tail else []) ↔
          parts' = parts) := by
  obtain ⟨r, hr, hshows⟩ := ofArgv_shows (φ := φ) cfg S argv
  refine ⟨r, hr, fun hargv hne => ?_, fun _ => hshows⟩
  obtain ⟨r', hr', hinside⟩ := ofArgv_inside_of_ne S hargv hne
  rw [Option.some.inj (hr.symm.trans hr')]
  exact hinside

/-- `p --o f x` -/
theorem np_shows_key : ∃ r : Run {} Unit,
    Parser.ofArgv (.unbounded _ _) [['p'], ['-', '-', 'o'], ['f'], ['x']] = some r ∧
      r.inside = true ∧
      Shows r.args [.key ['-', '-', 'o'] (some ['f']), .operand ['x']] := by
  obtain ⟨r, hr, hinside, hshows⟩ := np_shows (φ := Unit) {} (.unbounded _ _)
    [['p'], ['-', '-', 'o'], ['f'], ['x']]
  have hin := hinside (by decide) (by decide)
  obtain ⟨parts, hparts, hunique⟩ := hshows hin
  have hdivides : Divides {} [.key ['-', '-', 'o'] (some ['f']), .operand ['x']]
      [['-', '-', 'o'], ['f'], ['x']] :=
    ⟨by simp [Part.Valid]; decide, by simp [Part.Apart], by decide⟩
  rw [← (hunique _).mp hdivides] at hparts
  exact ⟨r, hr, hin, hparts⟩

end Bbench.Cargs
