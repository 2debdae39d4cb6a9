import Bbench.Cargs.Table
import Mathlib.Data.List.OfFn

/-! Copied and moved parsers. The four members carry the slots over and leave the table
behind: a new parser has null entries, one assigned to keeps its own. What the table is
needed for is the match of each argument, by its first entry alone, and the callbacks of
the keys that the walk over the slots comes by. -/

namespace Bbench.Cargs

open Lib (BoundedText walk walk_eq_flatMap walk_marked_iff walk_snd_congr)

variable {cfg : Config} {φ : Type*} {S : BoundedText cfg.maxBuffer Char}
  {table table' : List (ParamPacket φ)}

/-! ### Callbacks -/

/-- The callbacks of a name, in table order. -/
def callees (table : List (ParamPacket φ)) (key : List Char) : List φ :=
  table.filterMap fun n => if n.named key then n.ptr else none

/-- What a callback is passed, if its type has an arity that is called at all. -/
def passed (cfg : Config) (p : Packet) : Option (List (List Char)) :=
  match cfg.arity with
  | some 0 => some []
  | some 1 => some [p.key]
  | some 2 => some [p.key, p.data]
  | _ => none

/-- The callbacks for one slot. -/
def invoked (cfg : Config) (table : List (ParamPacket φ)) (p : Packet) : List (Call φ) :=
  (passed cfg p).elim [] fun args => (callees table p.key).map fun f => .packet f args

theorem call_eq (n : ParamPacket φ) (p : Packet) : n.call cfg p =
    (passed cfg p).elim [] fun args => (n.ptr.map fun f => .packet f args).toList := by
  rw [ParamPacket.call, passed]
  cases n.ptr with
  | none =>
    dsimp only
    split <;> rfl
  | some f =>
    dsimp only
    split <;> simp_all

/-- The calls for one slot. -/
theorem visit_eq (table : List (ParamPacket φ)) (c : ℕ) (p : Packet) :
    visit cfg table c p =
      invoked cfg table p ++ if cfg.hasGlobal then [.global c p.key p.data] else [] := by
  rw [visit]
  congr 1
  induction table with
  | nil => cases hp : passed cfg p <;> simp [invoked, callees, hp]
  | cons n table ih =>
    rw [List.flatMap_cons, ih, invoked, invoked, callees, callees, List.filterMap_cons, call_eq]
    cases passed cfg p with
    | none => simp
    | some args => cases n.named p.key <;> cases n.ptr <;> simp

/-- The global callback tells the slots apart. -/
def Call.IsGlobal : Call φ → Prop
  | .packet _ _ => False
  | .global _ _ _ => True

theorem not_isGlobal_invoked (table : List (ParamPacket φ)) (p : Packet) :
    ∀ call ∈ invoked cfg table p, ¬ call.IsGlobal := by
  intro call hcall
  rw [invoked] at hcall
  cases hp : passed cfg p with
  | none => simp [hp] at hcall
  | some args =>
    rw [hp, Option.elim_some] at hcall
    obtain ⟨f, -, rfl⟩ := List.mem_map.mp hcall
    exact not_false

/-- The slots that `callbacks_handler` visits. -/
def visited (slots : List Packet) : List Packet :=
  slots.takeWhile fun p => !decide (p.type = .czero)

/-- Two tables call the same for these slots: for each where the global callback stands
between them, and for all together where nothing does. -/
def SameCalls (cfg : Config) (table table' : List (ParamPacket φ)) (slots : List Packet) : Prop :=
  if cfg.hasGlobal then ∀ p ∈ slots, invoked cfg table p = invoked cfg table' p
  else slots.flatMap (invoked cfg table) = slots.flatMap (invoked cfg table')

/-- The calls for the slots of an array. -/
theorem calls_eq_iff (slots : List Packet) :
    (walk (fun p : Packet => decide (p.type = .czero)) (visit cfg table) 0 slots).1 =
        (walk (fun p : Packet => decide (p.type = .czero)) (visit cfg table') 0 slots).1 ↔
      SameCalls cfg table table' (visited slots) := by
  have hvisit (table : List (ParamPacket φ)) : visit cfg table = fun c p =>
      invoked cfg table p ++ if cfg.hasGlobal then [.global c p.key p.data] else [] :=
    funext fun c => funext fun p => visit_eq table c p
  rw [hvisit table, hvisit table', SameCalls]
  cases cfg.hasGlobal with
  | true =>
    exact walk_marked_iff (M := Call.IsGlobal) (g := fun c p => Call.global c p.key p.data)
      (not_isGlobal_invoked table) (not_isGlobal_invoked table') (fun _ _ => trivial) 0 slots
  | false =>
    simp only [Bool.false_eq_true, if_false, List.append_nil]
    rw [walk_eq_flatMap, walk_eq_flatMap]
    exact Iff.rfl

theorem callbacksHandler_eq_iff (slots slots' : Slots cfg) :
    callbacksHandler table slots = callbacksHandler table' slots' ↔
      slots = slots' ∧ SameCalls cfg table table' (visited (List.ofFn slots)) := by
  constructor
  · intro h
    obtain rfl : slots = slots' := congrArg Run.args h
    exact ⟨rfl, (calls_eq_iff _).mp (congrArg Run.calls h)⟩
  · rintro ⟨rfl, hsame⟩
    rw [callbacksHandler, callbacksHandler, Run.mk.injEq]
    exact ⟨rfl, (calls_eq_iff _).mpr hsame, walk_snd_congr _ _⟩

/-! ### Two tables -/

/-- From these slots two tables do the same with a command line. An argument that is not too
long is taken alike by the first entries of both: what they append to its slot comes out the
same, and so does its type. And the slots visited afterwards name the same callbacks. -/
structure ActAlike (S : BoundedText cfg.maxBuffer Char) (table table' : List (ParamPacket φ))
    (slots : Slots cfg) (argv : List (List Char)) : Prop where
  slot : ∀ i, 1 ≤ i → i < argv.length → (argAt argv i).length ≤ cfg.maxBuffer →
    let e := Entry.ofArg cfg (table.headD .null) argv i
    let e' := Entry.ofArg cfg (table'.headD .null) argv i
    let p := slots.get i
    S.append p.key e.key = S.append p.key e'.key ∧
      S.append (S.append p.data e.own) e.value = S.append (S.append p.data e'.own) e'.value ∧
      e.type = e'.type
  calls : SameCalls cfg table table' (visited ((List.range cfg.maxLength).map
    (slotAfter S (table.headD .null) slots argv)))

/-- When two tables do the same with a command line. -/
theorem generalParse_eq_iff (S : BoundedText cfg.maxBuffer Char) (htable : table ≠ [])
    (htable' : table' ≠ []) (slots : Slots cfg) (argv : List (List Char)) :
    generalParse S table' slots argv = generalParse S table slots argv ↔
      cfg.maxLength < argv.length ∨ argv.length = 1 ∨ ActAlike S table table' slots argv := by
  obtain ⟨n, rest, rfl⟩ := List.exists_cons_of_ne_nil htable
  obtain ⟨n', rest', rfl⟩ := List.exists_cons_of_ne_nil htable'
  by_cases hidle : cfg.maxLength < argv.length ∨ argv.length = 1
  · rw [generalParse_idle S _ _ hidle, generalParse_idle S _ _ hidle, ← or_assoc]
    exact iff_of_true rfl (Or.inl hidle)
  obtain ⟨hlong, hone⟩ := not_or.mp hidle
  have hlen : argv.length ≤ cfg.maxLength := Nat.not_lt.mp hlong
  have hslots : List.ofFn (parsed S (n :: rest) slots argv) =
      (List.range cfg.maxLength).map (slotAfter S n slots argv) := by
    rw [ofFn_get]
    exact List.map_congr_left fun i _ => get_parsed_eq n hlen i
  rw [generalParse_eq cfg S _ _ _ hlen hone, generalParse_eq cfg S _ _ _ hlen hone,
    Option.some.injEq, eq_comm, callbacksHandler_eq_iff, parsed_eq_iff _ _ _ hlen, hslots]
  simp only [hlong, hone, false_or]
  constructor
  · rintro ⟨hslot, hcalls⟩
    exact ⟨fun i hi hlt hshort => Packet.mk.inj (hslot i hi hlt hshort), hcalls⟩
  · rintro ⟨hslot, hcalls⟩
    exact ⟨fun i hi hlt hshort => Packet.mk.injEq .. ▸ hslot i hi hlt hshort, hcalls⟩

/-! ### The members -/

end Bbench.Cargs
