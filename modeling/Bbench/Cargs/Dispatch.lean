import Bbench.Cargs.Classes
import Bbench.Cargs.Table
import Mathlib.Data.List.OfFn

/-! The loop of `callbacks_handler` over the slots. It ends at the first empty slot and at
nothing else, while a value leaves its own slot empty: what comes after a key with a value
is not dispatched, and where no slot is empty the loop leaves the array. -/

namespace Bbench.Cargs

open Lib (BoundedText walk walk_congr walk_complete_iff walk_inside_iff)

variable {cfg : Config} {φ : Type*} {S : BoundedText cfg.maxBuffer Char}
  {argv : List (List Char)} {i : ℕ}

/-- A null entry is no slot's name. -/
theorem named_null (key : List Char) : (ParamPacket.null : ParamPacket φ).named key = false := by
  simp [ParamPacket.named, ParamPacket.null]

theorem visit_storage_nil (hglobal : cfg.hasGlobal = true) (c : ℕ) (p : Packet) :
    visit cfg (storage cfg ([] : List (ParamPacket φ))) c p = [.global c p.key p.data] := by
  have hnone : ∀ n ∈ storage cfg ([] : List (ParamPacket φ)), n.named p.key = false := by
    intro n hn
    rw [storage, List.nil_append] at hn
    rw [List.eq_of_mem_replicate hn, named_null]
  have hcalls : ((storage cfg ([] : List (ParamPacket φ))).flatMap fun n =>
      if n.named p.key then n.call cfg p else []) = [] := by
    rw [List.flatMap_eq_nil_iff]
    intro n hn
    rw [if_neg (by simp [hnone n hn])]
  rw [visit, hcalls, List.nil_append, if_pos hglobal]

/-- The loop ends inside the array exactly when there is an empty slot. -/
theorem callbacksHandler_inside (table : List (ParamPacket φ)) (slots : Slots cfg) :
    (callbacksHandler table slots).inside = true ↔
      ∃ i < cfg.maxLength, (slots.get i).type = .czero := by
  rw [callbacksHandler, walk_inside_iff]
  constructor
  · rintro ⟨a, ha, hzero⟩
    obtain ⟨i, rfl⟩ := List.mem_ofFn.mp ha
    refine ⟨i.val, i.isLt, ?_⟩
    rw [Slots.get_of_lt _ i.isLt]
    exact of_decide_eq_true hzero
  · rintro ⟨i, hi, hzero⟩
    rw [Slots.get_of_lt _ hi] at hzero
    exact ⟨_, List.mem_ofFn.mpr ⟨⟨i, hi⟩, rfl⟩, decide_eq_true hzero⟩

/-- The slots `general_parse_np` leaves empty. -/
theorem npSlot_czero : (npSlot S argv i).type = .czero ↔
    kindAt cfg argv i = .absent ∨ kindAt cfg argv i = .skipped ∨
      kindAt cfg argv i = .plain ∧ kindAt cfg argv (i - 1) = .key := by
  rw [npSlot]
  cases kindAt cfg argv i <;> simp <;> split_ifs <;> simp_all

/-! ### What is dispatched -/

/-- The global callback gets every slot that is not empty, in order. -/
def Dispatched (r : Run cfg φ) : Prop :=
  r.calls = ((List.ofFn r.args).zipIdx.filter fun x => x.1.type ≠ .czero).map
    fun x => .global x.2 x.1.key x.1.data

/-- With null entries only, all slots are dispatched exactly when no slot after an empty one
is in use. -/
theorem dispatched_iff (hglobal : cfg.hasGlobal = true) (slots : Slots cfg) :
    Dispatched (callbacksHandler (storage cfg ([] : List (ParamPacket φ))) slots) ↔
      ∀ i j, i < j → j < cfg.maxLength →
        (slots.get i).type = .czero → (slots.get j).type = .czero := by
  have hvisit : walk (fun p : Packet => p.type = .czero) (visit cfg (storage cfg [])) 0
      (List.ofFn slots) = walk (fun p : Packet => p.type = .czero)
        (fun c p => [Call.global (φ := φ) c p.key p.data]) 0 (List.ofFn slots) :=
    walk_congr _ 0 fun c p _ => visit_storage_nil hglobal c p
  have hcomplete := walk_complete_iff (fun p : Packet => p.type = .czero)
    (fun c p => Call.global (φ := φ) c p.key p.data) 0 (List.ofFn slots)
  rw [List.pairwise_ofFn] at hcomplete
  rw [Dispatched, callbacksHandler, hvisit]
  simp only [decide_eq_true_eq, ← decide_not] at hcomplete
  rw [hcomplete]
  constructor
  · intro h i j hij hj hzero
    rw [Slots.get_of_lt _ hj]
    rw [Slots.get_of_lt _ (by omega)] at hzero
    exact h (i := ⟨i, by omega⟩) (j := ⟨j, hj⟩) hij hzero
  · intro h i j hij hzero
    have hlast := h i j hij j.isLt
    rw [Slots.get_of_lt _ i.isLt, Slots.get_of_lt _ j.isLt] at hlast
    exact hlast hzero

/-- When every parsed argument is dispatched. Within the limits the global callback gets
every slot that is in use exactly when no argument follows a key with its value. -/
theorem np_dispatches_iff (cfg : Config) (S : BoundedText cfg.maxBuffer Char)
    (argv : List (List Char)) (hglobal : cfg.hasGlobal = true) (hargc : 2 ≤ argv.length)
    (h : Within cfg argv) :
    (∃ r : Run cfg φ, Parser.ofArgv S argv = some r ∧ Dispatched r) ↔
      ∀ i, 1 ≤ i → kindAt cfg argv i = .key → kindAt cfg argv (i + 1) = .plain →
        i + 2 = argv.length := by
  have hle : argv.length ≤ cfg.maxLength := h.argc.le
  have hget : ∀ i, (layout S argv).get i = npSlot S argv i := get_layout hle
  rw [exists_ofArgv_iff Dispatched hle (by omega), dispatched_iff hglobal]
  constructor
  · intro hall i hi hkey hplain
    have hlt := (lt_of_kindAt cfg argv (hplain.trans_ne (by decide))
      (hplain.trans_ne (by decide))).2
    by_contra hmore
    -- the value's slot is empty, and the one after it is not
    have hnext := hall (i + 1) (i + 2) (by omega) (by have := h.argc; omega)
    rw [hget, hget, npSlot_czero, npSlot_czero] at hnext
    have hcases := h.kindAt_cases (i := i + 2) (by omega) (by omega)
    rcases hcases with hk | hk | hk <;> simp [hk, hplain, hkey] at hnext
  · intro hend i j hij hj hzero
    rw [hget, npSlot_czero] at hzero ⊢
    left
    rcases Nat.eq_zero_or_pos i with rfl | hi
    · simp [kindAt_zero] at hzero
    refine kindAt_absent (by omega) ?_
    by_contra hlt
    have hcases := h.kindAt_cases hi (by omega)
    obtain ⟨hplain, hkey⟩ : kindAt cfg argv i = .plain ∧ kindAt cfg argv (i - 1) = .key := by
      rcases hcases with hk | hk | hk <;> simp [hk] at hzero
      exact ⟨hk, hzero⟩
    have hpos := (lt_of_kindAt cfg argv (hkey.trans_ne (by decide)) (hkey.trans_ne (by decide))).1
    have hlast := hend (i - 1) hpos hkey (by rwa [Nat.sub_add_cancel hi])
    omega

/-- A param, an operand, and a key with its value at the end. -/
theorem np_dispatches_pair_last : ∃ r : Run { hasGlobal := true } Unit,
    Parser.ofArgv (.unbounded _ _) [['p'], ['-', 'a'], ['x'], ['-', '-', 'b'], ['2']] = some r ∧
      Dispatched r := by
  refine (np_dispatches_iff (φ := Unit) { hasGlobal := true } (.unbounded _ _)
    [['p'], ['-', 'a'], ['x'], ['-', '-', 'b'], ['2']] rfl (by decide)
    ⟨by decide, by decide⟩).mpr fun i hi hkey _ => ?_
  have hlt := (lt_of_kindAt _ _ (hkey.trans_ne (by decide)) (hkey.trans_ne (by decide))).2
  have hcases : i = 1 ∨ i = 2 ∨ i = 3 ∨ i = 4 := by
    simp at hlt
    omega
  obtain rfl | rfl | rfl | rfl := hcases
  · exact absurd hkey (by decide)
  · exact absurd hkey (by decide)
  · rfl
  · exact absurd hkey (by decide)

/-- `--a 1 --b 2` ends with the value of `--a`. -/
theorem not_np_dispatches : ¬ ∀ (cfg : Config) (S : BoundedText cfg.maxBuffer Char)
    (argv : List (List Char)), cfg.hasGlobal = true → 2 ≤ argv.length → Within cfg argv →
      ∃ r : Run cfg Unit, Parser.ofArgv S argv = some r ∧ Dispatched r := by
  intro hall
  have hdisp := hall { hasGlobal := true } (.unbounded _ _)
    [['p'], ['-', '-', 'a'], ['1'], ['-', '-', 'b'], ['2']] rfl (by decide) ⟨by decide, by decide⟩
  rw [exists_ofArgv_iff Dispatched (by decide) (by decide), dispatched_iff rfl] at hdisp
  have hnext := hdisp 2 3 (by decide) (by decide)
  rw [get_layout (by decide), get_layout (by decide), npSlot_czero, npSlot_czero] at hnext
  exact absurd (hnext (by decide)) (by decide)

/-! ### Where it ends -/

/-- No access is outside `args`, and the loop over the slots ends. -/
def StaysInside (o : Option (Run cfg φ)) : Prop := ∃ r, o = some r ∧ r.inside = true

/-- An argument of the table's leaves its slot in use. -/
theorem argSlot_czero {table : List (ParamPacket φ)} (htable : table ≠ []) (p : Packet) :
    (argSlot S table argv i p).type = .czero ↔
      p.type = .czero ∧ (argv.length ≤ i ∨ cfg.maxBuffer < (argAt argv i).length) := by
  obtain ⟨n, table, rfl⟩ := List.exists_cons_of_ne_nil htable
  rcases Nat.lt_or_ge i argv.length with hi | hi
  · rw [argSlot, getElem?_argAt hi]
    dsimp only
    split_ifs with hlong
    · simp [hlong]
    · rw [matchTable_cons]
      simp [hlong, Nat.not_le.mpr hi, matchType_ne]
  · rw [argSlot, List.getElem?_eq_none hi]
    simp [hi]

theorem ofArgv_inside (cfg : Config) (S : BoundedText cfg.maxBuffer Char)
    (argv : List (List Char)) : StaysInside (Parser.ofArgv (φ := φ) S argv) ↔
      cfg.maxLength < argv.length ∨ argv.length = 1 ∨ ∃ i < cfg.maxLength,
        kindAt cfg argv i = .absent ∨ kindAt cfg argv i = .skipped ∨
          kindAt cfg argv i = .plain ∧ kindAt cfg argv (i - 1) = .key := by
  by_cases hlen : cfg.maxLength < argv.length ∨ argv.length = 1
  · have hidle := generalParseNp_idle S (storage cfg ([] : List (ParamPacket φ))) .fresh hlen
    exact iff_of_true ⟨_, hidle, rfl⟩ (hlen.imp_right Or.inl)
  · rw [not_or, not_lt] at hlen
    rw [StaysInside, exists_ofArgv_iff _ hlen.1 hlen.2]
    simp [callbacksHandler_inside, get_layout hlen.1, npSlot_czero, hlen.2, Nat.not_lt.mpr hlen.1]

theorem call_inside (S : BoundedText cfg.maxBuffer Char) (p : Parser cfg φ)
    (argv : List (List Char)) : StaysInside (p.call S argv) ↔
      cfg.maxLength < argv.length ∨ argv.length = 1 ∨ ∃ i < cfg.maxLength,
        1 ≤ i ∧ (p.args.get i).type = .czero ∧
          (argv.length ≤ i ∨ cfg.maxBuffer < (argAt argv i).length) := by
  by_cases hlen : cfg.maxLength < argv.length ∨ argv.length = 1
  · have hidle := generalParse_idle S p.parameters p.args hlen
    exact iff_of_true ⟨_, hidle, rfl⟩ (hlen.imp_right Or.inl)
  · rw [not_or, not_lt] at hlen
    have hparse := generalParse_eq cfg S p.parameters p.args argv hlen.1 hlen.2
    have hslot : ∀ i, ((parsed S p.parameters p.args argv).get i).type = .czero ↔
        1 ≤ i ∧ (p.args.get i).type = .czero ∧
          (argv.length ≤ i ∨ cfg.maxBuffer < (argAt argv i).length) := by
      intro i
      rcases Nat.eq_zero_or_pos i with rfl | hi
      · simp [get_parsed_zero]
      · rw [get_parsed hlen.1 hi, argSlot_czero p.stored]
        exact (and_iff_right hi).symm
    rw [StaysInside, Parser.call, hparse]
    simp [callbacksHandler_inside, hslot, hlen.2, Nat.not_lt.mpr hlen.1]

/-- When every access is inside `args`. The command line has one argument or too many, or
some slot after the first is left empty: by the constructor if it has no argument, an
argument that is too long or the value of a key; by a later parse if it was empty before
and has no argument or one that is too long. -/
theorem stays_inside_iff (cfg : Config) (S : BoundedText cfg.maxBuffer Char) :
    (∀ argv, StaysInside (Parser.ofArgv (φ := φ) S argv) ↔
      cfg.maxLength < argv.length ∨ argv.length = 1 ∨ ∃ i < cfg.maxLength,
        kindAt cfg argv i = .absent ∨ kindAt cfg argv i = .skipped ∨
          kindAt cfg argv i = .plain ∧ kindAt cfg argv (i - 1) = .key) ∧
    ∀ (p : Parser cfg φ) argv, StaysInside (p.call S argv) ↔
      cfg.maxLength < argv.length ∨ argv.length = 1 ∨ ∃ i < cfg.maxLength,
        1 ≤ i ∧ (p.args.get i).type = .czero ∧
          (argv.length ≤ i ∨ cfg.maxBuffer < (argAt argv i).length) :=
  ⟨ofArgv_inside cfg S, call_inside S⟩

/-- 32 operands fill all the slots. -/
theorem not_stays_inside : ¬ ∀ (cfg : Config) (S : BoundedText cfg.maxBuffer Char),
    (∀ argv, StaysInside (Parser.ofArgv (φ := Unit) S argv)) ∧
      ∀ (p : Parser cfg Unit) argv, StaysInside (p.call S argv) := by
  intro hall
  have hinside := (hall {} (.unbounded _ _)).1 (List.replicate 32 ['x'])
  rw [StaysInside, exists_ofArgv_iff _ (by decide) (by decide), callbacksHandler_inside] at hinside
  obtain ⟨i, hi, hzero⟩ := hinside
  rw [get_layout (by decide), npSlot_czero] at hzero
  revert i
  decide

/-! ### Below the limit -/

/-- A parse of fewer arguments than slots leaves the last slot as it is. -/
theorem after_last {p : Parser cfg φ} (htwo : 2 ≤ cfg.maxLength)
    (hzero : (p.args.get (cfg.maxLength - 1)).type = .czero) (hlt : argv.length < cfg.maxLength) :
    ∃ q, p.after S argv = some q ∧ (q.args.get (cfg.maxLength - 1)).type = .czero := by
  rcases eq_or_ne argv.length 1 with hone | hone
  · have hidle := generalParse_idle S p.parameters p.args (Or.inr hone)
    exact ⟨p, by rw [Parser.after, Parser.call, hidle]; rfl, hzero⟩
  · have hparse := generalParse_eq cfg S p.parameters p.args argv hlt.le hone
    refine ⟨_, by rw [Parser.after, Parser.call, hparse]; rfl, ?_⟩
    dsimp only
    rw [callbacksHandler_args, get_parsed hlt.le (by omega), argSlot_czero p.stored]
    exact ⟨hzero, Or.inl (by omega)⟩

/-- A parser that was never given as many arguments as it has slots stays inside them. -/
theorem register_stays_inside (ls : List (ParamPacket φ)) (htwo : 2 ≤ cfg.maxLength)
    (argvs : List (List (List Char))) (hlt : ∀ argv ∈ argvs, argv.length < cfg.maxLength) :
    ∃ q : Parser cfg φ, argvs.foldlM (Parser.after S) (Parser.register ls) = some q ∧
      ∀ argv, argv.length < cfg.maxLength → StaysInside (q.call S argv) := by
  have hlast : ∀ p : Parser cfg φ, (p.args.get (cfg.maxLength - 1)).type = .czero →
      ∃ q, argvs.foldlM (Parser.after S) p = some q ∧
        (q.args.get (cfg.maxLength - 1)).type = .czero := by
    induction argvs with
    | nil => exact fun p hzero => ⟨p, rfl, hzero⟩
    | cons argv argvs ih =>
      intro p hzero
      rw [List.forall_mem_cons] at hlt
      obtain ⟨q, hq, hqzero⟩ := after_last (S := S) htwo hzero hlt.1
      obtain ⟨q', hq', hqzero'⟩ := ih hlt.2 q hqzero
      exact ⟨q', by rw [List.foldlM_cons, hq]; exact hq', hqzero'⟩
  obtain ⟨q, hq, hzero⟩ := hlast (Parser.register ls) <| by
    rw [Parser.register, fresh_get]
  refine ⟨q, hq, fun argv hargv => (call_inside S q argv).mpr ?_⟩
  exact Or.inr (Or.inr ⟨_, by omega, by omega, hzero, Or.inl (by omega)⟩)

end Bbench.Cargs
