import Bbench.Cargs.Classes
import Bbench.Cargs.Table
import Mathlib.Data.List.Perm.Basic

/-! The order in which parameters are registered. Whatever the first entry does with an
argument, the loop over the table ends there: the others are never compared, and the order
is of no account only where any of them could be the first. -/

namespace Bbench.Cargs

open Lib (BoundedText)

variable {cfg : Config} {φ : Type*} {S : BoundedText cfg.maxBuffer Char}
  {argv : List (List Char)} {ps : List (ParamPacket φ)}

/-- Every argument that a parameter matches has its slot: the key is the name, the data the
next argument if the parameter accepts a value, and the type that of the match or the value. -/
def Recognised (slots : Slots cfg) (m : ParamPacket φ) (argv : List (List Char)) : Prop :=
  ∀ i, 1 ≤ i → i < argv.length → ∀ type, entryKind cfg m (argAt argv i) = some type →
    slots.get i = if m.acc ≠ .czero ∧ i + 1 < argv.length then
      ⟨trim cfg.flagChar (argAt argv i), argAt argv (i + 1), m.acc⟩
    else ⟨trim cfg.flagChar (argAt argv i), [], type⟩

/-- A command line is parsed alike in two orders of the registered parameters, and each of them
is recognised. -/
def OrderFree (S : BoundedText cfg.maxBuffer Char) (ps ps' : List (ParamPacket φ))
    (argv : List (List Char)) : Prop :=
  ∃ slots : Slots cfg, ((Parser.register ps').call S argv).map Run.args = some slots ∧
    ((Parser.register ps).call S argv).map Run.args = some slots ∧
    ∀ m ∈ ps, Recognised slots m argv

/-- Two parameters would give an argument the same slot: key, data and type. -/
def SameSlot (S : BoundedText cfg.maxBuffer Char) (n n' : ParamPacket φ)
    (argv : List (List Char)) (i : ℕ) : Prop :=
  let e := Entry.ofArg cfg n argv i
  let e' := Entry.ofArg cfg n' argv i
  e.key = e'.key ∧ S.append e.own e.value = S.append e'.own e'.value ∧ e.type = e'.type

theorem call_register (h : Within cfg argv) (ps : List (ParamPacket φ)) :
    ((Parser.register ps).call S argv).map Run.args =
      some (if argv.length = 1 then .fresh else parsed S (storage cfg ps) .fresh argv) := by
  have hle : ¬ cfg.maxLength < argv.length := by
    have := h.argc
    omega
  rw [call_args]
  simp only [hle, false_or]
  rfl

/-! ### One argument -/

section Argument
variable {i : ℕ} (n n' m : ParamPacket φ) (h : Within cfg argv) (hi : 1 ≤ i)
  (hlt : i < argv.length)
include h hi hlt

theorem into_fresh_eq_iff : (Entry.ofArg cfg n argv i).into S {} =
    (Entry.ofArg cfg n' argv i).into S {} ↔ SameSlot S n n' argv i := by
  have hshort := h.short _ (mem_argAt hlt)
  rw [into_fresh n hi hshort, into_fresh n' hi hshort, Packet.mk.injEq]
  exact Iff.rfl

/-- The slot that a parameter has for an argument that it matches. -/
theorem into_fresh_of_match {type : Accepts}
    (hkind : entryKind cfg m (argAt argv i) = some type) :
    (Entry.ofArg cfg m argv i).into S {} = if m.acc ≠ .czero ∧ i + 1 < argv.length then
      ⟨trim cfg.flagChar (argAt argv i), argAt argv (i + 1), m.acc⟩
    else ⟨trim cfg.flagChar (argAt argv i), [], type⟩ := by
  have hvalue (hnext : i + 1 < argv.length) : S.append [] (argAt argv (i + 1)) =
      argAt argv (i + 1) := S.nil_append (h.short _ (mem_argAt hnext))
  rw [into_fresh m hi (h.short _ (mem_argAt hlt)), Entry.ofArg, if_neg (by omega), keyText,
    ownText, hkind, valueFor_eq]
  simp only [Option.isSome_some, if_true, Option.getD_some]
  by_cases hacc : m.acc ≠ .czero ∧ i + 1 < argv.length
  · rw [if_pos hacc, if_pos hacc]
    simp [hvalue hacc.2]
  · rw [if_neg hacc, if_neg hacc]
    simp

end Argument

/-- With the first parameter not matching it, an argument with a name is not recognised. -/
theorem match_of_sameSlot (n m : ParamPacket φ) {i : ℕ} (hi : 1 ≤ i) (hsame : SameSlot S n m argv i)
    (hmatch : (entryKind cfg m (argAt argv i)).isSome = true)
    (hname : trim cfg.flagChar (argAt argv i) ≠ []) :
    (entryKind cfg n (argAt argv i)).isSome = true := by
  have hkey := hsame.1
  rw [Entry.ofArg, Entry.ofArg, if_neg (by omega), if_neg (by omega)] at hkey
  dsimp only at hkey
  rw [keyText, keyText, if_pos hmatch] at hkey
  by_contra hnone
  rw [if_neg hnone] at hkey
  exact hname hkey.symm

/-! ### The order -/

/-- A parse recognises what its first entry would have taken alike. -/
theorem recognised_iff (n m : ParamPacket φ) (table : List (ParamPacket φ))
    (h : Within cfg argv) : Recognised (parsed S (n :: table) .fresh argv) m argv ↔
      ∀ i, 1 ≤ i → i < argv.length → (entryKind cfg m (argAt argv i)).isSome = true →
        SameSlot S n m argv i := by
  refine forall_congr' fun i => forall_congr' fun hi => forall_congr' fun hlt => ?_
  have hwritten : Written cfg argv i := Or.inr ⟨hlt, h.short _ (mem_argAt hlt)⟩
  rw [get_parsed_eq _ h.argc.le, slotAfter, if_pos hwritten, fresh_get,
    ← into_fresh_eq_iff n m h hi hlt]
  constructor
  · intro hall hsome
    obtain ⟨type, hkind⟩ := Option.isSome_iff_exists.mp hsome
    rw [into_fresh_of_match m h hi hlt hkind]
    exact hall type hkind
  · intro hall type hkind
    rw [← into_fresh_of_match (S := S) m h hi hlt hkind]
    exact hall (Option.isSome_iff_exists.mpr ⟨type, hkind⟩)

/-- Only the first entries have a part in what is left in the slots. -/
theorem orderFree_iff (S : BoundedText cfg.maxBuffer Char) (ps ps' : List (ParamPacket φ))
    (h : Within cfg argv) :
    OrderFree S ps ps' argv ↔ ∀ i, 1 ≤ i → i < argv.length →
      SameSlot S (ps.headD .null) (ps'.headD .null) argv i ∧
        ∀ m ∈ ps, (entryKind cfg m (argAt argv i)).isSome = true →
          SameSlot S (ps.headD .null) m argv i := by
  obtain ⟨table, htable⟩ := storage_eq cfg ps
  obtain ⟨table', htable'⟩ := storage_eq cfg ps'
  rw [OrderFree, call_register h, call_register h, htable, htable']
  by_cases hone : argv.length = 1
  · -- nothing is parsed, and there is no argument
    simp only [hone, if_true]
    refine iff_of_true ⟨_, rfl, rfl, fun m _ i hi hlt => absurd hlt (by omega)⟩ ?_
    exact fun i hi hlt => absurd hlt (by omega)
  have hslots : (∃ slots : Slots cfg,
      some (parsed S (ps'.headD .null :: table') .fresh argv) = some slots ∧
      some (parsed S (ps.headD .null :: table) .fresh argv) = some slots ∧
      ∀ m ∈ ps, Recognised slots m argv) ↔
      parsed S (ps.headD .null :: table) .fresh argv =
          parsed S (ps'.headD .null :: table') .fresh argv ∧
        ∀ m ∈ ps, Recognised (parsed S (ps.headD .null :: table) .fresh argv) m argv := by
    constructor
    · rintro ⟨slots, heq', heq, hall⟩
      obtain rfl := Option.some.inj heq
      exact ⟨(Option.some.inj heq').symm, hall⟩
    · rintro ⟨heq, hall⟩
      exact ⟨_, congrArg some heq.symm, rfl, hall⟩
  simp only [hone, if_false]
  rw [hslots, parsed_eq_iff _ _ _ h.argc.le]
  simp only [recognised_iff _ _ _ h, fresh_get]
  constructor
  · rintro ⟨hsame, hrec⟩ i hi hlt
    have hshort := h.short _ (mem_argAt hlt)
    exact ⟨(into_fresh_eq_iff _ _ h hi hlt).mp (hsame i hi hlt hshort),
      fun m hm => hrec m hm i hi hlt⟩
  · intro hall
    exact ⟨fun i hi hlt _ => (into_fresh_eq_iff _ _ h hi hlt).mpr (hall i hi hlt).1,
      fun m hm i hi hlt => (hall i hi hlt).2 m hm⟩

/-- Entries with names of their own never match the same argument. -/
theorem eq_of_match {n m : ParamPacket φ} (hdistinct : n ≠ m → n.param ≠ m.param ∧ n.abbr ≠ m.abbr)
    {arg : List Char} (hn : (entryKind cfg n arg).isSome = true)
    (hm : (entryKind cfg m arg).isSome = true) : n = m := by
  by_contra hne
  obtain ⟨hparam, habbr⟩ := hdistinct hne
  simp only [entryKind] at hn hm
  split_ifs at hn hm <;> simp_all

/-- Parameters with names of their own, by any two of them. -/
theorem names_ne {ps : List (ParamPacket φ)}
    (hdistinct : ps.Pairwise fun n n' => n.param ≠ n'.param ∧ n.abbr ≠ n'.abbr)
    {n m : ParamPacket φ} (hn : n ∈ ps) (hm : m ∈ ps) (hne : n ≠ m) :
    n.param ≠ m.param ∧ n.abbr ≠ m.abbr := by
  induction ps with
  | nil => exact absurd hn List.not_mem_nil
  | cons k ps ih =>
    obtain ⟨hk, hps⟩ := List.pairwise_cons.mp hdistinct
    rcases List.mem_cons.mp hn with rfl | hn'
    · rcases List.mem_cons.mp hm with rfl | hm'
      · exact absurd rfl hne
      · exact hk m hm'
    · rcases List.mem_cons.mp hm with rfl | hm'
      · exact ⟨(hk n hn').1.symm, (hk n hn').2.symm⟩
      · exact ih hps hn' hm'

/-- The first of a table is one of its parameters if there is any. -/
theorem headD_mem {ps : List (ParamPacket φ)} {m : ParamPacket φ} (hm : m ∈ ps) :
    ps.headD .null ∈ ps := by
  cases ps with
  | nil => exact absurd hm List.not_mem_nil
  | cons n ps => exact List.mem_cons_self

/-- When the order does not matter to a command line. It is parsed alike in two orders, with
every parameter recognised, exactly when for each argument the first parameter of either order
and any that matches the argument would give it the same slot. With names of their own, no
parameter but the first of both orders can then match an argument that is more than `FLAG`s. -/
theorem order_free_iff (cfg : Config) (S : BoundedText cfg.maxBuffer Char)
    (ps ps' : List (ParamPacket φ))
    (hdistinct : ps.Pairwise fun n n' => n.param ≠ n'.param ∧ n.abbr ≠ n'.abbr)
    (hperm : ps'.Perm ps) (argv : List (List Char)) (h : Within cfg argv) :
    (OrderFree S ps ps' argv ↔ ∀ i, 1 ≤ i → i < argv.length →
      SameSlot S (ps.headD .null) (ps'.headD .null) argv i ∧
        ∀ m ∈ ps, (entryKind cfg m (argAt argv i)).isSome = true →
          SameSlot S (ps.headD .null) m argv i) ∧
    (OrderFree S ps ps' argv → ∀ i, 1 ≤ i → i < argv.length → ∀ m ∈ ps,
      (entryKind cfg m (argAt argv i)).isSome = true → trim cfg.flagChar (argAt argv i) ≠ [] →
        m = ps.headD .null ∧ m = ps'.headD .null) := by
  refine ⟨orderFree_iff S ps ps' h, fun hfree i hi hlt m hm hmatch hname => ?_⟩
  obtain ⟨hfirsts, hall⟩ := (orderFree_iff S ps ps' h).mp hfree i hi hlt
  have hsame := hall m hm hmatch
  have hsame' : SameSlot S (ps'.headD .null) m argv i :=
    ⟨hfirsts.1.symm.trans hsame.1, hfirsts.2.1.symm.trans hsame.2.1,
      hfirsts.2.2.symm.trans hsame.2.2⟩
  have hmem : ps'.headD .null ∈ ps := hperm.mem_iff.mp (headD_mem (hperm.mem_iff.mpr hm))
  refine ⟨eq_of_match (names_ne hdistinct hm (headD_mem hm)) hmatch ?_,
    eq_of_match (names_ne hdistinct hm hmem) hmatch ?_⟩
  · exact match_of_sameSlot _ m hi hsame hmatch hname
  · exact match_of_sameSlot _ m hi hsame' hmatch hname

/-- `p x` with two parameters that accept the same, in either order. -/
theorem order_free_operand :
    let ps : List (ParamPacket Unit) :=
      [{ param := some ['a', 'a'], abbr := some ['a'] },
        { param := some ['b', 'b'], abbr := some ['b'] }]
    let S : BoundedText (Config.maxBuffer { pCount := 2 }) Char := .unbounded _ _
    OrderFree S ps ps.reverse [['p'], ['x']] := by
  intro ps S
  refine (order_free_iff { pCount := 2 } (.unbounded _ _) ps ps.reverse (by decide)
    ps.reverse_perm [['p'], ['x']] ⟨by decide, by decide⟩).1.mpr fun i hi hlt => ?_
  obtain rfl : i = 1 := by
    simp at hlt
    omega
  refine ⟨⟨rfl, rfl, rfl⟩, fun m hm hmatch => ?_⟩
  have hnone : ∀ m ∈ ps, entryKind { pCount := 2 } m ['x'] = none := by decide
  exact absurd hmatch (by rw [argAt, List.getD_cons_succ, List.getD_cons_zero, hnone m hm]; simp)

/-- `--bb` is a key with `bb` registered first, and an operand with `aa` before it. -/
theorem not_order_free : ¬ ∀ (cfg : Config) (S : BoundedText cfg.maxBuffer Char)
    (ps ps' : List (ParamPacket Unit)) (argv : List (List Char)),
    (ps.Pairwise fun n n' => n.param ≠ n'.param ∧ n.abbr ≠ n'.abbr) → ps'.Perm ps →
      Within cfg argv → OrderFree S ps ps' argv := by
  intro hall
  have hwithin : Within { pCount := 2 } [['p'], ['-', '-', 'b', 'b']] := ⟨by decide, by decide⟩
  have hfree := hall { pCount := 2 } (.unbounded _ _)
    [{ param := some ['a', 'a'], abbr := some ['a'] },
      { param := some ['b', 'b'], abbr := some ['b'] }] _ _ (by decide) (.swap _ _ _) hwithin
  have hsame := ((orderFree_iff _ _ _ hwithin).mp hfree 1 le_rfl (by decide)).1
  exact absurd hsame.1 (by decide)

end Bbench.Cargs
