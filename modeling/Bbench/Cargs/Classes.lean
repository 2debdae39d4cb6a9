import Bbench.Cargs.Layout

/-! The slots of `general_parse_np` and the arguments they come from. No argument is lost
and none appears twice. Which argument is a key is decided by the number of its `FLAG`s,
and that is a matter of its front exactly when two `FLAG`s anywhere mean two in front. -/

namespace Bbench.Cargs

open Lib (BoundedText)

variable {cfg : Config} {φ : Type*}

/-- Exactly one of three. -/
def ExactlyOne (a b c : Prop) : Prop := (a ∨ b ∨ c) ∧ ¬ (a ∧ b) ∧ ¬ (a ∧ c) ∧ ¬ (b ∧ c)

section Slot
variable (slots : Slots cfg) (argv : List (List Char)) (i : ℕ)

/-- Slot `i` has the name of argument `i`. -/
def Named : Prop :=
  ((slots.get i).type = .ckey ∨ (slots.get i).type = .cparam ∨ (slots.get i).type = .cstring) ∧
    (slots.get i).key = (argAt argv i).dropWhile (· = cfg.flagChar)

/-- Slot `i` holds argument `i` as an operand. -/
def Operand : Prop := slots.get i = ⟨[], argAt argv i, .coperand⟩

/-- Argument `i` is the value of the slot before its own. -/
def Value : Prop :=
  slots.get i = {} ∧ (slots.get (i - 1)).type = .cstring ∧ (slots.get (i - 1)).data = argAt argv i

end Slot

/-- `argc` is within the limits, and so is every argument. -/
structure Within (cfg : Config) (argv : List (List Char)) : Prop where
  argc : argv.length < cfg.maxLength
  short : ∀ arg ∈ argv, arg.length ≤ cfg.maxBuffer

variable {S : BoundedText cfg.maxBuffer Char} {argv : List (List Char)} {i : ℕ}

theorem mem_argAt (hlt : i < argv.length) : argAt argv i ∈ argv := by
  rw [argAt, List.getD_eq_getElem _ _ hlt]
  exact List.getElem_mem hlt

theorem kindAt_argAt (hi : 0 < i) (hlt : i < argv.length) :
    kindAt cfg argv i = kindOf cfg (argAt argv i) := by
  rw [kindAt_eq hi hlt, argAt, List.getD_eq_getElem _ _ hlt]

/-- Within the limits every argument is a key, a param or plain. -/
theorem Within.kindAt_cases (h : Within cfg argv) (hi : 0 < i) (hlt : i < argv.length) :
    kindAt cfg argv i = .key ∨ kindAt cfg argv i = .param ∨ kindAt cfg argv i = .plain := by
  rw [kindAt_argAt hi hlt]
  have hle := h.short _ (mem_argAt hlt)
  unfold kindOf
  rw [if_neg (by omega)]
  split_ifs <;> simp

/-- A position of some class holds an argument. -/
theorem lt_of_kindAt {i : ℕ} (cfg : Config) (argv : List (List Char))
    (hk : kindAt cfg argv i ≠ .program) (hk' : kindAt cfg argv i ≠ .absent) :
    0 < i ∧ i < argv.length := by
  have hi : 0 < i := by
    by_contra h
    rw [show i = 0 by omega, kindAt_zero] at hk
    exact hk rfl
  refine ⟨hi, ?_⟩
  by_contra h
  exact hk' (kindAt_absent hi (by omega))

theorem npSlot_named : (npSlot S argv i).type = .ckey ∨ (npSlot S argv i).type = .cstring ↔
    kindAt cfg argv i = .key := by
  rw [npSlot]
  cases kindAt cfg argv i <;> simp <;> split_ifs <;> simp

theorem npSlot_cparam : (npSlot S argv i).type = .cparam ↔ kindAt cfg argv i = .param := by
  rw [npSlot]
  cases kindAt cfg argv i with
  | key => dsimp only; split_ifs <;> simp
  | plain => dsimp only; split_ifs <;> simp
  | _ => simp

theorem npSlot_cstring : (npSlot S argv i).type = .cstring ↔
    kindAt cfg argv i = .key ∧ kindAt cfg argv (i + 1) = .plain := by
  rw [npSlot]
  cases kindAt cfg argv i <;> simp <;> split_ifs <;> simp_all

/-! ### Where an argument goes -/

theorem named_iff (h : argv.length ≤ cfg.maxLength) : Named (layout S argv) argv i ↔
    kindAt cfg argv i = .key ∨ kindAt cfg argv i = .param := by
  rw [Named, get_layout h, or_left_comm, npSlot_named, npSlot_cparam, ← trim_eq]
  constructor
  · rintro ⟨hk | hk, -⟩
    · exact .inr hk
    · exact .inl hk
  · rintro (hk | hk)
    · refine ⟨.inr hk, ?_⟩
      rw [npSlot, hk]
      dsimp only
      split_ifs <;> rfl
    · refine ⟨.inl hk, ?_⟩
      rw [npSlot, hk]

theorem operand_iff (h : argv.length ≤ cfg.maxLength) : Operand (layout S argv) argv i ↔
    kindAt cfg argv i = .plain ∧ kindAt cfg argv (i - 1) ≠ .key := by
  rw [Operand, get_layout h, npSlot]
  cases kindAt cfg argv i with
  | key => dsimp only; split_ifs <;> simp
  | plain => dsimp only; split_ifs with hprev <;> simp [hprev]
  | _ => simp

theorem value_iff (h : argv.length ≤ cfg.maxLength) (hi : 0 < i) :
    Value (layout S argv) argv i ↔
      kindAt cfg argv i = .plain ∧ kindAt cfg argv (i - 1) = .key := by
  rw [Value, get_layout h, get_layout h, npSlot_cstring, Nat.sub_add_cancel hi]
  constructor
  · rintro ⟨-, ⟨hkey, hplain⟩, -⟩
    exact ⟨hplain, hkey⟩
  · rintro ⟨hplain, hkey⟩
    refine ⟨?_, ⟨hkey, hplain⟩, ?_⟩
    · rw [npSlot, hplain]
      exact if_pos hkey
    · rw [npSlot, hkey, Nat.sub_add_cancel hi]
      simp [hplain]

/-- Nothing is lost and nothing is duplicated. After a command line within the limits every
argument is the name of its slot, or the operand in it, or the value of the key before it,
and only one of these; a slot of type `cstring` has the next argument for its value, and
other names have none; and the first slot has the program's path. -/
theorem np_accounts (cfg : Config) (S : BoundedText cfg.maxBuffer Char)
    (argv : List (List Char)) (hargc : 2 ≤ argv.length) (h : Within cfg argv) :
    ∃ r : Run cfg φ, Parser.ofArgv S argv = some r ∧
      r.args.get 0 = ⟨argAt argv 0, [], .cpath⟩ ∧
      (∀ i, 1 ≤ i → i < argv.length →
        ExactlyOne (Named r.args argv i) (Operand r.args argv i) (Value r.args argv i)) ∧
      (∀ i, (r.args.get i).type = .cstring →
        1 ≤ i ∧ i + 1 < argv.length ∧ Value r.args argv (i + 1)) ∧
      ∀ i, (r.args.get i).type = .ckey ∨ (r.args.get i).type = .cparam →
        (r.args.get i).data = [] := by
  have hle : argv.length ≤ cfg.maxLength := h.argc.le
  refine ⟨_, generalParseNp_eq cfg S argv _ hle (by omega), ?_, fun i hi hlt => ?_, fun i hc => ?_,
    fun i hc => ?_⟩
  · rw [callbacksHandler_args]
    cases argv with
    | nil => simp at hargc
    | cons path rest =>
      rw [get_layout hle, npSlot_zero, List.headD_cons,
        S.nil_append (h.short path List.mem_cons_self)]
      rfl
  · rw [callbacksHandler_args, ExactlyOne, named_iff hle, operand_iff hle, value_iff hle hi]
    rcases h.kindAt_cases hi hlt with hk | hk | hk <;> simp [hk, em']
  · rw [callbacksHandler_args, get_layout hle, npSlot_cstring] at hc
    have hpos := lt_of_kindAt cfg argv (i := i) (by simp [hc.1]) (by simp [hc.1])
    have hnext := lt_of_kindAt cfg argv (i := i + 1) (by simp [hc.2]) (by simp [hc.2])
    exact ⟨hpos.1, hnext.2, (value_iff hle (by omega)).mpr ⟨hc.2, hc.1⟩⟩
  · rw [callbacksHandler_args, get_layout hle, npSlot] at hc ⊢
    cases hk : kindAt cfg argv i <;> simp [hk] at hc ⊢ <;> split_ifs at hc ⊢ <;> simp_all

/-- A key with a value. -/
theorem np_accounts_pair : ∃ r : Run {} Unit,
    Parser.ofArgv (.unbounded _ _) [['p'], ['-', '-', 'a'], ['1']] = some r ∧
      r.args.get 0 = ⟨['p'], [], .cpath⟩ ∧
      ExactlyOne (Named r.args [['p'], ['-', '-', 'a'], ['1']] 2)
        (Operand r.args [['p'], ['-', '-', 'a'], ['1']] 2)
        (Value r.args [['p'], ['-', '-', 'a'], ['1']] 2) := by
  obtain ⟨r, hr, hpath, hone, -⟩ := np_accounts (φ := Unit) {} (.unbounded _ _)
    [['p'], ['-', '-', 'a'], ['1']] (by decide) ⟨by decide, by decide⟩
  exact ⟨r, hr, hpath, hone 2 (by decide) (by decide)⟩

/-! ### The front of an argument -/

/-- Two `FLAG`s in front, and something else later. -/
def LeadsKey (cfg : Config) (arg : List Char) : Prop :=
  ∃ rest, arg = cfg.flagChar :: cfg.flagChar :: rest ∧ ∃ c ∈ rest, c ≠ cfg.flagChar

/-- Exactly one `FLAG` in front, and another character. -/
def LeadsParam (cfg : Config) (arg : List Char) : Prop :=
  ∃ c rest, arg = cfg.flagChar :: c :: rest ∧ c ≠ cfg.flagChar

/-- Every argument has the class of its front, and one with neither is an operand or the
value of the key before it. -/
def ByFront (slots : Slots cfg) (argv : List (List Char)) : Prop :=
  ∀ i, 1 ≤ i → i < argv.length →
    ((slots.get i).type = .ckey ∨ (slots.get i).type = .cstring ↔ LeadsKey cfg (argAt argv i)) ∧
    ((slots.get i).type = .cparam ↔ LeadsParam cfg (argAt argv i)) ∧
    (¬ LeadsKey cfg (argAt argv i) → ¬ LeadsParam cfg (argAt argv i) →
      Operand slots argv i ∨ Value slots argv i)

/-- Two `FLAG`s anywhere mean two in front. -/
def FlagsInFront (cfg : Config) (arg : List Char) : Prop :=
  2 ≤ arg.count cfg.flagChar → ∃ rest, arg = cfg.flagChar :: cfg.flagChar :: rest

section Front
variable {arg : List Char}

theorem empty_eq_false : empty cfg.flagChar arg = false ↔ ∃ c ∈ arg, c ≠ cfg.flagChar := by
  rw [← Bool.not_eq_true, empty_iff]
  push Not
  rfl

theorem kindOf_key (h : arg.length ≤ cfg.maxBuffer) : kindOf cfg arg = .key ↔
    (∃ c ∈ arg, c ≠ cfg.flagChar) ∧ 2 ≤ arg.count cfg.flagChar := by
  rw [← flag_iff, ← empty_eq_false, kindOf, if_neg (by omega)]
  cases empty cfg.flagChar arg <;> cases flag cfg.flagChar arg <;> simp
  split_ifs <;> simp

theorem kindOf_param (h : arg.length ≤ cfg.maxBuffer) : kindOf cfg arg = .param ↔
    (∃ c ∈ arg, c ≠ cfg.flagChar) ∧ arg.count cfg.flagChar < 2 ∧
      arg.headD '\x00' = cfg.flagChar := by
  have hparam : param cfg.flagChar arg = true ↔ arg.headD '\x00' = cfg.flagChar := by simp [param]
  rw [← Nat.not_le, ← flag_iff, ← empty_eq_false, ← hparam, kindOf, if_neg (by omega)]
  cases empty cfg.flagChar arg <;> cases flag cfg.flagChar arg <;>
    cases param cfg.flagChar arg <;> simp

/-- An argument with all its `FLAG`s in front is classified by its front. -/
theorem kindOf_of_flagsInFront (h : arg.length ≤ cfg.maxBuffer) (hfront : FlagsInFront cfg arg) :
    (kindOf cfg arg = .key ↔ LeadsKey cfg arg) ∧
      (kindOf cfg arg = .param ↔ LeadsParam cfg arg) := by
  rw [kindOf_key h, kindOf_param h]
  constructor
  · constructor
    · rintro ⟨⟨c, hc, hne⟩, htwo⟩
      obtain ⟨rest, rfl⟩ := hfront htwo
      refine ⟨rest, rfl, c, ?_, hne⟩
      simpa [hne] using hc
    · rintro ⟨rest, rfl, c, hc, hne⟩
      exact ⟨⟨c, by simp [hc], hne⟩, by simp⟩
  · constructor
    · rintro ⟨⟨c, hc, hne⟩, hone, hhead⟩
      cases arg with
      | nil => cases hc
      | cons a arg =>
        obtain rfl : a = cfg.flagChar := hhead
        cases arg with
        | nil => simp [hne] at hc
        | cons b rest =>
          refine ⟨b, rest, rfl, ?_⟩
          rintro rfl
          rw [List.count_cons_self, List.count_cons_self] at hone
          omega
    · rintro ⟨c, rest, rfl, hne⟩
      refine ⟨⟨c, by simp, hne⟩, ?_, rfl⟩
      by_contra htwo
      obtain ⟨rest', heq⟩ := hfront (by omega)
      exact hne (List.cons.inj (List.cons.inj heq).2).1

/-- Any other argument is a key, although it does not begin like one. -/
theorem kindOf_of_not_flagsInFront (h : arg.length ≤ cfg.maxBuffer)
    (hfront : ¬ FlagsInFront cfg arg) : kindOf cfg arg = .key ∧ ¬ LeadsKey cfg arg := by
  rw [FlagsInFront, Classical.not_imp] at hfront
  obtain ⟨htwo, hlead⟩ := hfront
  constructor
  · rw [kindOf_key h, and_iff_left htwo]
    by_contra hall
    push Not at hall
    -- two `FLAG`s and nothing else begin with two
    have hrep := List.eq_replicate_of_mem hall
    obtain ⟨n, hn⟩ : ∃ n, arg.length = n + 2 := by
      have hcount := List.count_le_length (a := cfg.flagChar) (l := arg)
      exact ⟨arg.length - 2, by omega⟩
    rw [hn] at hrep
    exact hlead ⟨_, hrep⟩
  · rintro ⟨rest, heq, -⟩
    exact hlead ⟨rest, heq⟩

end Front

/-- When arguments are classified by their front. Within the limits every argument has the
class of its leading characters exactly when each of them that has two `FLAG`s begins with
two. -/
theorem np_byFront_iff (cfg : Config) (S : BoundedText cfg.maxBuffer Char)
    (argv : List (List Char)) (hargc : 2 ≤ argv.length) (h : Within cfg argv) :
    (∃ r : Run cfg φ, Parser.ofArgv S argv = some r ∧ ByFront r.args argv) ↔
      ∀ i, 1 ≤ i → i < argv.length → FlagsInFront cfg (argAt argv i) := by
  have hle : argv.length ≤ cfg.maxLength := h.argc.le
  have hshort : ∀ i, i < argv.length → (argAt argv i).length ≤ cfg.maxBuffer :=
    fun i hlt => h.short _ (mem_argAt hlt)
  have hkey : ∀ i, (layout S argv).get i = npSlot S argv i := get_layout hle
  rw [exists_ofArgv_iff (fun r => ByFront r.args argv) hle (by omega), callbacksHandler_args]
  constructor
  · intro hfront i hi hlt
    by_contra hbad
    obtain ⟨hk, hlead⟩ := kindOf_of_not_flagsInFront (hshort i hlt) hbad
    rw [← kindAt_argAt hi hlt, ← npSlot_named (S := S)] at hk
    have hclass := (hfront i hi hlt).1
    rw [hkey] at hclass
    exact hlead (hclass.mp hk)
  · intro hall i hi hlt
    obtain ⟨hk, hp⟩ := kindOf_of_flagsInFront (hshort i hlt) (hall i hi hlt)
    rw [hkey, npSlot_named, npSlot_cparam, operand_iff hle, value_iff hle hi,
      kindAt_argAt hi hlt, ← hk, ← hp]
    refine ⟨Iff.rfl, Iff.rfl, fun hnotKey hnotParam => ?_⟩
    rw [← kindAt_argAt hi hlt] at hnotKey hnotParam ⊢
    have hplain := (h.kindAt_cases hi hlt).resolve_left hnotKey |>.resolve_left hnotParam
    simp [hplain, em']

/-- A key, a param and an operand. -/
theorem np_byFront_plain : ∃ r : Run {} Unit,
    Parser.ofArgv (.unbounded _ _) [['p'], ['-', '-', 'a'], ['-', 'b'], ['c']] = some r ∧
      ByFront r.args [['p'], ['-', '-', 'a'], ['-', 'b'], ['c']] := by
  refine (np_byFront_iff (φ := Unit) {} (.unbounded _ _)
    [['p'], ['-', '-', 'a'], ['-', 'b'], ['c']] (by decide) ⟨by decide, by decide⟩).mpr ?_
  intro i hi hlt
  have hcases : i = 1 ∨ i = 2 ∨ i = 3 := by
    simp at hlt
    omega
  obtain rfl | rfl | rfl := hcases
  · exact fun _ => ⟨['a'], rfl⟩
  · exact fun htwo => absurd htwo (by decide)
  · exact fun htwo => absurd htwo (by decide)

/-- `my-file-name` is a key. -/
theorem not_np_byFront : ¬ ∀ (cfg : Config) (S : BoundedText cfg.maxBuffer Char)
    (argv : List (List Char)), 2 ≤ argv.length → Within cfg argv →
      ∃ r : Run cfg Unit, Parser.ofArgv S argv = some r ∧ ByFront r.args argv := by
  intro hall
  have hfront := hall {} (.unbounded _ _) [['p'], "my-file-name".toList] (by decide)
    ⟨by decide, by decide⟩
  rw [exists_ofArgv_iff (fun r => ByFront r.args [['p'], "my-file-name".toList]) (by decide)
    (by decide), callbacksHandler_args] at hfront
  have hclass := (hfront 1 (by decide) (by decide)).1
  rw [get_layout (by decide), npSlot_named] at hclass
  obtain ⟨rest, heq, -⟩ := hclass.mp (by decide)
  have hfirst : some 'm' = some '-' := congrArg List.head? heq
  exact absurd hfirst (by decide)

end Bbench.Cargs
