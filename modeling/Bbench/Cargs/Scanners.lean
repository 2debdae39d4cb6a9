import Bbench.Cargs.Parser
import Mathlib.Data.List.Count

/-! The scanners and the class they give an argument. `flag` counts over the whole
argument and not only at its front. -/

namespace Bbench.Cargs

section Scanners
variable {FLAG : Char}

theorem empty_iff (str : List Char) : empty FLAG str = true ↔ ∀ c ∈ str, c = FLAG := by
  induction str with
  | nil => simp [empty]
  | cons c str ih =>
    rw [empty, List.forall_mem_cons]
    by_cases hc : c = FLAG
    · rw [if_neg (not_not.mpr hc), ih, and_iff_right hc]
    · simp [hc]

theorem flagFrom_iff (ptr : List Char) (c : ℕ) :
    flagFrom FLAG c ptr = true ↔ 0 < ptr.count FLAG ∧ 2 ≤ c + ptr.count FLAG := by
  induction ptr generalizing c with
  | nil => simp [flagFrom]
  | cons x ptr ih =>
    rw [flagFrom]
    by_cases hx : x = FLAG
    · subst hx
      rw [if_pos rfl, List.count_cons_self]
      split_ifs with hc
      · simp
        omega
      · rw [ih]
        omega
    · rw [if_neg hx, List.count_cons_of_ne hx, ih]

/-- `flag` finds two `FLAG`s, wherever they stand. -/
theorem flag_iff (ptr : List Char) : flag FLAG ptr = true ↔ 2 ≤ ptr.count FLAG := by
  rw [flag, flagFrom_iff]
  omega

theorem trim_eq (ptr : List Char) : trim FLAG ptr = ptr.dropWhile (· = FLAG) := by
  induction ptr with
  | nil => rfl
  | cons c ptr ih =>
    rw [trim, List.dropWhile_cons]
    by_cases hc : c = FLAG
    · rw [if_pos hc, if_pos (by simp [hc]), ih]
    · rw [if_neg hc, if_neg (by simp [hc])]

theorem length_trim_le (FLAG : Char) (ptr : List Char) : (trim FLAG ptr).length ≤ ptr.length := by
  rw [trim_eq]
  exact (List.dropWhile_sublist _).length_le

theorem trim_eq_nil_iff (ptr : List Char) : trim FLAG ptr = [] ↔ ∀ c ∈ ptr, c = FLAG := by
  rw [trim_eq, List.dropWhile_eq_nil_iff]
  simp

end Scanners

variable {cfg : Config}

/-- The class of a position of a command line: of the program's path, of an argument that
is too long and skipped, of a key, a param and any other argument, and of no argument. -/
inductive Kind
  | program | skipped | key | param | plain | absent
  deriving DecidableEq, Repr

/-- The class `general_parse_np` gives an argument. -/
def kindOf (cfg : Config) (arg : List Char) : Kind :=
  if cfg.maxBuffer < arg.length then .skipped
  else if !empty cfg.flagChar arg && flag cfg.flagChar arg then .key
  else if !empty cfg.flagChar arg && param cfg.flagChar arg then .param
  else .plain

def kindAt (cfg : Config) (argv : List (List Char)) (i : ℕ) : Kind :=
  if i = 0 then .program
  else match argv[i]? with
    | none => .absent
    | some arg => kindOf cfg arg

theorem kindOf_skipped {arg : List Char} :
    kindOf cfg arg = .skipped ↔ cfg.maxBuffer < arg.length := by
  unfold kindOf
  split_ifs with h <;> simp [h]

theorem kindOf_ne (cfg : Config) (arg : List Char) :
    kindOf cfg arg ≠ .program ∧ kindOf cfg arg ≠ .absent := by
  unfold kindOf
  split_ifs <;> simp

/-- An argument with a class of its own has a character that is no `FLAG`. -/
theorem trim_ne_nil {arg : List Char} (h : kindOf cfg arg = .key ∨ kindOf cfg arg = .param) :
    trim cfg.flagChar arg ≠ [] := by
  rw [ne_eq, trim_eq_nil_iff, ← empty_iff, Bool.not_eq_true]
  unfold kindOf at h
  split_ifs at h <;> simp_all

theorem kindAt_zero (argv : List (List Char)) : kindAt cfg argv 0 = .program := if_pos rfl

theorem kindAt_eq {argv : List (List Char)} {i : ℕ} (hi : 0 < i) (hlt : i < argv.length) :
    kindAt cfg argv i = kindOf cfg argv[i] := by
  rw [kindAt, if_neg (by omega), List.getElem?_eq_getElem hlt]

theorem kindAt_absent {argv : List (List Char)} {i : ℕ} (hi : 0 < i) (hge : argv.length ≤ i) :
    kindAt cfg argv i = .absent := by
  rw [kindAt, if_neg (by omega), List.getElem?_eq_none hge]

theorem kindAt_program {argv : List (List Char)} {i : ℕ} :
    kindAt cfg argv i = .program ↔ i = 0 := by
  rw [kindAt]
  split_ifs with hi
  · exact iff_of_true rfl hi
  · cases argv[i]? with
    | none => simp [hi]
    | some arg => simp [hi, (kindOf_ne cfg arg).1]

/-- The class of a position does not depend on the arguments after it. -/
theorem kindAt_append {argv : List (List Char)} {i : ℕ} (hlt : i < argv.length)
    (rest : List (List Char)) : kindAt cfg (argv ++ rest) i = kindAt cfg argv i := by
  rw [kindAt, kindAt, List.getElem?_append_left hlt]

theorem kindAt_concat {argv : List (List Char)} (h : argv ≠ []) (arg : List Char)  :
    kindAt cfg (argv ++ [arg]) argv.length = kindOf cfg arg := by
  have hpos := List.length_pos_iff.mpr h
  rw [kindAt_eq hpos (by simp)]
  simp

end Bbench.Cargs
