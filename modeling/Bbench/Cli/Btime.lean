import Bbench.Cli.Integer

/-! The two copies of `parse_int`. They share the sign and the digits; `bbench` skips
blanks in front of them and `btime` does not. What a signed overflow does is left to a
parameter, the same for both. -/

namespace Bbench.Cli

open Lib (FitsWord)

section Copies
variable (ovf : ℤ → Option ℤ)

/-- A result of `long long` arithmetic: exact in range, and else what an overflow makes
of it, with `none` for no result at all. -/
def arith (x : ℤ) : Option ℤ := if FitsWord 64 x then some x else ovf x

/-- `while ( … ) { v = v * 10 + (*s - '0'); ++s; }`. -/
def readDigits : List Char → ℤ → Option ℤ
  | [], v => some v
  | c :: cs, v =>
    if isDigit c then
      (arith ovf (v * 10)).bind fun t => (arith ovf (t + digit c)).bind (readDigits cs)
    else some v

/-- Both copies from the sign on: the result, and what `out` holds afterwards. -/
def readSigned (s : List Char) (out : ℤ) : Option (Bool × ℤ) :=
  let (neg, digits) := takeSign s
  if startsDigit digits then
    (readDigits ovf digits 0).bind fun v =>
      (if neg then arith ovf (-v) else some v).map fun v => (true, v)
  else some (false, out)

/-- `parse_int` of `bbench.cpp`. -/
def bbenchParseInt (s : String) (out : ℤ) : Option (Bool × ℤ) :=
  if s.toList = [] then some (false, out) else readSigned ovf (skipSpaces s.toList) out

/-- `parse_int` of `btime.cpp`. -/
def btimeParseInt (s : String) (out : ℤ) : Option (Bool × ℤ) :=
  if s.toList = [] then some (false, out) else readSigned ovf s.toList out

end Copies

/-- A blank, and a digit after all blanks and a sign. -/
def BlankBeforeNumber (s : String) : Prop :=
  s.toList.head? = some ' ' ∧ startsDigit (takeSign (skipSpaces s.toList)).2 = true

instance (s : String) : Decidable (BlankBeforeNumber s) :=
  inferInstanceAs (Decidable (s.toList.head? = some ' ' ∧
    startsDigit (takeSign (skipSpaces s.toList)).2 = true))

/-! ### The copy of `bbench` and its model -/

/-- Without a result after an overflow, the two loops stop at the same digit. -/
theorem readDigits_strict (cs : List Char) {v : ℤ} (hpos : 0 ≤ v) (hlt : v < 2 ^ 63) :
    readDigits (fun _ => none) cs v = scanDigits cs v := by
  induction cs generalizing v with
  | nil => rfl
  | cons c cs ih =>
    rw [readDigits, scanDigits]
    by_cases hc : isDigit c = true
    · have hdigit : 0 ≤ digit c := by
        rw [digit_eq hc]
        omega
      rw [if_pos hc, if_pos hc]
      by_cases hnext : v * 10 + digit c < 2 ^ 63
      · have hmul : FitsWord 64 (v * 10) := by
          constructor <;> omega
        have hadd : FitsWord 64 (v * 10 + digit c) := by
          constructor <;> omega
        rw [if_pos hnext, arith, if_pos hmul, Option.bind_some, arith, if_pos hadd,
          Option.bind_some]
        exact ih (by omega) hnext
      · rw [if_neg hnext, arith]
        split
        · rw [Option.bind_some, arith, if_neg fun hfits => hnext hfits.2]
          rfl
        · rfl
    · rw [if_neg hc, if_neg hc]

/-- The copy of `bbench`, given up at an overflow, is the function of the command line. -/
theorem bbenchParseInt_strict (s : String) (out : ℤ) :
    bbenchParseInt (fun _ => none) s out = match parseInt s with
      | .rejected => some (false, out)
      | .value v => some (true, v)
      | .overflow => none := by
  obtain ⟨neg, digits, hr⟩ : ∃ neg digits, takeSign (skipSpaces s.toList) = (neg, digits) :=
    ⟨_, _, rfl⟩
  rw [bbenchParseInt]
  split
  · rename_i hnil
    have hdigits : digits = [] := by
      rw [hnil] at hr
      exact (Prod.mk.inj hr).2.symm
    rw [parseInt_of_not_startsDigit hr (by rw [hdigits]; rfl)]
  simp only [readSigned, hr]
  cases hstart : startsDigit digits with
  | false => simp [parseInt_of_not_startsDigit hr hstart]
  | true =>
    rw [parseInt_of_startsDigit hr hstart, if_pos rfl, readDigits_strict digits le_rfl (by omega),
      scanDigits_zero]
    by_cases hn : decimalValue (digits.takeWhile isDigit) < 2 ^ 63
    · have hfits : FitsWord 64 (-(decimalValue (digits.takeWhile isDigit) : ℤ)) :=
        fitsWord_signed hn true
      rw [if_pos hn, if_pos hn, Option.bind_some, arith, if_pos hfits]
      cases neg <;> rfl
    · rw [if_neg hn, if_neg hn]
      rfl

/-! ### The two copies -/

theorem skipSpaces_of_head {s : List Char} (h : s.head? ≠ some ' ') : skipSpaces s = s :=
  skipSpaces_replicate 0 h

/-- What both do without a number in its place. -/
theorem readSigned_of_not_startsDigit (ovf : ℤ → Option ℤ) {s : List Char} (out : ℤ)
    (h : startsDigit (takeSign s).2 = false) : readSigned ovf s out = some (false, out) := by
  simp [readSigned, h]

/-- A number that is found is never refused. -/
theorem readSigned_of_startsDigit (ovf : ℤ → Option ℤ) {s : List Char} (out : ℤ)
    (h : startsDigit (takeSign s).2 = true) : readSigned ovf s out ≠ some (false, out) := by
  intro hfalse
  simp only [readSigned, h, if_true, Option.bind_eq_some_iff, Option.map_eq_some_iff,
    Prod.mk.injEq, Bool.true_eq_false, false_and, and_false, exists_false] at hfalse

/-- When the two tools read numbers alike. Whatever an overflow does and whatever `out`
holds before, they return the same and leave the same in `out` exactly when the string
has no blank in front of a number. -/
theorem parseInt_alike_iff (ovf : ℤ → Option ℤ) (s : String) (out : ℤ) :
    bbenchParseInt ovf s out = btimeParseInt ovf s out ↔ ¬ BlankBeforeNumber s := by
  rw [bbenchParseInt, btimeParseInt, BlankBeforeNumber]
  by_cases hblank : s.toList.head? = some ' '
  · have hne : s.toList ≠ [] := by
      intro hnil
      rw [hnil] at hblank
      cases hblank
    -- `btime` finds the blank where it wants a digit
    have hbtime : readSigned ovf s.toList out = some (false, out) := by
      refine readSigned_of_not_startsDigit ovf out ?_
      obtain ⟨cs, hcs⟩ := List.head?_eq_some_iff.mp hblank
      rw [hcs]
      rfl
    rw [if_neg hne, if_neg hne, hbtime]
    cases hstart : startsDigit (takeSign (skipSpaces s.toList)).2 with
    | false => simp [readSigned_of_not_startsDigit ovf out hstart]
    | true => simp [readSigned_of_startsDigit ovf out hstart, hblank]
  · rw [skipSpaces_of_head hblank]
    simp [hblank]

/-- `btime -r " 5"` is refused. -/
theorem not_parseInt_alike : ¬ ∀ ovf s out, bbenchParseInt ovf s out = btimeParseInt ovf s out := by
  intro h
  exact absurd (h (fun _ => none) " 5" 0) (by decide)

end Bbench.Cli
