import Bbench.Cli.Integer
import Mathlib.Algebra.Order.Field.Rat
import Mathlib.Tactic.FieldSimp
import Mathlib.Tactic.Ring

/-! The numbers of `cargs.hpp`. `__to_i64` and `__to_f64` read the longest prefix of a
string that is a number and do not look at the rest. Any part of the number may be
missing, so every string starts with one. The doubles are exact here. -/

namespace Bbench.Cargs

open Cli (isDigit digit takeSign scanDigits decimalValue)

/-! ### The loops of the source -/

/-- The loop over leading blanks. -/
def skipBlanks : List Char → List Char
  | [] => []
  | c :: cs => if c = ' ' ∨ c = '\t' then skipBlanks cs else c :: cs

/-- `__to_i64`, or `none` where the accumulator overflows. -/
def toI64 (s : List Char) : Option ℤ :=
  let (neg, cs) := takeSign (skipBlanks s)
  (scanDigits cs 0).map fun acc => if neg then -acc else acc

/-- The loop over the digits before the point. -/
def accWhole : List Char → ℚ → ℚ × List Char
  | [], acc => (acc, [])
  | c :: cs, acc => if isDigit c then accWhole cs (acc * 10 + digit c) else (acc, c :: cs)

/-- The loop over the digits behind it. -/
def accFrac : List Char → ℚ → ℚ → ℚ × List Char
  | [], acc, _ => (acc, [])
  | c :: cs, acc, frac =>
    if isDigit c then accFrac cs (acc + digit c * frac) (frac * (1 / 10)) else (acc, c :: cs)

def addFrac : List Char → ℚ → ℚ × List Char
  | [], acc => (acc, [])
  | c :: cs, acc => if c = '.' then accFrac cs acc (1 / 10) else (acc, c :: cs)

/-- The loop over the digits of the exponent, an `i32`. -/
def accExp : List Char → ℤ → Option ℤ
  | [], e => some e
  | c :: cs, e =>
    if isDigit c then if e * 10 + digit c < 2 ^ 31 then accExp cs (e * 10 + digit c) else none
    else some e

/-- `p` after that many rounds of its loop. -/
def powTen : ℕ → ℚ
  | 0 => 1
  | n + 1 => powTen n * 10

def scaleExp : List Char → ℚ → Option ℚ
  | [], acc => some acc
  | c :: cs, acc =>
    if c = 'e' ∨ c = 'E' then
      let (eneg, cs) := takeSign cs
      (accExp cs 0).map fun e => if eneg then acc / powTen e.toNat else acc * powTen e.toNat
    else some acc

/-- `__to_f64`, or `none` where the exponent overflows. -/
def toF64 (s : List Char) : Option ℚ :=
  let (neg, cs) := takeSign (skipBlanks s)
  let (acc, cs) := accWhole cs 0
  let (acc, cs) := addFrac cs acc
  (scaleExp cs acc).map fun acc => if neg then -acc else acc

/-! ### Numbers as they are written -/

def IsSign (sign : List Char) : Prop := sign = [] ∨ sign = ['+'] ∨ sign = ['-']

structure Exponent where
  mark : Char
  sign : List Char
  digits : List Char
  isMark : mark = 'e' ∨ mark = 'E'
  isSign : IsSign sign
  areDigits : ∀ c ∈ digits, isDigit c = true

/-- The written parts of a number, each of which may be missing. -/
structure Decimal where
  blanks : List Char
  sign : List Char
  whole : List Char
  frac : Option (List Char)
  exp : Option Exponent
  areBlanks : ∀ c ∈ blanks, c = ' ' ∨ c = '\t'
  isSign : IsSign sign
  wholeDigits : ∀ c ∈ whole, isDigit c = true
  fracDigits : ∀ f ∈ frac, ∀ c ∈ f, isDigit c = true

namespace Exponent

def text (e : Exponent) : List Char := e.mark :: (e.sign ++ e.digits)

def size (e : Exponent) : ℕ := decimalValue e.digits

/-- `10 ^ e`. -/
def factor (e : Exponent) : ℚ :=
  if e.sign = ['-'] then 1 / 10 ^ e.size else 10 ^ e.size

end Exponent

namespace Decimal

def fracText (d : Decimal) : List Char := d.frac.elim [] ('.' :: ·)

def expText (d : Decimal) : List Char := d.exp.elim [] Exponent.text

def text (d : Decimal) : List Char := d.blanks ++ d.sign ++ d.whole ++ d.fracText ++ d.expText

def signed (d : Decimal) (q : ℚ) : ℚ := if d.sign = ['-'] then -q else q

/-- The number without what stands behind the point. -/
def truncated (d : Decimal) : ℤ :=
  if d.sign = ['-'] then -(decimalValue d.whole : ℤ) else decimalValue d.whole

def value (d : Decimal) : ℚ :=
  d.signed ((decimalValue d.whole +
    d.frac.elim 0 fun f => (decimalValue f : ℚ) / 10 ^ f.length) * d.exp.elim 1 Exponent.factor)

/-- The character would be read as part of the number. -/
def Continues (d : Decimal) (c : Char) : Prop :=
  isDigit c = true ∨
    match d.exp with
    | some e => e.digits = [] ∧ e.sign = [] ∧ (c = '+' ∨ c = '-')
    | none => c = 'e' ∨ c = 'E' ∨ d.frac = none ∧ (c = '.' ∨
        d.whole = [] ∧ d.sign = [] ∧ (c = '+' ∨ c = '-' ∨ c = ' ' ∨ c = '\t'))

/-- The number ends before `rest`. -/
def Ends (d : Decimal) (rest : List Char) : Prop := ∀ c ∈ rest.head?, ¬ d.Continues c

end Decimal

/-! ### The loops on the parts -/

section Parts
variable {t : List Char}

theorem skipBlanks_append {blanks : List Char} (hb : ∀ c ∈ blanks, c = ' ' ∨ c = '\t')
    (ht : ∀ c ∈ t.head?, ¬ (c = ' ' ∨ c = '\t')) : skipBlanks (blanks ++ t) = t := by
  induction blanks with
  | nil =>
    cases t with
    | nil => rfl
    | cons c t => exact if_neg (ht c rfl)
  | cons c blanks ih =>
    rw [List.forall_mem_cons] at hb
    rw [List.cons_append, skipBlanks, if_pos hb.1, ih hb.2]

theorem takeSign_append {sign : List Char} (hs : IsSign sign)
    (ht : sign = [] → ∀ c ∈ t.head?, ¬ (c = '+' ∨ c = '-')) :
    takeSign (sign ++ t) = (decide (sign = ['-']), t) := by
  rcases hs with rfl | rfl | rfl
  · cases t with
    | nil => rfl
    | cons c t =>
      obtain ⟨hplus, hminus⟩ := not_or.mp (ht rfl c rfl)
      rw [List.nil_append, takeSign, if_neg hminus, if_neg hplus]
      rfl
  · rfl
  · rfl

theorem decimalValue_cons (c : Char) (cs : List Char) :
    decimalValue (c :: cs) = (c.toNat - '0'.toNat) * 10 ^ cs.length + decimalValue cs := by
  rw [decimalValue, List.map_cons, Lib.numeral_cons, List.length_map, decimalValue]

theorem accWhole_append {ds : List Char} (hds : ∀ c ∈ ds, isDigit c = true)
    (ht : ∀ c ∈ t.head?, ¬ isDigit c = true) (acc : ℚ) :
    accWhole (ds ++ t) acc = (acc * 10 ^ ds.length + decimalValue ds, t) := by
  induction ds generalizing acc with
  | nil =>
    cases t with
    | nil => simp [accWhole, decimalValue, Lib.numeral_nil]
    | cons c t => simp [accWhole, ht c rfl, decimalValue, Lib.numeral_nil]
  | cons c ds ih =>
    rw [List.forall_mem_cons] at hds
    rw [List.cons_append, accWhole, if_pos hds.1, ih hds.2, decimalValue_cons,
      Cli.digit_eq hds.1, List.length_cons]
    push_cast
    congr 1
    ring

theorem accFrac_append {ds : List Char} (hds : ∀ c ∈ ds, isDigit c = true)
    (ht : ∀ c ∈ t.head?, ¬ isDigit c = true) (acc frac : ℚ) :
    accFrac (ds ++ t) acc frac = (acc + frac * 10 * (decimalValue ds / 10 ^ ds.length), t) := by
  induction ds generalizing acc frac with
  | nil =>
    cases t with
    | nil => simp [accFrac, decimalValue, Lib.numeral_nil]
    | cons c t => simp [accFrac, ht c rfl, decimalValue, Lib.numeral_nil]
  | cons c ds ih =>
    rw [List.forall_mem_cons] at hds
    rw [List.cons_append, accFrac, if_pos hds.1, ih hds.2, decimalValue_cons,
      Cli.digit_eq hds.1, List.length_cons]
    push_cast
    congr 1
    field_simp
    ring

/-- The digits of the exponent are accumulated up to its bound. -/
theorem accExp_append {ds : List Char} (hds : ∀ c ∈ ds, isDigit c = true)
    (ht : ∀ c ∈ t.head?, ¬ isDigit c = true) (e : ℕ) :
    accExp (ds ++ t) e = (Lib.accumulate 10 (2 ^ 31)
      (ds.map fun c => c.toNat - '0'.toNat) e).map Int.ofNat := by
  induction ds generalizing e with
  | nil =>
    cases t with
    | nil => rfl
    | cons c t => exact if_neg (ht c rfl)
  | cons c ds ih =>
    rw [List.forall_mem_cons] at hds
    have hstep : (e : ℤ) * 10 + digit c = ((e * 10 + (c.toNat - '0'.toNat) : ℕ) : ℤ) := by
      rw [Cli.digit_eq hds.1]
      push_cast
      rfl
    have hbound : ((e * 10 + (c.toNat - '0'.toNat) : ℕ) : ℤ) < 2 ^ 31 ↔
        e * 10 + (c.toNat - '0'.toNat) < 2 ^ 31 := by
      exact_mod_cast Iff.rfl
    rw [List.cons_append, accExp, if_pos hds.1, hstep, ih hds.2, List.map_cons, Lib.accumulate]
    simp only [hbound]
    split <;> rfl

theorem accExp_zero {ds : List Char} (hds : ∀ c ∈ ds, isDigit c = true)
    (ht : ∀ c ∈ t.head?, ¬ isDigit c = true) : accExp (ds ++ t) 0 =
      if decimalValue ds < 2 ^ 31 then some (decimalValue ds : ℤ) else none := by
  have hexp := accExp_append hds ht 0
  rw [Lib.accumulate_zero (by omega) (by omega), Nat.cast_zero] at hexp
  rw [hexp, decimalValue]
  split <;> rfl

theorem scanDigits_append {ds : List Char} (hds : ∀ c ∈ ds, isDigit c = true)
    (ht : ∀ c ∈ t.head?, ¬ isDigit c = true) : scanDigits (ds ++ t) 0 =
      if decimalValue ds < 2 ^ 63 then some (decimalValue ds : ℤ) else none := by
  have htake : (ds ++ t).takeWhile isDigit = ds := by
    rw [List.takeWhile_append_of_pos hds]
    cases t with
    | nil => simp
    | cons c t => simp [ht c rfl]
  rw [Cli.scanDigits_zero, htake]

theorem powTen_eq (n : ℕ) : powTen n = 10 ^ n := by
  induction n with
  | zero => rfl
  | succ n ih => rw [powTen, ih, pow_succ]

end Parts

/-! ### Reading a number -/

namespace Decimal
variable {d : Decimal} {rest : List Char} {c : Char}

theorem Ends.not_digit (h : d.Ends rest) : ∀ c ∈ rest.head?, ¬ isDigit c = true :=
  fun c hc hdigit => h c hc (.inl hdigit)

/-- What can follow the whole digits and the point. -/
theorem head_exp (h : d.Ends rest) (hc : c ∈ (d.expText ++ rest).head?) :
    c = 'e' ∨ c = 'E' ∨ c ∈ rest.head? ∧ d.exp = none ∧ ¬ d.Continues c := by
  cases hexp : d.exp with
  | none =>
    have hc' : c ∈ rest.head? := by simpa [expText, hexp] using hc
    exact .inr (.inr ⟨hc', rfl, h c hc'⟩)
  | some e =>
    have hmark : e.mark = c := by simpa [expText, hexp, Exponent.text] using hc
    exact hmark ▸ e.isMark.imp id .inl

theorem head_frac (h : d.Ends rest) (hc : c ∈ (d.fracText ++ (d.expText ++ rest)).head?) :
    c = '.' ∨ c = 'e' ∨ c = 'E' ∨
      c ∈ rest.head? ∧ d.frac = none ∧ d.exp = none ∧ ¬ d.Continues c := by
  cases hfrac : d.frac with
  | none =>
    have hc' : c ∈ (d.expText ++ rest).head? := by simpa [fracText, hfrac] using hc
    rcases head_exp h hc' with he | hE | ⟨hrest, hexp, hends⟩
    · exact .inr (.inl he)
    · exact .inr (.inr (.inl hE))
    · exact .inr (.inr (.inr ⟨hrest, rfl, hexp, hends⟩))
  | some f =>
    have hpoint : '.' = c := by simpa [fracText, hfrac] using hc
    exact .inl hpoint.symm

/-- What ends the whole digits is no digit. -/
theorem frac_not_digit (h : d.Ends rest) :
    ∀ c ∈ (d.fracText ++ (d.expText ++ rest)).head?, ¬ isDigit c = true := by
  intro c hc hdigit
  rcases head_frac h hc with rfl | rfl | rfl | ⟨-, -, -, hends⟩
  · exact absurd hdigit (by decide)
  · exact absurd hdigit (by decide)
  · exact absurd hdigit (by decide)
  · exact hends (.inl hdigit)

theorem exp_not_digit (h : d.Ends rest) :
    ∀ c ∈ (d.expText ++ rest).head?, ¬ isDigit c = true := by
  intro c hc hdigit
  rcases head_exp h hc with rfl | rfl | ⟨-, -, hends⟩
  · exact absurd hdigit (by decide)
  · exact absurd hdigit (by decide)
  · exact hends (.inl hdigit)

theorem head_whole (h : d.Ends rest)
    (hc : c ∈ (d.whole ++ (d.fracText ++ (d.expText ++ rest))).head?) :
    isDigit c = true ∨ c = '.' ∨ c = 'e' ∨ c = 'E' ∨
      d.whole = [] ∧ d.frac = none ∧ d.exp = none ∧ ¬ d.Continues c := by
  cases hwhole : d.whole with
  | nil =>
    rw [hwhole, List.nil_append] at hc
    rcases head_frac h hc with hp | he | hE | ⟨-, hfrac, hexp, hends⟩
    · exact .inr (.inl hp)
    · exact .inr (.inr (.inl he))
    · exact .inr (.inr (.inr (.inl hE)))
    · exact .inr (.inr (.inr (.inr ⟨rfl, hfrac, hexp, hends⟩)))
  | cons c' ds =>
    have heq : c' = c := by simpa [hwhole] using hc
    exact .inl (heq ▸ d.wholeDigits c' (by simp [hwhole]))

/-- Without a sign, what comes next is none. -/
theorem whole_not_sign (h : d.Ends rest) (hsign : d.sign = []) :
    ∀ c ∈ (d.whole ++ (d.fracText ++ (d.expText ++ rest))).head?, ¬ (c = '+' ∨ c = '-') := by
  intro c hc hs
  rcases head_whole h hc with hdigit | rfl | rfl | rfl | ⟨hwhole, hfrac, hexp, hends⟩
  · rcases hs with rfl | rfl <;> exact absurd hdigit (by decide)
  · exact absurd hs (by decide)
  · exact absurd hs (by decide)
  · exact absurd hs (by decide)
  · refine hends (.inr ?_)
    rw [hexp]
    exact .inr (.inr ⟨hfrac, .inr ⟨hwhole, hsign, hs.imp id .inl⟩⟩)

theorem sign_not_blank (h : d.Ends rest) :
    ∀ c ∈ (d.sign ++ (d.whole ++ (d.fracText ++ (d.expText ++ rest)))).head?,
      ¬ (c = ' ' ∨ c = '\t') := by
  intro c hc hb
  rcases d.isSign with hsign | hsign | hsign
  · rw [hsign, List.nil_append] at hc
    rcases head_whole h hc with hdigit | rfl | rfl | rfl | ⟨hwhole, hfrac, hexp, hends⟩
    · rcases hb with rfl | rfl <;> exact absurd hdigit (by decide)
    · exact absurd hb (by decide)
    · exact absurd hb (by decide)
    · exact absurd hb (by decide)
    · refine hends (.inr ?_)
      rw [hexp]
      exact .inr (.inr ⟨hfrac, .inr ⟨hwhole, hsign, .inr (.inr hb)⟩⟩)
  · have heq : '+' = c := by simpa [hsign] using hc
    exact absurd (heq ▸ hb) (by decide)
  · have heq : '-' = c := by simpa [hsign] using hc
    exact absurd (heq ▸ hb) (by decide)

/-- Blanks and sign of a number, in front of its digits. -/
theorem takeSign_text (h : d.Ends rest) : takeSign (skipBlanks (d.text ++ rest)) =
    (decide (d.sign = ['-']), d.whole ++ (d.fracText ++ (d.expText ++ rest))) := by
  have hassoc : d.text ++ rest =
      d.blanks ++ (d.sign ++ (d.whole ++ (d.fracText ++ (d.expText ++ rest)))) := by
    simp [text]
  rw [hassoc, skipBlanks_append d.areBlanks (sign_not_blank h),
    takeSign_append d.isSign (whole_not_sign h)]

/-- `__to_i64` reads the sign and the whole digits. -/
theorem toI64_text (h : d.Ends rest) : toI64 (d.text ++ rest) =
    if decimalValue d.whole < 2 ^ 63 then some d.truncated else none := by
  rw [toI64, takeSign_text h]
  simp only [scanDigits_append d.wholeDigits (frac_not_digit h), truncated]
  by_cases hlt : decimalValue d.whole < 2 ^ 63
  · rw [if_pos hlt, if_pos hlt, Option.map_some]
    by_cases hminus : d.sign = ['-'] <;> simp [hminus]
  · rw [if_neg hlt, if_neg hlt, Option.map_none]

theorem scaleExp_text (h : d.Ends rest) (acc : ℚ) : scaleExp (d.expText ++ rest) acc =
    if d.exp.elim 0 Exponent.size < 2 ^ 31 then some (acc * d.exp.elim 1 Exponent.factor)
    else none := by
  cases hexp : d.exp with
  | none =>
    have hnot : ∀ c ∈ rest.head?, ¬ (c = 'e' ∨ c = 'E') := by
      intro c hc he
      refine h c hc (.inr ?_)
      rw [hexp]
      exact he.imp id .inl
    simp only [expText, hexp, Option.elim_none, List.nil_append, mul_one]
    cases rest with
    | nil => rfl
    | cons c rest => exact if_neg (hnot c rfl)
  | some e =>
    have hrest : ∀ c ∈ rest.head?, ¬ isDigit c = true := h.not_digit
    have hsign : e.sign = [] → ∀ c ∈ (e.digits ++ rest).head?, ¬ (c = '+' ∨ c = '-') := by
      intro hsign c hc hs
      cases hdigits : e.digits with
      | nil =>
        rw [hdigits] at hc
        refine h c hc (.inr ?_)
        rw [hexp]
        exact ⟨hdigits, hsign, hs⟩
      | cons c' ds =>
        have heq : c' = c := by simpa [hdigits] using hc
        have hdigit := e.areDigits c' (by simp [hdigits])
        rw [heq] at hdigit
        rcases hs with rfl | rfl <;> exact absurd hdigit (by decide)
    have htext : d.expText ++ rest = e.mark :: (e.sign ++ (e.digits ++ rest)) := by
      simp [expText, hexp, Exponent.text]
    have haccExp : accExp (e.digits ++ rest) 0 =
        if e.size < 2 ^ 31 then some (e.size : ℤ) else none := accExp_zero e.areDigits hrest
    rw [htext, scaleExp, if_pos e.isMark, takeSign_append e.isSign hsign, Option.elim_some,
      Option.elim_some]
    simp only [haccExp]
    by_cases hlt : e.size < 2 ^ 31
    · rw [if_pos hlt, if_pos hlt, Option.map_some]
      by_cases hminus : e.sign = ['-'] <;>
        simp [hminus, powTen_eq, div_eq_mul_inv, Exponent.factor]
    · rw [if_neg hlt, if_neg hlt, Option.map_none]

theorem addFrac_text (h : d.Ends rest) (acc : ℚ) :
    addFrac (d.fracText ++ (d.expText ++ rest)) acc =
      (acc + d.frac.elim 0 fun f => (decimalValue f : ℚ) / 10 ^ f.length, d.expText ++ rest) := by
  cases hfrac : d.frac with
  | some f =>
    have htext : d.fracText ++ (d.expText ++ rest) = '.' :: (f ++ (d.expText ++ rest)) := by
      simp [fracText, hfrac]
    have hdigits : ∀ c ∈ f, isDigit c = true := d.fracDigits f (by simp [hfrac])
    rw [htext, addFrac, if_pos rfl, accFrac_append hdigits (exp_not_digit h), Option.elim_some]
    congr 1
    ring
  | none =>
    have hnot : ∀ c ∈ (d.expText ++ rest).head?, c ≠ '.' := by
      intro c hc hpoint
      rcases head_exp h hc with rfl | rfl | ⟨-, hexp, hends⟩
      · exact absurd hpoint (by decide)
      · exact absurd hpoint (by decide)
      · refine hends (.inr ?_)
        rw [hexp]
        exact .inr (.inr ⟨hfrac, .inl hpoint⟩)
    simp only [fracText, hfrac, Option.elim_none, List.nil_append, add_zero]
    cases htail : d.expText ++ rest with
    | nil => rfl
    | cons c cs => exact if_neg (hnot c (by simp [htail]))

/-- `__to_f64` reads the whole number, with point and exponent. -/
theorem toF64_text (h : d.Ends rest) : toF64 (d.text ++ rest) =
    if d.exp.elim 0 Exponent.size < 2 ^ 31 then some d.value else none := by
  rw [toF64, takeSign_text h]
  simp only [accWhole_append d.wholeDigits (frac_not_digit h), addFrac_text h, scaleExp_text h,
    zero_mul, zero_add]
  by_cases hlt : d.exp.elim 0 Exponent.size < 2 ^ 31
  · rw [if_pos hlt, if_pos hlt, Option.map_some]
    by_cases hminus : d.sign = ['-'] <;> simp [hminus, value, signed]
  · rw [if_neg hlt, if_neg hlt, Option.map_none]

end Decimal

/-! ### Every string starts with a number -/

/-- What satisfies `p` in front of a string, and the rest. -/
theorem exists_span (p : Char → Prop) [DecidablePred p] (s : List Char) :
    ∃ a t, s = a ++ t ∧ (∀ c ∈ a, p c) ∧ ∀ c ∈ t.head?, ¬ p c := by
  induction s with
  | nil => exact ⟨[], [], rfl, by simp, by simp⟩
  | cons c s ih =>
    by_cases hc : p c
    · obtain ⟨a, t, rfl, ha, ht⟩ := ih
      exact ⟨c :: a, t, rfl, List.forall_mem_cons.mpr ⟨hc, ha⟩, ht⟩
    · exact ⟨[], c :: s, rfl, by simp, by simpa using hc⟩

theorem exists_sign (s : List Char) : ∃ sign t, s = sign ++ t ∧ IsSign sign ∧
    (sign = [] → ∀ c ∈ t.head?, ¬ (c = '+' ∨ c = '-')) := by
  cases s with
  | nil => exact ⟨[], [], rfl, .inl rfl, by simp⟩
  | cons c s =>
    by_cases hplus : c = '+'
    · exact ⟨['+'], s, by rw [hplus]; rfl, .inr (.inl rfl), by simp⟩
    · by_cases hminus : c = '-'
      · exact ⟨['-'], s, by rw [hminus]; rfl, .inr (.inr rfl), by simp⟩
      · exact ⟨[], c :: s, rfl, .inl rfl, fun _ => by simp [hplus, hminus]⟩

theorem exists_frac (s : List Char) : ∃ (frac : Option (List Char)) (t : List Char),
    s = frac.elim [] ('.' :: ·) ++ t ∧ (∀ f ∈ frac, ∀ c ∈ f, isDigit c = true) ∧
    (frac = none → ∀ c ∈ t.head?, c ≠ '.') ∧
    (frac ≠ none → ∀ c ∈ t.head?, ¬ isDigit c = true) := by
  cases s with
  | nil => exact ⟨none, [], rfl, by simp, by simp, by simp⟩
  | cons c s =>
    by_cases hpoint : c = '.'
    · obtain ⟨f, t, rfl, hf, ht⟩ := exists_span (fun c => isDigit c = true) s
      exact ⟨some f, t, by rw [hpoint]; rfl, by simpa using hf, by simp, fun _ => ht⟩
    · exact ⟨none, c :: s, rfl, by simp, fun _ => by simpa using hpoint, by simp⟩

theorem exists_exp (s : List Char) : ∃ (exp : Option Exponent) (t : List Char),
    s = exp.elim [] Exponent.text ++ t ∧
    (exp = none → ∀ c ∈ t.head?, ¬ (c = 'e' ∨ c = 'E')) ∧
    ∀ e ∈ exp, (∀ c ∈ t.head?, ¬ isDigit c = true) ∧
      (e.digits = [] → e.sign = [] → ∀ c ∈ t.head?, ¬ (c = '+' ∨ c = '-')) := by
  cases s with
  | nil => exact ⟨none, [], rfl, by simp, by simp⟩
  | cons c s =>
    by_cases hmark : c = 'e' ∨ c = 'E'
    · obtain ⟨sign, t, rfl, hsign, hnot⟩ := exists_sign s
      obtain ⟨ds, rest, rfl, hds, hrest⟩ := exists_span (fun c => isDigit c = true) t
      refine ⟨some ⟨c, sign, ds, hmark, hsign, hds⟩, rest, by simp [Exponent.text], by simp, ?_⟩
      intro e he
      obtain rfl := Option.some.inj he
      refine ⟨hrest, fun hdigits hempty => ?_⟩
      obtain rfl : ds = [] := hdigits
      exact hnot hempty
    · exact ⟨none, c :: s, rfl, fun _ => by simpa using hmark, by simp⟩

theorem exists_decimal (s : List Char) : ∃ (d : Decimal) (rest : List Char),
    s = d.text ++ rest ∧ d.Ends rest := by
  obtain ⟨blanks, t, rfl, hblanks, hnotBlank⟩ := exists_span (fun c => c = ' ' ∨ c = '\t') s
  obtain ⟨sign, t, rfl, hsign, hnotSign⟩ := exists_sign t
  obtain ⟨whole, t, rfl, hwhole, hnotDigit⟩ := exists_span (fun c => isDigit c = true) t
  obtain ⟨frac, t, rfl, hfrac, hnotPoint, hfracEnds⟩ := exists_frac t
  obtain ⟨exp, rest, rfl, hnotMark, hexpEnds⟩ := exists_exp t
  refine ⟨⟨blanks, sign, whole, frac, exp, hblanks, hsign, hwhole, hfrac⟩, rest,
    by simp [Decimal.text, Decimal.fracText, Decimal.expText], fun c hc hcont => ?_⟩
  cases exp with
  | some e =>
    obtain ⟨hdigit, hs⟩ := hexpEnds e rfl
    rcases hcont with hcont | ⟨hdigits, hempty, hcont⟩
    · exact hdigit c hc hcont
    · exact hs hdigits hempty c hc hcont
  | none =>
    cases frac with
    | some f =>
      rcases hcont with hcont | he | hE | ⟨hnone, -⟩
      · exact hfracEnds (by simp) c hc hcont
      · exact hnotMark rfl c hc (.inl he)
      · exact hnotMark rfl c hc (.inr hE)
      · cases hnone
    | none =>
      rcases hcont with hcont | he | hE | ⟨-, hpoint | ⟨hw, hs, hcont⟩⟩
      · exact hnotDigit c hc hcont
      · exact hnotMark rfl c hc (.inl he)
      · exact hnotMark rfl c hc (.inr hE)
      · exact hnotPoint rfl c hc hpoint
      · obtain rfl : whole = [] := hw
        obtain rfl : sign = [] := hs
        rcases hcont with hp | hm | hb
        · exact hnotSign rfl c hc (.inl hp)
        · exact hnotSign rfl c hc (.inr hm)
        · exact hnotBlank c hc hb

end Bbench.Cargs
