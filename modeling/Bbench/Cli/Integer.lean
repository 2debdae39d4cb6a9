import Bbench.Cli.Argv
import Bbench.Lib.MachineMean
import Bbench.Lib.Numeral
import Mathlib.Data.List.TakeWhile

/-! What `parse_int` accepts. It skips blanks and a sign and reads the digits that
follow, without a look at what stands after them and without a bound. So it is right
about a string that has no number in that place, and about one that ends with a number
below `2 ^ 63`. -/

namespace Bbench.Cli

open Lib (FitsWord)

/-- The number a sequence of decimal digits stands for. -/
def decimalValue (digits : List Char) : ℕ :=
  Lib.numeral 10 (digits.map fun c => c.toNat - '0'.toNat)

/-- Blanks, an optional sign and at least one digit, up to the end, denote `v`. -/
def Denotes (s : List Char) (v : ℤ) : Prop :=
  ∃ (blanks : ℕ) (sign digits : List Char),
    s = List.replicate blanks ' ' ++ sign ++ digits ∧
    digits ≠ [] ∧ (∀ c ∈ digits, isDigit c = true) ∧
    (sign = ['-'] ∧ v = -decimalValue digits ∨
      (sign = [] ∨ sign = ['+']) ∧ v = decimalValue digits)

/-- `parse_int` returns true with the integer the string denotes, and false when it
denotes none in the range of `long long`. -/
def ReadsInteger (s : String) : Prop :=
  (∀ v, Denotes s.toList v → FitsWord 64 v → parseInt s = .value v) ∧
    ((∀ v, Denotes s.toList v → ¬ FitsWord 64 v) → parseInt s = .rejected)

def startsDigit (s : List Char) : Bool := s.head?.any isDigit

/-- After blanks and a sign there is no digit, or only digits of a number in range. -/
def NumberEnds (s : String) : Prop :=
  let digits := (takeSign (skipSpaces s.toList)).2
  startsDigit digits = true → (∀ c ∈ digits, isDigit c = true) ∧ decimalValue digits < 2 ^ 63

/-! ### Blanks and sign -/

theorem skipSpaces_eq (s : List Char) :
    ∃ blanks, s = List.replicate blanks ' ' ++ skipSpaces s := by
  induction s with
  | nil => exact ⟨0, rfl⟩
  | cons c s ih =>
    rw [skipSpaces]
    split
    · rename_i hc
      obtain ⟨k, hk⟩ := ih
      refine ⟨k + 1, ?_⟩
      rw [List.replicate_succ, List.cons_append, ← hk, hc]
    · exact ⟨0, rfl⟩

theorem skipSpaces_replicate (k : ℕ) {s : List Char} (hs : s.head? ≠ some ' ') :
    skipSpaces (List.replicate k ' ' ++ s) = s := by
  induction k with
  | zero =>
    cases s with
    | nil => rfl
    | cons c s =>
      have hc : c ≠ ' ' := by simpa using hs
      exact if_neg hc
  | succ k ih =>
    rw [List.replicate_succ, List.cons_append, skipSpaces, if_pos rfl, ih]

/-- The sign in front of what `takeSign` leaves. -/
theorem takeSign_eq (s : List Char) : ∃ sign, s = sign ++ (takeSign s).2 ∧
    (sign = ['-'] ∧ (takeSign s).1 = true ∨
      (sign = [] ∨ sign = ['+']) ∧ (takeSign s).1 = false) := by
  cases s with
  | nil => exact ⟨[], rfl, .inr ⟨.inl rfl, rfl⟩⟩
  | cons c s =>
    rw [takeSign]
    split
    · rename_i hc
      exact ⟨['-'], by rw [hc]; rfl, .inl ⟨rfl, rfl⟩⟩
    · split
      · rename_i hc
        exact ⟨['+'], by rw [hc]; rfl, .inr ⟨.inr rfl, rfl⟩⟩
      · exact ⟨[], rfl, .inr ⟨.inl rfl, rfl⟩⟩

theorem takeSign_digits {digits : List Char} (h : startsDigit digits = true) :
    takeSign digits = (false, digits) := by
  cases digits with
  | nil => cases h
  | cons c digits =>
    have hc : isDigit c = true := h
    have hminus : c ≠ '-' := by
      rintro rfl
      cases hc
    have hplus : c ≠ '+' := by
      rintro rfl
      cases hc
    rw [takeSign, if_neg hminus, if_neg hplus]

theorem startsDigit_of_all {digits : List Char} (hne : digits ≠ [])
    (h : ∀ c ∈ digits, isDigit c = true) : startsDigit digits = true := by
  cases digits with
  | nil => exact absurd rfl hne
  | cons c digits => exact h c List.mem_cons_self

/-- A string denotes at most one integer: that of what stands after blanks and sign. -/
theorem denotes_iff {s : List Char} {v : ℤ} :
    Denotes s v ↔
      let r := takeSign (skipSpaces s)
      startsDigit r.2 = true ∧ (∀ c ∈ r.2, isDigit c = true) ∧
        v = if r.1 then -(decimalValue r.2 : ℤ) else decimalValue r.2 := by
  constructor
  · rintro ⟨k, sign, digits, rfl, hne, hall, hsign⟩
    have hstart := startsDigit_of_all hne hall
    have hhead : digits.head? ≠ some ' ' := by
      intro hspace
      rw [startsDigit, hspace] at hstart
      cases hstart
    rw [List.append_assoc]
    rcases hsign with ⟨rfl, rfl⟩ | ⟨rfl | rfl, rfl⟩
    · rw [skipSpaces_replicate k (by simp)]
      exact ⟨hstart, hall, rfl⟩
    · rw [List.nil_append, skipSpaces_replicate k hhead, takeSign_digits hstart]
      exact ⟨hstart, hall, rfl⟩
    · rw [skipSpaces_replicate k (by simp)]
      exact ⟨hstart, hall, rfl⟩
  · rintro ⟨hstart, hall, rfl⟩
    obtain ⟨k, hk⟩ := skipSpaces_eq s
    obtain ⟨sign, hsign, hcases⟩ := takeSign_eq (skipSpaces s)
    refine ⟨k, sign, (takeSign (skipSpaces s)).2, ?_, ?_, hall, ?_⟩
    · rw [List.append_assoc, ← hsign]
      exact hk
    · intro hnil
      rw [hnil] at hstart
      cases hstart
    · rcases hcases with ⟨rfl, hneg⟩ | ⟨hplus, hneg⟩
      · exact .inl ⟨rfl, if_pos hneg⟩
      · exact .inr ⟨hplus, if_neg (by simp [hneg])⟩

/-! ### The digits -/

theorem digit_eq {c : Char} (h : isDigit c = true) :
    digit c = ((c.toNat - '0'.toNat : ℕ) : ℤ) := by
  have hle : '0' ≤ c := by
    simp only [isDigit, Bool.and_eq_true, decide_eq_true_eq] at h
    exact h.1
  have hnat : '0'.toNat ≤ c.toNat := hle
  rw [digit]
  omega

/-- The loop accumulates the digits up to the first byte that is none. -/
theorem scanDigits_eq (cs : List Char) (v : ℕ) : scanDigits cs v =
    (Lib.accumulate 10 (2 ^ 63) ((cs.takeWhile isDigit).map fun c => c.toNat - '0'.toNat) v).map
      Int.ofNat := by
  induction cs generalizing v with
  | nil => rfl
  | cons c cs ih =>
    rw [scanDigits, List.takeWhile_cons]
    by_cases hc : isDigit c = true
    · have hstep : (v : ℤ) * 10 + digit c = ((v * 10 + (c.toNat - '0'.toNat) : ℕ) : ℤ) := by
        rw [digit_eq hc]
        push_cast
        rfl
      rw [if_pos hc, if_pos hc, List.map_cons, Lib.accumulate, hstep, ih]
      have hbound : ((v * 10 + (c.toNat - '0'.toNat) : ℕ) : ℤ) < 2 ^ 63 ↔
          v * 10 + (c.toNat - '0'.toNat) < 2 ^ 63 := by
        exact_mod_cast Iff.rfl
      simp only [hbound]
      split <;> rfl
    · rw [if_neg hc, if_neg hc]
      rfl

theorem scanDigits_zero (cs : List Char) : scanDigits cs 0 =
    if decimalValue (cs.takeWhile isDigit) < 2 ^ 63 then
      some (decimalValue (cs.takeWhile isDigit) : ℤ) else none := by
  have hscan := scanDigits_eq cs 0
  rw [Lib.accumulate_zero (by omega) (by omega), Nat.cast_zero] at hscan
  rw [hscan, decimalValue]
  split <;> rfl

/-- Such a number fits a `long long` with either sign. -/
theorem fitsWord_signed {n : ℕ} (hn : n < 2 ^ 63) (neg : Bool) :
    FitsWord 64 (if neg then -(n : ℤ) else n) := by
  unfold FitsWord
  split <;> omega

section Parsed
variable {s : String} {neg : Bool} {digits : List Char}
  (hr : takeSign (skipSpaces s.toList) = (neg, digits))
include hr

/-- `parse_int` on a string with a digit after blanks and sign: whatever follows the
digits, it is their number, if the accumulator holds it. -/
theorem parseInt_of_startsDigit (h : startsDigit digits = true) :
    parseInt s = if decimalValue (digits.takeWhile isDigit) < 2 ^ 63 then
      .value (if neg then -(decimalValue (digits.takeWhile isDigit) : ℤ)
        else decimalValue (digits.takeWhile isDigit)) else .overflow := by
  cases digits with
  | nil => cases h
  | cons c cs =>
    have hc : isDigit c = true := h
    simp only [parseInt, hr, hc, if_true, scanDigits_zero]
    by_cases hn : decimalValue ((c :: cs).takeWhile isDigit) < 2 ^ 63
    · rw [if_pos hn, if_pos hn]
    · rw [if_neg hn, if_neg hn]

theorem parseInt_of_not_startsDigit (h : startsDigit digits = false) : parseInt s = .rejected := by
  cases digits with
  | nil => simp only [parseInt, hr]
  | cons c cs =>
    have hc : isDigit c = false := h
    simp only [parseInt, hr, hc, Bool.false_eq_true, if_false]

end Parsed

/-- When `parse_int` reads integers. A string is read as it should be exactly when
after its blanks and sign it has no digit, or only digits, of a number below `2 ^ 63`. -/
theorem parseInt_readsInteger_iff (s : String) : ReadsInteger s ↔ NumberEnds s := by
  obtain ⟨neg, digits, hr⟩ : ∃ neg digits, takeSign (skipSpaces s.toList) = (neg, digits) :=
    ⟨_, _, rfl⟩
  have hdenotes : ∀ v, Denotes s.toList v ↔ startsDigit digits = true ∧
      (∀ c ∈ digits, isDigit c = true) ∧
      v = if neg then -(decimalValue digits : ℤ) else decimalValue digits := by
    intro v
    rw [denotes_iff, hr]
  simp only [ReadsInteger, NumberEnds, hdenotes, hr]
  cases hstart : startsDigit digits with
  | false =>
    have hrejected := parseInt_of_not_startsDigit hr hstart
    simp [hrejected]
  | true =>
    have hparse := parseInt_of_startsDigit hr hstart
    constructor
    · rintro ⟨hvalue, hnone⟩ -
      have hall : ∀ c ∈ digits, isDigit c = true := by
        -- otherwise the string denotes nothing and is accepted all the same
        by_contra hrest
        have hrejected := hnone fun v hv => absurd hv.2.1 hrest
        rw [hparse] at hrejected
        split at hrejected <;> cases hrejected
      refine ⟨hall, ?_⟩
      by_contra hlarge
      rw [List.takeWhile_eq_self_iff.mpr hall, if_neg hlarge] at hparse
      rw [hparse] at hvalue hnone
      by_cases hfits : FitsWord 64 (if neg then -(decimalValue digits : ℤ) else decimalValue digits)
      · cases hvalue _ ⟨rfl, hall, rfl⟩ hfits
      · have hrejected := hnone fun v hv => hv.2.2 ▸ hfits
        cases hrejected
    · intro h
      obtain ⟨hall, hlt⟩ := h rfl
      rw [List.takeWhile_eq_self_iff.mpr hall, if_pos hlt] at hparse
      refine ⟨fun v hv _ => by rw [hparse, hv.2.2], fun hnone => ?_⟩
      exact absurd (fitsWord_signed hlt neg) (hnone _ ⟨rfl, hall, rfl⟩)

/-- A number with something after it is accepted. -/
theorem not_parseInt_readsInteger : ¬ ∀ s, ReadsInteger s := by
  intro h
  have hends := (h "10x").2
  have hdenotes : ∀ v, ¬ Denotes "10x".toList v := by
    intro v hv
    have hall := (denotes_iff.mp hv).2.1 'x' (by decide)
    exact absurd hall (by decide)
  have hrejected := hends fun v hv => absurd hv (hdenotes v)
  exact absurd hrejected (by decide)

end Bbench.Cli
