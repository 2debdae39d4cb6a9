import Mathlib.Data.List.TakeWhile
import Bbench.Report.Emit

/-! What reaches the descriptor. Every call on a sink writes characters; the two
formatting routines and the memory behind a string literal belong to the platform
and are parameters. -/

namespace Bbench.Report

/-- The parts of the byte stream that are not in the sources. -/
structure Rendering where
  /-- `emit_int` of a number. -/
  int : ℤ → List Char
  /-- `emit_double` of a number. -/
  double : ℚ → List Char
  /-- What stands in memory after the terminator of a literal. -/
  beyond : String → List Char

/-- The characters before the terminator, as `strlen` counts them. -/
def cString (s : String) : List Char := s.toList.takeWhile (· ≠ '\x00')

def Emit.text (r : Rendering) : Emit → List Char
  | .str s => cString s
  | .bytes s n => (s.toList ++ '\x00' :: r.beyond s).take n
  | .int v => r.int v
  | .double v => r.double v

/-- The byte stream of a sequence of calls. -/
def text (r : Rendering) (es : List Emit) : List Char := es.flatMap (Emit.text r)

variable (r : Rendering)

@[simp] theorem text_nil : text r [] = [] := rfl

@[simp] theorem text_cons (e : Emit) (es : List Emit) :
    text r (e :: es) = e.text r ++ text r es := rfl

@[simp] theorem text_append (es es' : List Emit) :
    text r (es ++ es') = text r es ++ text r es' := List.flatMap_append

theorem text_flatMap {α : Type*} (l : List α) (f : α → List Emit) :
    text r (l.flatMap f) = l.flatMap fun a => text r (f a) := List.flatMap_assoc

theorem text_flatten (ls : List (List Emit)) : text r ls.flatten = ls.flatMap (text r) := by
  induction ls with
  | nil => rfl
  | cons l ls ih => rw [List.flatten_cons, text_append, ih, List.flatMap_cons]

@[simp] theorem text_newline : newline.text r = ['\n'] := rfl

/-- A string without a terminator inside is emitted whole. -/
theorem cString_eq_toList_iff {s : String} : cString s = s.toList ↔ '\x00' ∉ s.toList := by
  rw [cString, List.takeWhile_eq_self_iff]
  simp only [decide_eq_true_eq, ne_eq]
  exact ⟨fun h h0 => h _ h0 rfl, fun h c hc h0 => h (h0 ▸ hc)⟩

/-- And no character appears that the string does not have. -/
theorem mem_of_mem_cString {s : String} {c : Char} (h : c ∈ cString s) : c ∈ s.toList :=
  (List.takeWhile_sublist _).subset h

/-- `emit(s, n)` stays inside its literal. -/
def Emit.Within : Emit → Prop
  | .bytes s n => n ≤ s.toList.length
  | _ => True

instance (e : Emit) : Decidable e.Within := by
  unfold Emit.Within
  split <;> infer_instance

/-! ### Decimal numbers -/

/-- Numbers are rendered injectively and on one line. -/
structure Rendering.Decimal (r : Rendering) : Prop where
  int_injective : Function.Injective r.int
  double_injective : Function.Injective r.double
  int_line : ∀ v, '\n' ∉ r.int v
  double_line : ∀ t, '\n' ∉ r.double t

def decimalInt (v : ℤ) : List Char :=
  (if v < 0 then ['-'] else []) ++ Nat.toDigits 10 v.natAbs

/-- A whole number with its exponent, and any other as a quotient. -/
def decimalDouble (t : ℚ) : List Char :=
  decimalInt t.num ++ 'E' :: '0' :: (if t.den = 1 then [] else '/' :: Nat.toDigits 10 t.den)

def decimalRendering : Rendering := ⟨decimalInt, decimalDouble, fun _ => []⟩

theorem isDigit_of_mem {n : ℕ} {c : Char} (hc : c ∈ Nat.toDigits 10 n) : c.isDigit = true :=
  Nat.isDigit_of_mem_toDigits (by decide) (by decide) hc

theorem mem_decimalInt {v : ℤ} {c : Char} (hc : c ∈ decimalInt v) :
    c = '-' ∨ c.isDigit = true := by
  rcases List.mem_append.mp hc with hsign | hdigits
  · split at hsign
    · exact .inl (List.mem_singleton.mp hsign)
    · exact absurd hsign List.not_mem_nil
  · exact .inr (isDigit_of_mem hdigits)

theorem toDigits_injective {m n : ℕ} (h : Nat.toDigits 10 m = Nat.toDigits 10 n) : m = n := by
  rw [← Nat.ofDigitChars_toDigits (b := 10) (n := m) (by decide) (by decide), h,
    Nat.ofDigitChars_toDigits (by decide) (by decide)]

theorem decimalInt_injective : Function.Injective decimalInt := by
  have hsign : ∀ {m n : ℕ}, '-' :: Nat.toDigits 10 m ≠ Nat.toDigits 10 n := fun h =>
    absurd (isDigit_of_mem (h ▸ List.mem_cons_self)) (by decide)
  intro v w h
  unfold decimalInt at h
  split at h <;> split at h
  · have habs := toDigits_injective (List.cons.inj h).2
    omega
  · exact absurd h hsign
  · exact absurd h.symm hsign
  · have habs := toDigits_injective h
    omega

theorem decimalDouble_injective : Function.Injective decimalDouble := by
  have hE : ∀ v, 'E' ∉ decimalInt v := fun v hc =>
    absurd (mem_decimalInt hc) (by decide)
  intro t u h
  have hcut := congrArg (List.splitOn 'E') h
  rw [decimalDouble, decimalDouble, List.splitOn_append_cons_self_of_not_mem (hE _),
    List.splitOn_append_cons_self_of_not_mem (hE _)] at hcut
  have hnum := decimalInt_injective (List.cons.inj hcut).1
  have hden : t.den = u.den := by
    rw [decimalDouble, decimalDouble, hnum, List.append_cancel_left_eq, List.cons.injEq,
      List.cons.injEq] at h
    replace h := h.2.2
    split at h <;> split at h
    · rename_i ht hu
      rw [ht, hu]
    · exact absurd h (List.cons_ne_nil _ _).symm
    · exact absurd h (List.cons_ne_nil _ _)
    · exact toDigits_injective (List.cons.inj h).2
  exact Rat.ext hnum hden

/-- The characters of a number. -/
theorem mem_decimalDouble {t : ℚ} {c : Char} (hc : c ∈ decimalDouble t) :
    c = '-' ∨ c = 'E' ∨ c = '/' ∨ c.isDigit = true := by
  rcases List.mem_append.mp hc with hnum | htail
  · exact (mem_decimalInt hnum).elim .inl fun h => .inr (.inr (.inr h))
  rcases List.mem_cons.mp htail with rfl | htail
  · exact .inr (.inl rfl)
  rcases List.mem_cons.mp htail with rfl | htail
  · exact .inr (.inr (.inr rfl))
  split at htail
  · exact absurd htail List.not_mem_nil
  · rcases List.mem_cons.mp htail with rfl | hden
    · exact .inr (.inr (.inl rfl))
    · exact .inr (.inr (.inr (isDigit_of_mem hden)))

theorem decimalRendering_decimal : decimalRendering.Decimal where
  int_injective := decimalInt_injective
  double_injective := decimalDouble_injective
  int_line _ hc := absurd (mem_decimalInt hc) (by decide)
  double_line _ hc := absurd (mem_decimalDouble hc) (by decide)

end Bbench.Report
