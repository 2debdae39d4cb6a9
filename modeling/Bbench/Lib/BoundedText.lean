import Mathlib.Data.List.Basic

/-! Text appended to a string of fixed capacity, one character at a time. Up to the
capacity a character is appended; what happens at the capacity is the string's own
matter, and a statement about all of them holds whatever that is. -/

namespace Bbench.Lib

/-- A string of capacity `cap`, by what appending a character does to its content. -/
structure BoundedText (cap : ℕ) (α : Type*) where
  push (s : List α) (c : α) : List α
  push_of_lt {s : List α} (hs : s.length < cap) (c : α) : push s c = s ++ [c]

namespace BoundedText

variable {cap : ℕ} {α : Type*} (S : BoundedText cap α)

/-- All characters of `src`, one by one. -/
def append (dst src : List α) : List α := src.foldl S.push dst

@[simp] theorem append_nil (dst : List α) : S.append dst [] = dst := rfl

theorem append_eq {dst src : List α} (h : dst.length + src.length ≤ cap) :
    S.append dst src = dst ++ src := by
  induction src generalizing dst with
  | nil => rw [append_nil, List.append_nil]
  | cons c src ih =>
    rw [List.length_cons] at h
    have hpush : S.push dst c = dst ++ [c] := S.push_of_lt (by omega) c
    have hstep : S.append dst (c :: src) = S.append (dst ++ [c]) src := by rw [← hpush]; rfl
    rw [hstep, ih, List.append_assoc, List.singleton_append]
    rw [List.length_append, List.length_singleton]
    omega

/-- An empty string takes any text within the capacity. -/
theorem nil_append {src : List α} (h : src.length ≤ cap) : S.append [] src = src :=
  S.append_eq (by rwa [List.length_nil, Nat.zero_add])

/-- The string that never runs full. -/
def unbounded (cap : ℕ) (α : Type*) : BoundedText cap α := ⟨fun s c => s ++ [c], fun _ _ => rfl⟩

@[simp] theorem unbounded_append (dst src : List α) :
    (unbounded cap α).append dst src = dst ++ src := by
  induction src generalizing dst with
  | nil => rw [append_nil, List.append_nil]
  | cons c src ih =>
    show (unbounded cap α).append (dst ++ [c]) src = dst ++ c :: src
    rw [ih, List.append_assoc, List.singleton_append]

end BoundedText

end Bbench.Lib
