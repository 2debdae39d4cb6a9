import Mathlib.Data.List.Basic

/-! The last writer wins. A fold whose step overwrites one field, or leaves it
alone, ends with the value of the last element that writes it. -/

namespace Bbench.LastWrite

variable {α β ο : Type*}

/-- The value of the last element that carries one. -/
def lastOf (sel : α → Option β) (xs : List α) : Option β := (xs.filterMap sel).getLast?

theorem lastOf_cons (sel : α → Option β) (a : α) (xs : List α) :
    lastOf sel (a :: xs) = (lastOf sel xs).or (sel a) := by
  unfold lastOf
  cases h : sel a with
  | none => simp [h]
  | some b => simp [h, List.getLast?_cons, Option.or_some]

theorem lastOf_map {γ : Type*} (sel : α → Option β) (g : β → γ) (xs : List α) :
    lastOf (fun a => (sel a).map g) xs = (lastOf sel xs).map g := by
  induction xs with
  | nil => rfl
  | cons a xs ih => rw [lastOf_cons, lastOf_cons, ih]; cases lastOf sel xs <;> rfl

/-- A value that came last was carried by some element. -/
theorem exists_of_lastOf {sel : α → Option β} {xs : List α} {b : β} (h : lastOf sel xs = some b) :
    ∃ a ∈ xs, sel a = some b :=
  List.mem_filterMap.mp (List.mem_of_getLast? h)

/-- A field that every step overwrites or keeps holds the last value written. -/
theorem foldl_field {apply : ο → α → ο} {field : ο → β} {sel : α → Option β}
    (h : ∀ o a, field (apply o a) = (sel a).getD (field o)) (o : ο) (xs : List α) :
    field (xs.foldl apply o) = (lastOf sel xs).getD (field o) := by
  induction xs generalizing o with
  | nil => rfl
  | cons a xs ih =>
    rw [List.foldl_cons, ih, h, lastOf_cons]
    cases lastOf sel xs <;> rfl

/-- A field that every step extends holds everything written, in order. -/
theorem foldl_append {apply : ο → α → ο} {field : ο → List β} {sel : α → Option β}
    (h : ∀ o a, field (apply o a) = field o ++ (sel a).toList) (o : ο) (xs : List α) :
    field (xs.foldl apply o) = field o ++ xs.filterMap sel := by
  induction xs generalizing o with
  | nil => simp
  | cons a xs ih =>
    rw [List.foldl_cons, ih, h, List.append_assoc, List.filterMap_cons]
    cases sel a <;> rfl

end Bbench.LastWrite
