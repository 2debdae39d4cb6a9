import Mathlib.Data.List.Basic
import Mathlib.Data.List.TakeWhile

/-! A walk over the cells of an array that visits one after the other and stops at the
first blank one. Nothing but a blank cell stops it: without one it leaves the array. -/

namespace Bbench.Lib

variable {α β : Type*}

/-- The walk from index `c`, with the cells from there on: what the visits give, and
whether it stops inside the array. -/
def walk (blank : α → Bool) (visit : ℕ → α → List β) : ℕ → List α → List β × Bool
  | _, [] => ([], false)
  | c, a :: cells =>
    if blank a then ([], true)
    else
      let rest := walk blank visit (c + 1) cells
      (visit c a ++ rest.1, rest.2)

variable {blank : α → Bool} {visit visit' : ℕ → α → List β}

theorem walk_nil (c : ℕ) : walk blank visit c [] = ([], false) := rfl

theorem walk_cons_blank {a : α} (ha : blank a = true) (c : ℕ) (cells : List α) :
    walk blank visit c (a :: cells) = ([], true) := by
  rw [walk, if_pos ha]

theorem walk_cons {a : α} (ha : blank a = false) (c : ℕ) (cells : List α) :
    walk blank visit c (a :: cells) =
      (visit c a ++ (walk blank visit (c + 1) cells).1, (walk blank visit (c + 1) cells).2) := by
  rw [walk, if_neg (by simp [ha])]

/-- The walk stays inside the array exactly when it has a blank cell. -/
theorem walk_inside_iff (c : ℕ) (cells : List α) :
    (walk blank visit c cells).2 = true ↔ ∃ a ∈ cells, blank a = true := by
  induction cells generalizing c with
  | nil => simp [walk_nil]
  | cons a cells ih =>
    cases ha : blank a with
    | true => simp [walk_cons_blank ha, ha]
    | false => simp [walk_cons ha, ih, ha]

theorem walk_congr (cells : List α) (c : ℕ)
    (h : ∀ c, ∀ a ∈ cells, visit c a = visit' c a) :
    walk blank visit c cells = walk blank visit' c cells := by
  induction cells generalizing c with
  | nil => rfl
  | cons a cells ih =>
    have hrest := ih (c + 1) fun c b hb => h c b (List.mem_cons_of_mem a hb)
    rw [walk, walk, hrest, h c a List.mem_cons_self]

/-- The visits that are made, when they do not depend on the index. -/
theorem walk_eq_flatMap (f : α → List β) (c : ℕ) (cells : List α) :
    (walk blank (fun _ => f) c cells).1 = (cells.takeWhile fun a => !blank a).flatMap f := by
  induction cells generalizing c with
  | nil => rfl
  | cons a cells ih =>
    cases ha : blank a with
    | true => rw [walk_cons_blank ha, List.takeWhile_cons_of_neg (by simp [ha]), List.flatMap_nil]
    | false =>
      rw [walk_cons ha, List.takeWhile_cons_of_pos (by simp [ha]), List.flatMap_cons, ← ih (c + 1)]

/-- Whether a walk stops inside the array is decided by the cells. -/
theorem walk_snd_congr (c : ℕ) (cells : List α) :
    (walk blank visit c cells).2 = (walk blank visit' c cells).2 :=
  Bool.eq_iff_iff.mpr ((walk_inside_iff c cells).trans (walk_inside_iff c cells).symm)

/-- Two lists cut at their first marker. -/
theorem append_marker_inj {M : β → Prop} {xs ys : List β} (hxs : ∀ x ∈ xs, ¬ M x)
    (hys : ∀ y ∈ ys, ¬ M y) {g : β} (hg : M g) {rest rest' : List β} :
    xs ++ g :: rest = ys ++ g :: rest' ↔ xs = ys ∧ rest = rest' := by
  induction xs generalizing ys with
  | nil =>
    cases ys with
    | nil => simp
    | cons y ys =>
      have hne : g ≠ y := fun h => hys y List.mem_cons_self (h ▸ hg)
      simp [hne]
  | cons x xs ih =>
    have hne : x ≠ g := fun h => hxs x List.mem_cons_self (h ▸ hg)
    cases ys with
    | nil => simp [hne]
    | cons y ys =>
      have hrest := ih (fun z hz => hxs z (List.mem_cons_of_mem x hz))
        (fun z hz => hys z (List.mem_cons_of_mem y hz))
      rw [List.cons_append, List.cons_append, List.cons.injEq, hrest, List.cons.injEq, and_assoc]

/-- Visits that each end with a marker are the same when each of them is. -/
theorem walk_marked_iff {M : β → Prop} {f f' : α → List β} {g : ℕ → α → β}
    (hf : ∀ a, ∀ x ∈ f a, ¬ M x) (hf' : ∀ a, ∀ x ∈ f' a, ¬ M x)
    (hg : ∀ c a, M (g c a)) (c : ℕ) (cells : List α) :
    (walk blank (fun c a => f a ++ [g c a]) c cells).1 =
        (walk blank (fun c a => f' a ++ [g c a]) c cells).1 ↔
      ∀ a ∈ cells.takeWhile fun a => !blank a, f a = f' a := by
  induction cells generalizing c with
  | nil => simp [walk_nil]
  | cons a cells ih =>
    cases ha : blank a with
    | true => simp [walk_cons_blank ha, List.takeWhile_cons_of_neg, ha]
    | false =>
      rw [walk_cons ha, walk_cons ha, List.takeWhile_cons_of_pos (by simp [ha]),
        List.append_assoc, List.append_assoc, List.singleton_append, List.singleton_append,
        append_marker_inj (hf a) (hf' a) (hg c a), ih, List.forall_mem_cons]

theorem filter_zipIdx_eq_nil_iff (c : ℕ) (cells : List α) :
    ((cells.zipIdx c).filter fun x => !blank x.1) = [] ↔ ∀ a ∈ cells, blank a = true := by
  induction cells generalizing c with
  | nil => simp
  | cons a cells ih =>
    rw [List.zipIdx_cons, List.forall_mem_cons]
    cases ha : blank a with
    | true => rw [List.filter_cons_of_neg (by simp [ha]), ih, and_iff_right rfl]
    | false => simp [ha]

/-- With one visit a cell, the walk visits every cell that is not blank, in order,
exactly when no such cell comes after a blank one. -/
theorem walk_complete_iff (blank : α → Bool) (g : ℕ → α → β) (c : ℕ) (cells : List α) :
    (walk blank (fun c a => [g c a]) c cells).1 =
        ((cells.zipIdx c).filter fun x => !blank x.1).map (fun x => g x.2 x.1) ↔
      cells.Pairwise fun a b => blank a = true → blank b = true := by
  induction cells generalizing c with
  | nil => simp [walk_nil]
  | cons a cells ih =>
    rw [List.pairwise_cons, List.zipIdx_cons]
    cases ha : blank a with
    | true =>
      -- the walk ends here, so that nothing may be left
      rw [walk_cons_blank ha, List.filter_cons_of_neg (by simp [ha]), eq_comm,
        List.map_eq_nil_iff, filter_zipIdx_eq_nil_iff]
      constructor
      · intro hall
        exact ⟨fun b hb _ => hall b hb,
          List.pairwise_of_forall_mem_list fun _ _ b hb _ => hall b hb⟩
      · exact fun h b hb => h.1 b hb rfl
    | false =>
      rw [walk_cons ha, List.filter_cons_of_pos (by simp [ha]), List.map_cons,
        List.singleton_append, List.cons_inj_right, ih]
      simp

end Bbench.Lib
