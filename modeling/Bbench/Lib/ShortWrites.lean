import Mathlib.Data.List.Basic

/-! A stream behind a call that may accept less than it is given. How much it accepts can
depend on everything requested before. The writers here make each request once, so what
was not accepted is lost: the stream is a sublist of what was requested, and all of it
exactly when no request was cut. -/

namespace Bbench.Lib

variable {α : Type*}

/-- A behaviour of the call: of each request some part from its front, and of a request
that is not empty a part that is not. -/
structure Acceptor (α : Type*) where
  accept (before : List (List α)) (t : List α) : ℕ
  le_length (before : List (List α)) (t : List α) : accept before t ≤ t.length
  pos (before : List (List α)) {t : List α} (ht : t ≠ []) : 0 < accept before t

/-- The requests made so far, and what arrived. -/
structure Transfer (α : Type*) where
  requests : List (List α)
  received : List α

namespace Acceptor

variable (k : Acceptor α)

def write (st : Transfer α) (t : List α) : Transfer α :=
  ⟨st.requests ++ [t], st.received ++ t.take (k.accept st.requests t)⟩

def writes (st : Transfer α) (ts : List (List α)) : Transfer α := ts.foldl k.write st

/-- Every request is accepted whole, in the order they are made. -/
def Whole (before ts : List (List α)) : Prop :=
  ∀ pre t post, ts = pre ++ t :: post → k.accept (before ++ pre) t = t.length

@[simp] theorem writes_nil (st : Transfer α) : k.writes st [] = st := rfl

@[simp] theorem writes_cons (st : Transfer α) (t : List α) (ts : List (List α)) :
    k.writes st (t :: ts) = k.writes (k.write st t) ts := rfl

variable {k}

theorem whole_nil (before : List (List α)) : k.Whole before [] := by
  intro pre t post h
  simp at h

theorem whole_cons {before ts : List (List α)} {t : List α} : k.Whole before (t :: ts) ↔
    k.accept before t = t.length ∧ k.Whole (before ++ [t]) ts := by
  constructor
  · intro h
    refine ⟨by simpa using h [] t ts rfl, fun pre t' post hts => ?_⟩
    rw [List.append_assoc]
    exact h (t :: pre) t' post (congrArg (t :: ·) hts)
  · rintro ⟨hhead, htail⟩ pre t' post hts
    cases pre with
    | nil =>
      obtain ⟨rfl, -⟩ := List.cons.inj hts
      rw [List.append_nil]
      exact hhead
    | cons s pre =>
      obtain ⟨rfl, hrest⟩ := List.cons.inj hts
      have h := htail pre t' post hrest
      rwa [List.append_assoc] at h

/-- Nothing arrives that was not requested, and nothing out of order. -/
theorem received_writes_sublist (st : Transfer α) (ts : List (List α)) :
    (k.writes st ts).received.Sublist (st.received ++ ts.flatten) := by
  induction ts generalizing st with
  | nil => simp
  | cons t ts ih =>
    rw [writes_cons, List.flatten_cons, ← List.append_assoc]
    have hstep : (k.write st t).received.Sublist (st.received ++ t) :=
      (List.take_sublist _ t).append_left st.received
    exact (ih _).trans (hstep.append_right _)

/-- A request that is cut is cut for good: the rest of the run does not make up for it. -/
theorem received_writes_iff (st : Transfer α) (ts : List (List α)) :
    (k.writes st ts).received = st.received ++ ts.flatten ↔ k.Whole st.requests ts := by
  induction ts generalizing st with
  | nil => simp [whole_nil]
  | cons t ts ih =>
    rw [writes_cons, whole_cons, List.flatten_cons, ← List.append_assoc]
    by_cases hall : k.accept st.requests t = t.length
    · have htake : (k.write st t).received = st.received ++ t := by
        rw [write, hall, List.take_length]
      rw [← htake, ih, and_iff_right hall]
      rfl
    · have hlt : k.accept st.requests t < t.length :=
        Nat.lt_of_le_of_ne (k.le_length st.requests t) hall
      refine iff_of_false (fun h => ?_) fun h => hall h.1
      -- The lengths tell: this request is short by some, and the later ones add no more
      -- than they ask for.
      have hle := (received_writes_sublist (k := k) (k.write st t) ts).length_le
      rw [h] at hle
      simp only [write, List.length_append, List.length_take] at hle
      omega

end Acceptor

end Bbench.Lib
