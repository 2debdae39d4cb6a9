import Mathlib.Logic.Equiv.Basic
import Mathlib.Data.Nat.Notation

/-! Handles given out by a table. A number is given out while it is free and is
free again once it is closed, so each time it is given out it gets a serial that
owners never look at. Owners keep handles in slots. What every use of the table
preserves is that no slot holds a closed handle; that every open handle is in a slot
is lost exactly when a slot that holds one is overwritten. -/

namespace Bbench.Lib

structure Handle where
  num : ℕ
  serial : ℕ
  deriving DecidableEq

structure HandleTable where
  /-- The serial of the open handle with this number. -/
  current : ℕ → Option ℕ
  next : ℕ
  /-- How often the handle with this serial was closed. -/
  closed : ℕ → ℕ
  /-- A handle was closed or used that was not open. -/
  stray : Bool

namespace HandleTable

def empty : HandleTable := ⟨fun _ => none, 0, fun _ => 0, false⟩

/-- The number is given out. -/
def issue (t : HandleTable) (n : ℕ) : HandleTable :=
  { t with current := Function.update t.current n (some t.next), next := t.next + 1 }

def use (t : HandleTable) (h : Handle) : HandleTable :=
  { t with stray := t.stray || t.current h.num ≠ some h.serial }

/-- The number is free again, whichever handle was open under it. -/
def close (t : HandleTable) (h : Handle) : HandleTable :=
  { t with
    current := Function.update t.current h.num none
    closed := match t.current h.num with
      | some k => Function.update t.closed k (t.closed k + 1)
      | none => t.closed
    stray := t.stray || t.current h.num ≠ some h.serial }

/-- A slot is closed when it holds a handle. -/
def closeSlot (t : HandleTable) : Option Handle → HandleTable
  | some h => t.close h
  | none => t

theorem current_issue {t : HandleTable} {n m k : ℕ} (hn : t.current n = none) :
    (t.issue n).current m = some k ↔ m = n ∧ k = t.next ∨ t.current m = some k := by
  by_cases hm : m = n
  · simp [issue, hm, hn, eq_comm]
  · simp [issue, hm]

theorem current_close {t : HandleTable} {h : Handle} {m k : ℕ} :
    (t.close h).current m = some k ↔ m ≠ h.num ∧ t.current m = some k := by
  by_cases hm : m = h.num
  · simp [close, hm]
  · simp [close, hm]

/-- Closing an open handle counts for it alone. -/
theorem closed_close {t : HandleTable} {h : Handle} (ho : t.current h.num = some h.serial) :
    (t.close h).closed = Function.update t.closed h.serial (t.closed h.serial + 1) ∧
      (t.close h).stray = t.stray := by
  simp [close, ho]

end HandleTable

variable {ι : Type*}

/-- No slot holds a closed handle, no two the same one, and each handle was closed once
if it is not open. -/
structure Sound (t : HandleTable) (hold : ι → Option Handle) : Prop where
  held_open : ∀ i h, hold i = some h → t.current h.num = some h.serial
  held_once : ∀ i j h h', hold i = some h → hold j = some h' → h.num = h'.num → i = j
  open_lt : ∀ n k, t.current n = some k → k < t.next
  open_once : ∀ n m k, t.current n = some k → t.current m = some k → n = m
  closed_open : ∀ n k, t.current n = some k → t.closed k = 0
  closed_gone : ∀ k < t.next, (∀ n, t.current n ≠ some k) → t.closed k = 1
  closed_new : ∀ k, t.next ≤ k → t.closed k = 0
  stray : t.stray = false

/-- Every open handle is in exactly one slot. -/
def Owned (t : HandleTable) (hold : ι → Option Handle) : Prop :=
  ∀ n k, t.current n = some k → ∃! i, hold i = some ⟨n, k⟩

namespace Sound
variable {t : HandleTable} {hold : ι → Option Handle}

theorem empty : Sound HandleTable.empty (fun _ : ι => none) where
  held_open _ _ h := absurd h (by simp)
  held_once _ _ _ _ h := absurd h (by simp)
  open_lt _ _ h := absurd h (by simp [HandleTable.empty])
  open_once _ _ _ h := absurd h (by simp [HandleTable.empty])
  closed_open _ _ h := absurd h (by simp [HandleTable.empty])
  closed_gone _ h := absurd h (Nat.not_lt_zero _)
  closed_new _ _ := rfl
  stray := rfl

/-- Two slots that hold a handle of one number are one slot. -/
theorem owned_iff (hs : Sound t hold) :
    Owned t hold ↔ ∀ n k, t.current n = some k → ∃ i, hold i = some ⟨n, k⟩ := by
  refine forall₃_congr fun n k _ => ⟨ExistsUnique.exists, fun ⟨i, hi⟩ => ⟨i, hi, ?_⟩⟩
  exact fun j hj => hs.held_once j i _ _ hj hi rfl

/-- A handle that is held can be used. -/
theorem use (hs : Sound t hold) {i : ι} {h : Handle} (hi : hold i = some h) : t.use h = t := by
  have hopen := hs.held_open i h hi
  simp [HandleTable.use, hopen]

/-- The slots under other names. -/
theorem comp_equiv (hs : Sound t hold) (e : ι ≃ ι) : Sound t (hold ∘ e) :=
  { hs with
    held_open := fun i h hi => hs.held_open (e i) h hi
    held_once := fun _ _ h h' hi hj hn => e.injective (hs.held_once _ _ h h' hi hj hn) }

theorem owned_comp_equiv_iff (hs : Sound t hold) (e : ι ≃ ι) :
    Owned t (hold ∘ e) ↔ Owned t hold := by
  rw [(hs.comp_equiv e).owned_iff, hs.owned_iff]
  refine forall₃_congr fun n k _ => ⟨fun ⟨i, hi⟩ => ⟨e i, hi⟩, fun ⟨i, hi⟩ => ⟨e.symm i, ?_⟩⟩
  rwa [Function.comp_apply, e.apply_symm_apply]

/-- With nothing lost and every slot empty, each handle was closed exactly once. -/
theorem closed_eq_one (hs : Sound t hold) (ho : Owned t hold) (hempty : ∀ i, hold i = none)
    {k : ℕ} (hk : k < t.next) : t.closed k = 1 := by
  refine hs.closed_gone k hk fun n hn => ?_
  obtain ⟨i, hi, -⟩ := ho n k hn
  rw [hempty i] at hi
  cases hi

variable [DecidableEq ι] {i : ι}

theorem of_update_none {j : ι} {h : Handle} (hj : Function.update hold i none j = some h) :
    j ≠ i ∧ hold j = some h := by
  by_cases hij : j = i
  · simp [hij] at hj
  · exact ⟨hij, by rwa [Function.update_of_ne hij] at hj⟩

/-! ### A slot is overwritten -/

theorem forget (hs : Sound t hold) (i : ι) : Sound t (Function.update hold i none) :=
  { hs with
    held_open := fun j h hj => hs.held_open j h (of_update_none hj).2
    held_once := fun j j' h h' hj hj' =>
      hs.held_once j j' h h' (of_update_none hj).2 (of_update_none hj').2 }

/-- The handle that was in the slot is in none any more. -/
theorem owned_forget_iff (hs : Sound t hold) (i : ι) :
    Owned t (Function.update hold i none) ↔ Owned t hold ∧ hold i = none := by
  rw [(hs.forget i).owned_iff, hs.owned_iff]
  constructor
  · intro h
    refine ⟨fun n k hn => (h n k hn).imp fun j hj => (of_update_none hj).2, ?_⟩
    by_contra hne
    obtain ⟨fd, hfd⟩ := Option.ne_none_iff_exists'.mp hne
    obtain ⟨j, hj⟩ := h fd.num fd.serial (hs.held_open i fd hfd)
    obtain ⟨hij, hj⟩ := of_update_none hj
    exact hij (hs.held_once j i _ _ hj hfd rfl)
  · rintro ⟨h, hnone⟩ n k hn
    obtain ⟨j, hj⟩ := h n k hn
    have hij : j ≠ i := fun hij => absurd (hij ▸ hj) (by simp [hnone])
    exact ⟨j, by rwa [Function.update_of_ne hij]⟩

/-! ### A handle is given out -/

open HandleTable

theorem of_update_some {j : ι} {a h : Handle}
    (hj : Function.update hold i (some a) j = some h) :
    j = i ∧ h = a ∨ j ≠ i ∧ hold j = some h := by
  by_cases hij : j = i
  · simp only [hij, Function.update_self, Option.some.injEq] at hj
    exact .inl ⟨hij, hj.symm⟩
  · exact .inr ⟨hij, by rwa [Function.update_of_ne hij] at hj⟩

/-- A free number goes into a slot. -/
theorem issue (hs : Sound t hold) (i : ι) {n : ℕ} (hn : t.current n = none) :
    Sound (t.issue n) (Function.update hold i (some ⟨n, t.next⟩)) where
  held_open j h hj := by
    rw [current_issue hn]
    rcases of_update_some hj with ⟨-, rfl⟩ | ⟨-, hj⟩
    · exact .inl ⟨rfl, rfl⟩
    · exact .inr (hs.held_open j h hj)
  held_once j j' h h' hj hj' hnum := by
    have hfree : ∀ {j h}, hold j = some h → h.num ≠ n := fun hj heq => by
      have hopen := hs.held_open _ _ hj
      rw [heq, hn] at hopen
      cases hopen
    rcases of_update_some hj with ⟨hji, rfl⟩ | ⟨-, hold_j⟩ <;>
      rcases of_update_some hj' with ⟨hji', rfl⟩ | ⟨-, hold_j'⟩
    · rw [hji, hji']
    · exact absurd hnum.symm (hfree hold_j')
    · exact absurd hnum (hfree hold_j)
    · exact hs.held_once j j' h h' hold_j hold_j' hnum
  open_lt m k hm := by
    rcases (current_issue hn).mp hm with ⟨-, rfl⟩ | hm
    · exact Nat.lt_succ_self _
    · exact Nat.lt_succ_of_lt (hs.open_lt m k hm)
  open_once m m' k hm hm' := by
    rcases (current_issue hn).mp hm with ⟨hmn, hk⟩ | old <;>
      rcases (current_issue hn).mp hm' with ⟨hmn', hk'⟩ | old'
    · rw [hmn, hmn']
    · exact absurd (hs.open_lt _ _ old') (hk ▸ Nat.lt_irrefl _)
    · exact absurd (hs.open_lt _ _ old) (hk' ▸ Nat.lt_irrefl _)
    · exact hs.open_once m m' k old old'
  closed_open m k hm := by
    rcases (current_issue hn).mp hm with ⟨-, rfl⟩ | hm
    · exact hs.closed_new _ (Nat.le_refl _)
    · exact hs.closed_open m k hm
  closed_gone k hk hgone := by
    have hne : k ≠ t.next := fun heq => hgone n ((current_issue hn).mpr (.inl ⟨rfl, heq⟩))
    have hlt : k < t.next + 1 := hk
    exact hs.closed_gone k (by omega) fun m hm => hgone m ((current_issue hn).mpr (.inr hm))
  closed_new k hk := hs.closed_new k (Nat.le_of_succ_le hk)
  stray := hs.stray

/-- The new handle is in its slot; one that was there before would be lost. -/
theorem owned_issue_iff (hs : Sound t hold) (i : ι) {n : ℕ} (hn : t.current n = none) :
    Owned (t.issue n) (Function.update hold i (some ⟨n, t.next⟩)) ↔
      Owned t hold ∧ hold i = none := by
  rw [← hs.owned_forget_iff i, (hs.issue i hn).owned_iff, (hs.forget i).owned_iff]
  constructor
  · intro h m k hm
    obtain ⟨j, hj⟩ := h m k ((current_issue hn).mpr (.inr hm))
    rcases of_update_some hj with ⟨-, heq⟩ | ⟨hij, hj⟩
    · rw [(Handle.mk.inj heq).1, hn] at hm
      cases hm
    · exact ⟨j, by rwa [Function.update_of_ne hij]⟩
  · intro h m k hm
    rcases (current_issue hn).mp hm with ⟨rfl, rfl⟩ | hm
    · exact ⟨i, Function.update_self _ _ _⟩
    · obtain ⟨j, hj⟩ := h m k hm
      obtain ⟨hij, hj⟩ := of_update_none hj
      exact ⟨j, by rwa [Function.update_of_ne hij]⟩

/-! ### A handle is closed -/

theorem close (hs : Sound t hold) {h : Handle} (hi : hold i = some h) :
    Sound (t.close h) (Function.update hold i none) where
  held_open j h' hj := by
    obtain ⟨hij, hj⟩ := of_update_none hj
    exact current_close.mpr ⟨fun heq => hij (hs.held_once j i h' h hj hi heq),
      hs.held_open j h' hj⟩
  held_once j j' h₁ h₂ hj hj' :=
    hs.held_once j j' h₁ h₂ (of_update_none hj).2 (of_update_none hj').2
  open_lt m k hm := hs.open_lt m k (current_close.mp hm).2
  open_once m m' k hm hm' := hs.open_once m m' k (current_close.mp hm).2 (current_close.mp hm').2
  closed_open m k hm := by
    obtain ⟨hne, hm⟩ := current_close.mp hm
    have hk : k ≠ h.serial := fun heq =>
      hne (hs.open_once m h.num k hm (heq ▸ hs.held_open i h hi))
    rw [(closed_close (hs.held_open i h hi)).1, Function.update_of_ne hk]
    exact hs.closed_open m k hm
  closed_gone k hk hgone := by
    rw [(closed_close (hs.held_open i h hi)).1]
    by_cases heq : k = h.serial
    · rw [heq, Function.update_self, hs.closed_open h.num _ (hs.held_open i h hi)]
    · rw [Function.update_of_ne heq]
      refine hs.closed_gone k hk fun m hm => hgone m (current_close.mpr ⟨?_, hm⟩)
      rintro rfl
      rw [hs.held_open i h hi] at hm
      exact heq (Option.some.inj hm).symm
  closed_new k hk := by
    have hlt := hs.open_lt _ _ (hs.held_open i h hi)
    have hne : k ≠ h.serial := fun heq => absurd hlt (Nat.not_lt.mpr (heq ▸ hk))
    rw [(closed_close (hs.held_open i h hi)).1, Function.update_of_ne hne]
    exact hs.closed_new k hk
  stray := (closed_close (hs.held_open i h hi)).2.trans hs.stray

theorem owned_close_iff (hs : Sound t hold) {h : Handle} (hi : hold i = some h) :
    Owned (t.close h) (Function.update hold i none) ↔ Owned t hold := by
  rw [(hs.close hi).owned_iff, hs.owned_iff]
  constructor
  · intro ho m k hm
    by_cases hnum : m = h.num
    · rw [hnum, hs.held_open i h hi] at hm
      exact ⟨i, by rw [hi, hnum, ← Option.some.inj hm]⟩
    · exact (ho m k (current_close.mpr ⟨hnum, hm⟩)).imp fun j hj => (of_update_none hj).2
  · intro ho m k hm
    obtain ⟨hnum, hm⟩ := current_close.mp hm
    obtain ⟨j, hj⟩ := ho m k hm
    have hij : j ≠ i := by
      rintro rfl
      rw [hi] at hj
      exact hnum (congrArg Handle.num (Option.some.inj hj)).symm
    exact ⟨j, by rwa [Function.update_of_ne hij]⟩

/-- A slot is emptied. -/
theorem closeSlot (hs : Sound t hold) (i : ι) :
    Sound (t.closeSlot (hold i)) (Function.update hold i none) := by
  cases hi : hold i with
  | none => exact hs.forget i
  | some h => exact hs.close hi

theorem owned_closeSlot_iff (hs : Sound t hold) (i : ι) :
    Owned (t.closeSlot (hold i)) (Function.update hold i none) ↔ Owned t hold := by
  cases hi : hold i with
  | none => rw [HandleTable.closeSlot, hs.owned_forget_iff, and_iff_left hi]
  | some h => exact hs.owned_close_iff hi

end Sound

end Bbench.Lib
