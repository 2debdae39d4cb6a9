import Mathlib.Data.List.Sort
import Mathlib.Order.Defs.LinearOrder

/-! Selection sort in place, for elements that are moved and not copied. What stays in
a cell after a move is some function of what was there; the three moves of a swap
overwrite both such cells. A cell is settled when nothing after it has a smaller key;
pass `i` settles cell `i` and keeps the cells before it settled. -/

namespace Bbench.Lib

variable {α β : Type*} {n : ℕ} [LinearOrder β]

/-- The index of a least key among cell `mn` and the cells from `j` on. -/
def minFrom (key : α → β) (v : Vector α n) (mn : Fin n) (j : ℕ) : Fin n :=
  if h : j < n then
    if key (v.get ⟨j, h⟩) < key (v.get mn) then minFrom key v ⟨j, h⟩ (j + 1)
    else minFrom key v mn (j + 1)
  else mn
termination_by n - j

/-- Exchange of two cells by three moves, with `husk` of an element left where it was. -/
def moveSwap (husk : α → α) (v : Vector α n) (i mn : Fin n) : Vector α n :=
  let tmp := v.get i
  let v := v.set i (husk tmp)
  let least := v.get mn
  let v := (v.set mn (husk least)).set i least
  v.set mn tmp

/-- The passes of the sort from cell `i` on. -/
def sortFrom (key : α → β) (husk : α → α) (v : Vector α n) (i : ℕ) : Vector α n :=
  if h : i + 1 < n then
    let first : Fin n := ⟨i, by omega⟩
    let mn := minFrom key v first (i + 1)
    sortFrom key husk (if mn ≠ first then moveSwap husk v first mn else v) (i + 1)
  else v
termination_by n - i

def selectionSort (key : α → β) (husk : α → α) (l : List α) : List α :=
  (sortFrom key husk ⟨l.toArray, List.size_toArray⟩ 0).toList

/-! ### The search -/

/-- The search moves only to later cells, and only to smaller keys. -/
theorem le_minFrom (key : α → β) (v : Vector α n) (mn : Fin n) (j : ℕ) (hj : mn.val < j) :
    mn ≤ minFrom key v mn j ∧ key (v.get (minFrom key v mn j)) ≤ key (v.get mn) := by
  induction mn, j using minFrom.induct key v with
  | case1 mn j h hlt ih =>
    rw [minFrom, dif_pos h, if_pos hlt]
    have hrest := ih (Nat.lt_succ_self j)
    constructor
    · exact le_trans (le_of_lt hj) hrest.1
    · exact le_trans hrest.2 (le_of_lt hlt)
  | case2 mn j h hlt ih =>
    rw [minFrom, dif_pos h, if_neg hlt]
    exact ih (Nat.lt_succ_of_lt hj)
  | case3 mn j h =>
    rw [minFrom, dif_neg h]
    exact ⟨le_refl _, le_refl _⟩

theorem minFrom_le (key : α → β) (v : Vector α n) (mn : Fin n) (j : ℕ) (hj : mn.val < j)
    (b : Fin n) (hb : j ≤ b) : key (v.get (minFrom key v mn j)) ≤ key (v.get b) := by
  induction mn, j using minFrom.induct key v with
  | case1 mn j h hlt ih =>
    rw [minFrom, dif_pos h, if_pos hlt]
    rcases Nat.eq_or_lt_of_le hb with rfl | hlater
    · exact (le_minFrom key v b (b + 1) (Nat.lt_succ_self _)).2
    · exact ih (Nat.lt_succ_self j) hlater
  | case2 mn j h hlt ih =>
    rw [minFrom, dif_pos h, if_neg hlt]
    rcases Nat.eq_or_lt_of_le hb with rfl | hlater
    · exact le_trans (le_minFrom key v mn (b + 1) (Nat.lt_succ_of_lt hj)).2 (not_lt.mp hlt)
    · exact ih (Nat.lt_succ_of_lt hj) hlater
  | case3 mn j h => omega

/-! ### The exchange -/

theorem get_swap (v : Vector α n) (i mn b : Fin n) :
    (v.swap i mn).get b = if b = i then v.get mn else if b = mn then v.get i else v.get b := by
  simp only [Fin.ext_iff]
  exact Vector.getElem_swap i.isLt mn.isLt b.isLt

/-- Three moves exchange the cells, whatever a move leaves behind. -/
theorem moveSwap_eq_swap (husk : α → α) (v : Vector α n) {i mn : Fin n} (h : mn ≠ i) :
    moveSwap husk v i mn = v.swap i mn := by
  apply Vector.ext
  intro b hb
  have hne : mn.val ≠ i.val := fun he => h (Fin.ext he)
  have hleast : (v.set i (husk (v.get i))).get mn = v.get mn :=
    Vector.getElem_set_ne i.isLt mn.isLt (Ne.symm hne)
  simp only [moveSwap, hleast, Vector.getElem_set, Vector.getElem_swap]
  by_cases hi : i.val = b
  · rw [if_neg (by omega), if_pos hi, if_pos hi.symm]
    rfl
  · by_cases hm : mn.val = b
    · rw [if_pos hm, if_neg (Ne.symm hi), if_pos hm.symm]
      rfl
    · simp only [if_neg hi, if_neg hm, if_neg (Ne.symm hi), if_neg (Ne.symm hm)]

theorem pass_perm (husk : α → α) (v : Vector α n) (i mn : Fin n) :
    (if mn ≠ i then moveSwap husk v i mn else v).Perm v := by
  split
  · rename_i h
    rw [moveSwap_eq_swap husk v h]
    exact Vector.swap_perm i.isLt mn.isLt
  · exact Vector.Perm.refl v

theorem sortFrom_perm (key : α → β) (husk : α → α) (v : Vector α n) (i : ℕ) :
    (sortFrom key husk v i).Perm v := by
  induction v, i using sortFrom.induct key husk with
  | case1 v i h first mn ih =>
    rw [sortFrom, dif_pos h]
    exact ih.trans (pass_perm husk v first mn)
  | case2 v i h =>
    rw [sortFrom, dif_neg h]

/-! ### Settled cells -/

/-- Nothing after one of the first `i` cells has a smaller key. -/
def Settled (key : α → β) (v : Vector α n) (i : ℕ) : Prop :=
  ∀ a b : Fin n, a.val < i → a < b → key (v.get a) ≤ key (v.get b)

/-- One exchange: cell `i` receives a least key of the cells from `i` on, and no cell
before it is touched. -/
theorem Settled.swap {key : α → β} {v : Vector α n} {i mn : Fin n} (h : Settled key v i)
    (hle : i ≤ mn) (hmin : ∀ b, i ≤ b → key (v.get mn) ≤ key (v.get b)) :
    Settled key (v.swap i mn) (i + 1) := by
  intro a b ha hab
  have hbefore : ∀ c : Fin n, c < i → (v.swap i mn).get c = v.get c := by
    intro c hc
    rw [get_swap, if_neg (ne_of_lt hc), if_neg (ne_of_lt (lt_of_lt_of_le hc hle))]
  -- a cell from `i` on holds after the exchange what such a cell held before it
  have hfrom : ∀ c : Fin n, i ≤ c → ∃ d : Fin n, i ≤ d ∧ (v.swap i mn).get c = v.get d := by
    intro c hc
    rw [get_swap]
    split
    · exact ⟨mn, hle, rfl⟩
    · split
      · exact ⟨i, le_refl i, rfl⟩
      · exact ⟨c, hc, rfl⟩
  rcases lt_or_ge a i with hlt | hge
  · rw [hbefore a hlt]
    rcases lt_or_ge b i with hb | hb
    · rw [hbefore b hb]
      exact h a b hlt hab
    · obtain ⟨d, hd, heq⟩ := hfrom b hb
      rw [heq]
      exact h a d hlt (lt_of_lt_of_le hlt hd)
  · have hai : a = i := le_antisymm (Nat.le_of_lt_succ ha) hge
    obtain ⟨d, hd, heq⟩ := hfrom b (le_of_lt (lt_of_le_of_lt hge hab))
    rw [heq, hai, get_swap, if_pos rfl]
    exact hmin d hd

theorem Settled.pass {key : α → β} (husk : α → α) {v : Vector α n} {i : ℕ} (h : i + 1 < n)
    (hset : Settled key v i) :
    let first : Fin n := ⟨i, by omega⟩
    let mn := minFrom key v first (i + 1)
    Settled key (if mn ≠ first then moveSwap husk v first mn else v) (i + 1) := by
  intro first mn
  have hsearch := le_minFrom key v first (i + 1) (Nat.lt_succ_self i)
  have hmin : ∀ b, first ≤ b → key (v.get mn) ≤ key (v.get b) := by
    intro b hb
    rcases eq_or_lt_of_le hb with rfl | hlt
    · exact hsearch.2
    · exact minFrom_le key v first (i + 1) (Nat.lt_succ_self i) b hlt
  split
  · rename_i hne
    rw [moveSwap_eq_swap husk v hne]
    exact hset.swap hsearch.1 hmin
  · rename_i heq
    rw [not_not.mp heq] at hmin
    -- the first cell is already the least: cell `i` is settled as it stands
    intro a b ha hab
    rcases Nat.lt_succ_iff_lt_or_eq.mp ha with hlt | hai
    · exact hset a b hlt hab
    · obtain rfl : a = first := Fin.ext hai
      exact hmin b (le_of_lt hab)

/-- After the last pass every cell is settled. -/
theorem settled_sortFrom (key : α → β) (husk : α → α) (v : Vector α n) (i : ℕ)
    (h : Settled key v i) : Settled key (sortFrom key husk v i) n := by
  induction v, i using sortFrom.induct key husk with
  | case1 v i hi first mn ih =>
    rw [sortFrom, dif_pos hi]
    exact ih (h.pass husk hi)
  | case2 v i hi =>
    rw [sortFrom, dif_neg hi]
    intro a b _ hab
    exact h a b (by omega) hab

theorem selectionSort_perm (key : α → β) (husk : α → α) (l : List α) :
    (selectionSort key husk l).Perm l := by
  have h := sortFrom_perm key husk ⟨l.toArray, List.size_toArray⟩ 0
  simpa [selectionSort] using h.toList

theorem selectionSort_pairwise (key : α → β) (husk : α → α) (l : List α) :
    (selectionSort key husk l).Pairwise fun x y => key x ≤ key y := by
  have h := settled_sortFrom key husk ⟨l.toArray, List.size_toArray⟩ 0 (by intro a b ha; omega)
  rw [List.pairwise_iff_getElem]
  intro a b ha hb hab
  simp only [selectionSort, Vector.length_toList] at ha hb
  exact h ⟨a, ha⟩ ⟨b, hb⟩ ha hab

end Bbench.Lib
