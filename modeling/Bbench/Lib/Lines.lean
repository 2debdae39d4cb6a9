import Bbench.Lib.Separated

/-! Text made of lines, and of blocks of lines with an empty line between two of them.
When no line is empty or has a line end inside, both cuts give back what was joined. A
line that starts with a label is found again under it. -/

namespace Bbench.Lib

variable {α : Type*}

/-- Every line with its end. -/
def joinLines (nl : α) (ls : List (List α)) : List α := ls.flatMap (· ++ [nl])

/-- Blocks with an empty line between them. -/
def joinBlocks (nl : α) (bs : List (List (List α))) : List α := joinLines nl ([[]].intercalate bs)

theorem joinLines_cons (nl : α) (l : List α) (ls : List (List α)) :
    joinLines nl (l :: ls) = l ++ nl :: joinLines nl ls := by
  rw [joinLines, List.flatMap_cons, List.append_assoc]
  rfl

theorem joinLines_append (nl : α) (ls ls' : List (List α)) :
    joinLines nl (ls ++ ls') = joinLines nl ls ++ joinLines nl ls' := List.flatMap_append

theorem joinBlocks_singleton (nl : α) (b : List (List α)) :
    joinBlocks nl [b] = joinLines nl b := by
  rw [joinBlocks, List.intercalate_singleton]

/-- One block more stands before the others, and the empty line after it. -/
theorem joinBlocks_cons (nl : α) (b b' : List (List α)) (bs : List (List (List α))) :
    joinBlocks nl (b :: b' :: bs) = joinLines nl b ++ nl :: joinBlocks nl (b' :: bs) := by
  rw [joinBlocks, List.intercalate_cons_cons, joinLines_append, joinLines_append, List.append_assoc]
  rfl

/-- A line that is not empty and stays on its line. -/
def IsLine (nl : α) (l : List α) : Prop := l ≠ [] ∧ nl ∉ l

/-- A text that consists of these lines. -/
structure Lined (nl : α) (t : List α) (ls : List (List α)) : Prop where
  text : t = joinLines nl ls
  line : ∀ l ∈ ls, IsLine nl l

namespace Lined
variable {nl : α} {t t' : List α} {ls ls' : List (List α)}

theorem nil : Lined nl [] [] := ⟨rfl, fun _ h => absurd h List.not_mem_nil⟩

theorem single {l : List α} (h : IsLine nl l) : Lined nl (l ++ [nl]) [l] :=
  ⟨(joinLines_cons nl l []).symm, fun _ h' => List.mem_singleton.mp h' ▸ h⟩

theorem append (h : Lined nl t ls) (h' : Lined nl t' ls') : Lined nl (t ++ t') (ls ++ ls') where
  text := by rw [joinLines_append, ← h.text, ← h'.text]
  line l hl := (List.mem_append.mp hl).elim (h.line l) (h'.line l)

theorem flatMap {β : Type*} {f : β → List α} {g : β → List (List α)} (l : List β)
    (h : ∀ b ∈ l, Lined nl (f b) (g b)) : Lined nl (l.flatMap f) (l.flatMap g) := by
  induction l with
  | nil => exact nil
  | cons b l ih =>
    rw [List.flatMap_cons, List.flatMap_cons]
    exact (h b List.mem_cons_self).append (ih fun b' hb' => h b' (List.mem_cons_of_mem b hb'))

/-- A part that may be left out. -/
theorem ite (p : Prop) [Decidable p] (h : p → Lined nl t ls) :
    Lined nl (if p then t else []) (if p then ls else []) := by
  split
  · rename_i hp
    exact h hp
  · exact nil

end Lined

/-! ### Cutting -/

section Cut
variable [DecidableEq α] {nl : α}

/-- The lines of a text, each of which is terminated. -/
def cutLines (nl : α) (t : List α) : List (List α) := (t.splitOn nl).dropLast

def cutBlocks (nl : α) (t : List α) : List (List (List α)) := (cutLines nl t).splitOn []

theorem cutLines_joinLines {ls : List (List α)} (h : ∀ l ∈ ls, nl ∉ l) :
    cutLines nl (joinLines nl ls) = ls := by
  rw [cutLines, joinLines, splitOn_terminated nl h, List.dropLast_concat]

theorem Lined.cutLines {t : List α} {ls : List (List α)} (h : Lined nl t ls) :
    Lib.cutLines nl t = ls := by
  rw [h.text]
  exact cutLines_joinLines fun l hl => (h.line l hl).2

/-- The two cuts undo the two joins. -/
theorem cutBlocks_joinBlocks {bs : List (List (List α))} (hne : bs ≠ [])
    (h : ∀ b ∈ bs, ∀ l ∈ b, IsLine nl l) : cutBlocks nl (joinBlocks nl bs) = bs := by
  have hlines : ∀ l ∈ [([] : List α)].intercalate bs, nl ∉ l := by
    intro l hl
    induction bs with
    | nil => exact absurd rfl hne
    | cons b bs ih =>
      cases bs with
      | nil =>
        rw [List.intercalate_singleton] at hl
        exact (h b List.mem_cons_self l hl).2
      | cons b' bs =>
        rw [List.intercalate_cons_cons, List.mem_append, List.mem_append] at hl
        rcases hl with (hl | hl) | hl
        · exact (h b List.mem_cons_self l hl).2
        · rw [List.mem_singleton.mp hl]
          exact List.not_mem_nil
        · exact ih (List.cons_ne_nil _ _) (fun c hc => h c (List.mem_cons_of_mem b hc)) hl
  rw [cutBlocks, joinBlocks, cutLines_joinLines hlines]
  exact List.splitOn_intercalate [] (fun b hb hnil => (h b hb [] hnil).1 rfl) hne

/-! ### Groups -/

/-- The rows in front of the first head, and every head with the rows after it. -/
def cutGroups {β : Type*} (isRow : β → Bool) : List β → List β × List (β × List β)
  | [] => ([], [])
  | l :: ls =>
    let g := cutGroups isRow ls
    if isRow l then (l :: g.1, g.2) else ([], (l, g.1) :: g.2)

/-- Rows go to the head before them. -/
theorem cutGroups_append {β : Type*} {isRow : β → Bool} {rows : List β}
    (h : ∀ l ∈ rows, isRow l = true) (ls : List β) :
    cutGroups isRow (rows ++ ls) = (rows ++ (cutGroups isRow ls).1, (cutGroups isRow ls).2) := by
  induction rows with
  | nil => rfl
  | cons l rows ih =>
    have hrest := ih fun l' hl' => h l' (List.mem_cons_of_mem l hl')
    simp only [List.cons_append, cutGroups, hrest, h l List.mem_cons_self, if_true]

theorem cutGroups_flatMap {β : Type*} {isRow : β → Bool} {gs : List (β × List β)}
    (h : ∀ g ∈ gs, isRow g.1 = false ∧ ∀ l ∈ g.2, isRow l = true) :
    cutGroups isRow (gs.flatMap fun g => g.1 :: g.2) = ([], gs) := by
  induction gs with
  | nil => rfl
  | cons g gs ih =>
    obtain ⟨hhead, hrows⟩ := h g List.mem_cons_self
    have hrest := ih fun g' hg' => h g' (List.mem_cons_of_mem g hg')
    simp only [List.flatMap_cons, List.cons_append, cutGroups, cutGroups_append hrows, hrest,
      List.append_nil, hhead, Bool.false_eq_true, if_false]

/-! ### Labels -/

/-- What stands after a label on the first line that starts with it. -/
def under (label : List α) (ls : List (List α)) : Option (List α) :=
  ls.findSome? label.isPrefixOf?

/-- Neither label is the beginning of the other. -/
def Apart (a b : List α) : Prop := ¬ a <+: b ∧ ¬ b <+: a

instance (a b : List α) : Decidable (Apart a b) := inferInstanceAs (Decidable (_ ∧ _))

theorem isPrefixOf?_append (a v : List α) : a.isPrefixOf? (a ++ v) = some v :=
  List.isPrefixOf?_eq_some_iff_append_eq.mpr rfl

/-- A line under another label is not found. -/
theorem Apart.isPrefixOf? {a b : List α} (h : Apart a b) (v : List α) :
    a.isPrefixOf? (b ++ v) = none := by
  rw [Option.eq_none_iff_forall_ne_some]
  intro w hw
  have ha : a <+: b ++ v := ⟨w, List.isPrefixOf?_eq_some_iff_append_eq.mp hw⟩
  rcases List.prefix_or_prefix_of_prefix ha (List.prefix_append b v) with hab | hba
  · exact h.1 hab
  · exact h.2 hba

/-- Lines under labels that are pairwise apart: under each label stands its own text. -/
theorem under_labelled {ι : Type*} {key val : ι → List α} {l : List ι}
    (hkey : l.Pairwise fun i j => Apart (key i) (key j)) {i : ι} (hi : i ∈ l)
    (rest : List (List α)) :
    under (key i) ((l.map fun j => key j ++ val j) ++ rest) = some (val i) := by
  induction l with
  | nil => exact absurd hi List.not_mem_nil
  | cons j l ih =>
    obtain ⟨hj, hl⟩ := List.pairwise_cons.mp hkey
    rw [under, List.map_cons, List.cons_append, List.findSome?_cons]
    rcases List.mem_cons.mp hi with rfl | hi'
    · rw [isPrefixOf?_append]
    · have hapart : Apart (key i) (key j) := (hj i hi').symm
      rw [hapart.isPrefixOf?]
      exact ih hl hi'

end Cut

end Bbench.Lib
