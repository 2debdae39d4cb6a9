import Mathlib.Algebra.GroupWithZero.Nat
import Mathlib.Data.List.Basic

/-! Lists cut at a separator. A list of pieces joined with a separator comes back
from the cut when no piece has the separator in it; one that has gives more pieces
than were joined. -/

namespace Bbench.Lib

variable {α β γ : Type*}

theorem length_splitOn [DecidableEq α] (a : α) (l : List α) :
    (l.splitOn a).length = l.count a + 1 := by
  induction l with
  | nil => rfl
  | cons x l ih =>
    rw [List.splitOn_cons_eq_if_modifyHead, List.count_cons]
    split
    · simp [ih]
    · simp [ih]

/-- The separators of a joined list are its own and those of its pieces. -/
theorem count_intercalate [DecidableEq α] (a : α) :
    ∀ ls : List (List α), ls ≠ [] →
      ([a].intercalate ls).count a = (ls.length - 1) + (ls.map (List.count a)).sum
  | [], h => absurd rfl h
  | [l], _ => by simp
  | l :: l' :: ls, _ => by
    have ih := count_intercalate a (l' :: ls) (List.cons_ne_nil _ _)
    rw [List.intercalate_cons_cons, List.count_append, List.count_append, ih]
    simp only [List.count_singleton_self, List.length_cons, List.map_cons, List.sum_cons]
    omega

/-- Terminated lines come back from the cut, with an empty piece after the last. -/
theorem splitOn_terminated [DecidableEq α] (a : α) {ls : List (List α)} (h : ∀ l ∈ ls, a ∉ l) :
    (ls.flatMap (· ++ [a])).splitOn a = ls ++ [[]] := by
  induction ls with
  | nil => rfl
  | cons l ls ih =>
    rw [List.flatMap_cons, List.append_assoc, List.singleton_append,
      List.splitOn_append_cons_self_of_not_mem (h l List.mem_cons_self),
      ih fun l' hl' => h l' (List.mem_cons_of_mem l hl'), List.cons_append]

/-- As many pieces as lines means that no line has the terminator inside. -/
theorem notMem_of_length_splitOn_terminated [DecidableEq α] (a : α) {ls : List (List α)}
    (h : ((ls.flatMap (· ++ [a])).splitOn a).length = ls.length + 1) : ∀ l ∈ ls, a ∉ l := by
  have hcount : ∀ ls : List (List α),
      (ls.flatMap (· ++ [a])).count a = (ls.map (List.count a)).sum + ls.length := by
    intro ls
    induction ls with
    | nil => rfl
    | cons l ls ih =>
      simp only [List.flatMap_cons, List.count_append, ih, List.count_singleton_self,
        List.map_cons, List.sum_cons, List.length_cons]
      omega
  rw [length_splitOn, hcount] at h
  have hsum : (ls.map (List.count a)).sum = 0 := by omega
  intro l hl
  exact List.count_eq_zero.mp (List.sum_eq_zero_iff_forall_eq_nat.mp hsum _
    (List.mem_map_of_mem hl))

/-- The same for a joined list: its separators are those between the pieces. -/
theorem notMem_of_length_splitOn_intercalate [DecidableEq α] (a : α) {ls : List (List α)}
    (hls : ls ≠ []) (h : (([a].intercalate ls).splitOn a).length = ls.length) :
    ∀ l ∈ ls, a ∉ l := by
  have hpos : 0 < ls.length := List.length_pos_iff.mpr hls
  rw [length_splitOn, count_intercalate a ls hls] at h
  have hsum : (ls.map (List.count a)).sum = 0 := by omega
  intro l hl
  exact List.count_eq_zero.mp (List.sum_eq_zero_iff_forall_eq_nat.mp hsum _
    (List.mem_map_of_mem hl))

/-- What a piece has, the joined list has. -/
theorem mem_intercalate (s : List α) {x : α} {l : List α} (hx : x ∈ l) :
    ∀ {ls : List (List α)}, l ∈ ls → x ∈ s.intercalate ls
  | [], hl => absurd hl List.not_mem_nil
  | [l'], hl => by
    obtain rfl := List.mem_singleton.mp hl
    simpa using hx
  | l' :: l'' :: ls, hl => by
    rw [List.intercalate_cons_cons]
    rcases List.mem_cons.mp hl with rfl | hl
    · exact List.mem_append_left _ (List.mem_append_left _ hx)
    · exact List.mem_append_right _ (mem_intercalate s hx hl)

/-- Two pieces have a separator between them. -/
theorem sep_mem_intercalate {s : List α} {x : α} (hx : x ∈ s) (l l' : List α)
    (ls : List (List α)) : x ∈ s.intercalate (l :: l' :: ls) := by
  rw [List.intercalate_cons_cons]
  exact List.mem_append_left _ (List.mem_append_right _ hx)

/-- And nothing else stands in it. -/
theorem notMem_intercalate {s : List α} {x : α} (hs : x ∉ s) :
    ∀ {ls : List (List α)}, (∀ l ∈ ls, x ∉ l) → x ∉ s.intercalate ls
  | [], _ => List.not_mem_nil
  | [l], h => by simpa using h l List.mem_cons_self
  | l :: l' :: ls, h => by
    have ih := notMem_intercalate hs fun m hm => h m (List.mem_cons_of_mem l hm)
    rw [List.intercalate_cons_cons, List.mem_append, List.mem_append]
    rintro ((hl | hs') | hrest)
    · exact h l List.mem_cons_self hl
    · exact hs hs'
    · exact ih hrest

/-- A table of cells, each row joined with `sep` and terminated with `nl`, comes back from
the two cuts. -/
theorem splitOn_table [DecidableEq α] {sep nl : α} (hne : sep ≠ nl) {rows : List (List (List α))}
    (hrow : ∀ row ∈ rows, row ≠ []) (hcell : ∀ row ∈ rows, ∀ c ∈ row, sep ∉ c ∧ nl ∉ c) :
    ((rows.flatMap fun row => [sep].intercalate row ++ [nl]).splitOn nl).dropLast.map
      (List.splitOn sep) = rows := by
  have hlines : ∀ line ∈ rows.map ([sep].intercalate ·), nl ∉ line := by
    refine List.forall_mem_map.mpr fun row hr =>
      notMem_intercalate ?_ fun c hc => (hcell row hr c hc).2
    exact fun h => hne (List.mem_singleton.mp h).symm
  have hcut : ∀ row ∈ rows, ([sep].intercalate row).splitOn sep = row := fun row hr =>
    List.splitOn_intercalate sep (fun c hc => (hcell row hr c hc).1) (hrow row hr)
  have hsplit := splitOn_terminated nl hlines
  rw [List.flatMap_map] at hsplit
  rw [hsplit, List.dropLast_concat, List.map_map]
  exact (List.map_congr_left hcut).trans (List.map_id _)

/-- What a list of calls prints, one of them between any two others. -/
theorem flatMap_intersperse (f : α → List β) (s : α) :
    ∀ l : List α, (l.intersperse s).flatMap f = (f s).intercalate (l.map f)
  | [] => rfl
  | [a] => by simp
  | a :: b :: l => by
    have ih := flatMap_intersperse f s (b :: l)
    simp only [List.intersperse_cons_cons, List.flatMap_cons, List.map_cons] at ih ⊢
    rw [List.intercalate_cons_cons, ih, List.append_assoc]

/-- Pieces of the same lengths put together: the wholes agree when the pieces do. -/
theorem flatMap_eq_flatMap_iff {f g : α → List β} (hlen : ∀ a, (f a).length = (g a).length)
    (l : List α) : l.flatMap f = l.flatMap g ↔ ∀ a ∈ l, f a = g a := by
  induction l with
  | nil => simp
  | cons a l ih =>
    rw [List.flatMap_cons, List.flatMap_cons, List.forall_mem_cons, ← ih]
    exact ⟨fun h => List.append_inj h (hlen a), fun h => by rw [h.1, h.2]⟩

/-- Pieces of a list that may be left out leave a sublist. -/
theorem ite_nil_sublist (p : Prop) [Decidable p] (l : List α) :
    (if p then l else []).Sublist l := by
  split
  · exact .refl l
  · exact List.nil_sublist l

/-- Two columns side by side: under a key that occurs once stands its own value. -/
theorem lookup_map_pair [BEq β] [LawfulBEq β] (key : α → β) (val : α → γ) {l : List α}
    (hkey : (l.map key).Nodup) {a : α} (ha : a ∈ l) :
    (l.map fun x => (key x, val x)).lookup (key a) = some (val a) := by
  induction l with
  | nil => exact absurd ha List.not_mem_nil
  | cons x l ih =>
    obtain ⟨hx, hl⟩ := List.nodup_cons.mp hkey
    rw [List.map_cons, List.lookup_cons]
    rcases List.mem_cons.mp ha with rfl | ha'
    · rw [beq_self_eq_true]
    · have hne : key a ≠ key x := fun h => hx (h ▸ List.mem_map_of_mem ha')
      rw [beq_eq_false_iff_ne.mpr hne]
      exact ih hl ha'

end Bbench.Lib
