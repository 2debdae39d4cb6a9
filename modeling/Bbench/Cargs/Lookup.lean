import Bbench.Cargs.Classes
import Mathlib.Data.List.OfFn
import Mathlib.Data.Nat.Find

/-! Looking up a name after `general_parse_np`. The scan goes over all slots and compares
keys alone: besides the names it meets the program's path in the first slot, and the empty
key of every slot without a name. -/

namespace Bbench.Cargs

open Lib (BoundedText)

variable {cfg : Config} {φ : Type*} {S : BoundedText cfg.maxBuffer Char}
  {argv : List (List Char)} {str : List Char} {i : ℕ}

/-! ### The scan -/

section Scan
variable {slots : Slots cfg}

theorem has_iff : slots.has str = true ↔ ∃ i < cfg.maxLength, (slots.get i).key = str := by
  rw [Slots.has, List.any_eq_true]
  constructor
  · rintro ⟨n, hn, heq⟩
    obtain ⟨i, rfl⟩ := List.mem_ofFn.mp hn
    refine ⟨i.val, i.isLt, ?_⟩
    rw [Slots.get_of_lt _ i.isLt]
    exact (of_decide_eq_true heq).symm
  · rintro ⟨i, hi, rfl⟩
    rw [Slots.get_of_lt _ hi]
    exact ⟨_, List.mem_ofFn.mpr ⟨⟨i, hi⟩, rfl⟩, decide_eq_true rfl⟩

/-- The scan stops at the first slot with the key. -/
theorem lookup_of_first (hi : i < cfg.maxLength) (hkey : (slots.get i).key = str)
    (hfirst : ∀ j < i, (slots.get j).key ≠ str) : slots.lookup str = (slots.get i).data := by
  have hfind : (List.ofFn slots).find? (fun n => str = n.key) = some (slots.get i) := by
    rw [List.find?_eq_some_iff_getElem]
    refine ⟨decide_eq_true hkey.symm, i, by simpa using hi, ?_, fun j hj => ?_⟩
    · rw [List.getElem_ofFn, Slots.get_of_lt _ hi]
    · have hne := hfirst j hj
      rw [Slots.get_of_lt _ (by omega)] at hne
      rw [List.getElem_ofFn, Bool.not_eq_true', decide_eq_false_iff_not]
      exact fun h => hne h.symm
  rw [Slots.lookup, hfind]

theorem lookup_of_not_has (h : ¬ slots.has str = true) : slots.lookup str = [] := by
  have hfind : (List.ofFn slots).find? (fun n => str = n.key) = none := by
    rw [List.find?_eq_none]
    exact fun n hn heq => h (List.any_eq_true.mpr ⟨n, hn, heq⟩)
  rw [Slots.lookup, hfind]

end Scan

/-! ### Names -/

/-- Argument `i` is a key or a param of the name `str`. -/
def NameAt (cfg : Config) (argv : List (List Char)) (str : List Char) (i : ℕ) : Prop :=
  (kindAt cfg argv i = .key ∨ kindAt cfg argv i = .param) ∧ trim cfg.flagChar (argAt argv i) = str

/-- It is the first one. -/
def FirstName (cfg : Config) (argv : List (List Char)) (str : List Char) (i : ℕ) : Prop :=
  NameAt cfg argv str i ∧ ∀ j < i, ¬ NameAt cfg argv str j

/-- A lookup sees the names on the command line, and only these. -/
def OnlyPassed (slots : Slots cfg) (argv : List (List Char)) (str : List Char) : Prop :=
  (slots.has str = true ↔ ∃ i, NameAt cfg argv str i) ∧
    (∀ i, FirstName cfg argv str i → slots.lookup str = (slots.get i).data) ∧
    ((¬ ∃ i, NameAt cfg argv str i) → slots.lookup str = [])

theorem NameAt.lt (h : NameAt cfg argv str i) : 0 < i ∧ i < argv.length := by
  refine lt_of_kindAt cfg argv ?_ ?_ <;> rcases h.1 with hk | hk <;> simp [hk]

/-- No name is empty. -/
theorem NameAt.ne_nil (h : NameAt cfg argv str i) : str ≠ [] := by
  have hlt := h.lt
  obtain ⟨hk, rfl⟩ := h
  rw [kindAt_argAt hlt.1 hlt.2] at hk
  exact trim_ne_nil hk

theorem FirstName.exists (h : ∃ i, NameAt cfg argv str i) : ∃ i, FirstName cfg argv str i := by
  classical
  exact ⟨Nat.find h, Nat.find_spec h, fun j hj => Nat.find_min h hj⟩

theorem FirstName.unique {j : ℕ} (hi : FirstName cfg argv str i) (hj : FirstName cfg argv str j) :
    i = j := by
  rcases lt_trichotomy i j with hlt | heq | hlt
  · exact absurd hi.1 (hj.2 i hlt)
  · exact heq
  · exact absurd hj.1 (hi.2 j hlt)

/-- The slots with a key that is not empty. -/
theorem npSlot_key (hshort : ∀ arg ∈ argv, arg.length ≤ cfg.maxBuffer) (hstr : str ≠ []) :
    (npSlot S argv i).key = str ↔ i = 0 ∧ argAt argv 0 = str ∨ NameAt cfg argv str i := by
  rw [NameAt]
  rcases Nat.eq_zero_or_pos i with rfl | hi
  · rw [npSlot_zero, kindAt_zero]
    cases argv with
    | nil => simp [argAt]
    | cons path rest =>
      rw [List.headD_cons, S.nil_append (hshort path List.mem_cons_self)]
      simp [argAt]
  · rw [npSlot]
    cases hk : kindAt cfg argv i with
    | key => dsimp only; split_ifs <;> simp [hi.ne']
    | plain => dsimp only; split_ifs <;> simp [hi.ne', hstr.symm]
    | program => exact absurd (kindAt_program.mp hk) hi.ne'
    | _ => simp [hi.ne', hstr.symm]

/-- The data of a name. -/
theorem npSlot_data (h : NameAt cfg argv str i) : (npSlot S argv i).data = [] ↔
    ¬ (kindAt cfg argv i = .key ∧ kindAt cfg argv (i + 1) = .plain ∧ argAt argv (i + 1) ≠ []) := by
  rw [npSlot]
  rcases h.1 with hk | hk <;> simp [hk]
  split_ifs with hplain <;> simp [hplain]

/-! ### Looking up -/

/-- With the slots of a parse: the first slot shadows the names that are the path's. -/
theorem onlyPassed_layout (h : Within cfg argv) (hstr : str ≠ []) :
    OnlyPassed (layout S argv) argv str ↔ argAt argv 0 ≠ str ∨ ∃ i, FirstName cfg argv str i ∧
      ¬ (kindAt cfg argv i = .key ∧ kindAt cfg argv (i + 1) = .plain ∧
        argAt argv (i + 1) ≠ []) := by
  have hle : argv.length ≤ cfg.maxLength := h.argc.le
  have hkey : ∀ i, ((layout S argv).get i).key = str ↔
      i = 0 ∧ argAt argv 0 = str ∨ NameAt cfg argv str i := by
    intro i
    rw [get_layout hle, npSlot_key h.short hstr]
  have hbound : ∀ i, NameAt cfg argv str i → i < cfg.maxLength :=
    fun i hi => hi.lt.2.trans_le hle
  by_cases hpath : argAt argv 0 = str
  · -- every lookup ends at the path, which has no data
    have hhas : (layout S argv).has str = true :=
      has_iff.mpr ⟨0, cfg.length_pos, (hkey 0).mpr (Or.inl ⟨rfl, hpath⟩)⟩
    have hlookup : (layout S argv).lookup str = [] := by
      rw [lookup_of_first cfg.length_pos ((hkey 0).mpr (Or.inl ⟨rfl, hpath⟩)) (by simp),
        get_layout hle, npSlot_zero]
    constructor
    · rintro ⟨hname, hfirst, -⟩
      obtain ⟨i, hi⟩ := FirstName.exists (hname.mp hhas)
      refine Or.inr ⟨i, hi, ?_⟩
      rw [← npSlot_data (S := S) hi.1, ← get_layout hle, ← hfirst i hi, hlookup]
    · rintro (hne | ⟨i, hi, hdata⟩)
      · exact absurd hpath hne
      refine ⟨iff_of_true hhas ⟨i, hi.1⟩, fun j hj => ?_, fun hnone => absurd ⟨i, hi.1⟩ hnone⟩
      obtain rfl := hi.unique hj
      rw [hlookup, get_layout hle, (npSlot_data hi.1).mpr hdata]
  · refine iff_of_true ⟨?_, fun i hi => ?_, fun hnone => ?_⟩ (Or.inl hpath)
    · rw [has_iff]
      constructor
      · rintro ⟨i, -, hi⟩
        exact ⟨i, ((hkey i).mp hi).resolve_left fun h => hpath h.2⟩
      · rintro ⟨i, hi⟩
        exact ⟨i, hbound i hi, (hkey i).mpr (Or.inr hi)⟩
    · refine lookup_of_first (hbound i hi.1) ((hkey i).mpr (Or.inr hi.1)) fun j hj heq => ?_
      exact hi.2 j hj (((hkey j).mp heq).resolve_left fun h => hpath h.2)
    · refine lookup_of_not_has fun hhas => ?_
      obtain ⟨i, -, hi⟩ := has_iff.mp hhas
      exact hnone ⟨i, ((hkey i).mp hi).resolve_left fun h => hpath h.2⟩

/-- With the slots of no parse: all keys are empty. -/
theorem onlyPassed_fresh (hone : argv.length = 1) :
    OnlyPassed (.fresh : Slots cfg) argv str ↔ str ≠ [] := by
  have hnone : ¬ ∃ i, NameAt cfg argv str i := by
    rintro ⟨i, hi⟩
    have hlt := hi.lt
    omega
  have hhas : (Slots.fresh : Slots cfg).has str = true ↔ str = [] := by
    rw [has_iff]
    constructor
    · rintro ⟨i, -, hkey⟩
      rw [fresh_get] at hkey
      exact hkey.symm
    · rintro rfl
      exact ⟨0, cfg.length_pos, by rw [fresh_get]⟩
  constructor
  · exact fun honly hstr => hnone (honly.1.mp (hhas.mpr hstr))
  · intro hstr
    refine ⟨iff_of_false (hhas.not.mpr hstr) hnone, fun i hi => ?_, fun _ => ?_⟩
    · exact absurd ⟨i, hi.1⟩ hnone
    · exact lookup_of_not_has (hhas.not.mpr hstr)

/-- The slot after the last argument has the empty key. -/
theorem has_nil_layout (h : Within cfg argv) : (layout S argv).has [] = true := by
  refine has_iff.mpr ⟨argv.length, h.argc, ?_⟩
  rw [get_layout h.argc.le]
  rcases Nat.eq_zero_or_pos argv.length with hzero | hpos
  · rw [hzero, npSlot_zero, List.eq_nil_of_length_eq_zero hzero]
    rfl
  · rw [npSlot_beyond hpos le_rfl]

/-- When a lookup sees only what was passed. Within the limits it does exactly when the name
is not empty and, unless the command line has the path alone, is not the path's, or is
first found at an argument without data. -/
theorem np_onlyPassed_iff (cfg : Config) (S : BoundedText cfg.maxBuffer Char)
    (argv : List (List Char)) (str : List Char) (h : Within cfg argv) :
    (∃ r : Run cfg φ, Parser.ofArgv S argv = some r ∧ OnlyPassed r.args argv str) ↔
      str ≠ [] ∧ (argv.length = 1 ∨ argAt argv 0 ≠ str ∨ ∃ i, FirstName cfg argv str i ∧
        ¬ (kindAt cfg argv i = .key ∧ kindAt cfg argv (i + 1) = .plain ∧
          argAt argv (i + 1) ≠ [])) := by
  by_cases hone : argv.length = 1
  · have hfresh : OnlyPassed (.fresh : Slots cfg) argv str ↔ str ≠ [] := onlyPassed_fresh hone
    rw [Parser.ofArgv, generalParseNp_idle S _ _ (Or.inr hone), and_iff_left (Or.inl hone),
      ← hfresh]
    simp
  · rw [exists_ofArgv_iff (fun r => OnlyPassed r.args argv str) h.argc.le hone,
      callbacksHandler_args, or_iff_right hone]
    rcases eq_or_ne str [] with rfl | hstr
    · refine iff_of_false (fun honly => ?_) (by simp)
      obtain ⟨i, hi⟩ := honly.1.mp (has_nil_layout h)
      exact hi.ne_nil rfl
    · rw [onlyPassed_layout h hstr, and_iff_right hstr]

/-- A key with its value. -/
theorem np_onlyPassed_pair : ∃ r : Run {} Unit,
    Parser.ofArgv (.unbounded _ _) [['p'], ['-', '-', 'a'], ['1']] = some r ∧
      OnlyPassed r.args [['p'], ['-', '-', 'a'], ['1']] ['a'] :=
  (np_onlyPassed_iff (φ := Unit) {} (.unbounded _ _) [['p'], ['-', '-', 'a'], ['1']] ['a']
    ⟨by decide, by decide⟩).mpr ⟨by decide, Or.inr (Or.inl (by decide))⟩

/-- The path `p` is found as a name. -/
theorem not_np_onlyPassed : ¬ ∀ (cfg : Config) (S : BoundedText cfg.maxBuffer Char)
    (argv : List (List Char)) (str : List Char), Within cfg argv →
      ∃ r : Run cfg Unit, Parser.ofArgv S argv = some r ∧ OnlyPassed r.args argv str := by
  intro hall
  have honly := hall {} (.unbounded _ _) [['p'], ['x']] ['p'] ⟨by decide, by decide⟩
  rw [exists_ofArgv_iff (fun r => OnlyPassed r.args [['p'], ['x']] ['p']) (by decide) (by decide),
    callbacksHandler_args] at honly
  have hhas : (layout (.unbounded _ _) [['p'], ['x']] : Slots {}).has ['p'] = true := by
    refine has_iff.mpr ⟨0, by decide, ?_⟩
    rw [get_layout (by decide), npSlot_zero]
    rfl
  obtain ⟨i, hi⟩ := honly.1.mp hhas
  have hlt := hi.lt
  obtain rfl : i = 1 := by
    simp at hlt
    omega
  exact absurd hi.1 (by decide)

end Bbench.Cargs
