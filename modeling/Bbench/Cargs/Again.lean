import Bbench.Cargs.Classes
import Bbench.Cargs.Table

/-! Parsing twice with one parser. A parse appends to the slots it writes and leaves the
others alone, so that the earlier command line stays wherever it left text, and in every
slot that a shorter one does not reach. -/

namespace Bbench.Cargs

open Lib (BoundedText)

variable {cfg : Config} {φ : Type*} {S : BoundedText cfg.maxBuffer Char}

/-- Nothing to append. -/
def Entry.Textless (e : Entry) : Prop := e.key = [] ∧ e.own = [] ∧ e.value = []

/-- Whether a command line within the limits writes slot `i`. -/
def WritesSlot (argv : List (List Char)) (i : ℕ) : Prop :=
  argv.length ≠ 1 ∧ i < max 1 argv.length

instance (argv : List (List Char)) (i : ℕ) : Decidable (WritesSlot argv i) :=
  inferInstanceAs (Decidable (_ ∧ _))

/-- A slot with neither key nor data. -/
def Packet.Blank (p : Packet) : Prop := p.key = [] ∧ p.data = []

namespace Parser

/-- The parser with fresh slots. -/
def renewed (p : Parser cfg φ) : Parser cfg φ := { p with args := .fresh }

/-- The first entry of its table. -/
def first (p : Parser cfg φ) : ParamPacket φ := p.parameters.head p.stored

end Parser

/-- After parsing `a`, parsing `b` gives what it gives with fresh slots. -/
def StartsAfresh (S : BoundedText cfg.maxBuffer Char) (p : Parser cfg φ)
    (a b : List (List Char)) : Prop :=
  ∃ q, (p.after S a).bind (fun r => r.after S b) = some q ∧ p.renewed.after S b = some q

variable {argv : List (List Char)} {i : ℕ}

/-- Within the limits these are the slots that are written. -/
theorem written_iff (h : Within cfg argv) (hone : argv.length ≠ 1) :
    Written cfg argv i ↔ WritesSlot argv i := by
  constructor
  · rintro (rfl | ⟨hlt, -⟩)
    · exact ⟨hone, by omega⟩
    · exact ⟨hone, by omega⟩
  · rintro ⟨-, hlt⟩
    rcases Nat.eq_zero_or_pos i with rfl | hi
    · exact Or.inl rfl
    · have hlt : i < argv.length := by omega
      exact Or.inr ⟨hlt, h.short _ (mem_argAt hlt)⟩

/-- The slots after a parse. -/
theorem after_get (p : Parser cfg φ) (h : Within cfg argv) :
    ∃ q, p.after S argv = some q ∧ q.parameters = p.parameters ∧ ∀ i < cfg.maxLength,
      q.args.get i =
        if WritesSlot argv i then (Entry.ofArg cfg p.first argv i).into S (p.args.get i)
        else p.args.get i := by
  have hargc := h.argc
  have hargs := call_args S p argv
  obtain ⟨r, hr, hslots⟩ := Option.map_eq_some_iff.mp hargs
  refine ⟨{ p with args := r.args }, by rw [Parser.after, hr]; rfl, rfl, fun i _ => ?_⟩
  dsimp only
  rw [hslots]
  by_cases hone : argv.length = 1
  · rw [if_pos (Or.inr hone), if_neg fun hw => hw.1 hone]
  · have htable : p.parameters = p.first :: p.parameters.tail := (List.cons_head_tail _).symm
    rw [if_neg (by omega), htable, get_parsed_eq _ hargc.le, slotAfter]
    simp only [written_iff h hone]

/-! ### One slot -/

section Slot
variable {p : Packet} (e : Entry)

/-- What a slot held before makes no difference if it was no text. -/
theorem Entry.into_of_blank (hp : p.Blank) : e.into S p = e.into S {} := by
  rw [into, into, hp.1, hp.2]

theorem Entry.blank_into (he : e.Textless) (hp : p.Blank) : (e.into S p).Blank := by
  rw [into, he.1, he.2.1, he.2.2]
  exact hp

/-- A string that never runs full keeps all of it. -/
theorem Entry.into_unbounded_iff :
    e.into (.unbounded cfg.maxBuffer Char) p = e.into (.unbounded cfg.maxBuffer Char) {} ↔
      p.Blank := by
  simp [into, Packet.Blank]

theorem Entry.blank_into_unbounded_iff :
    (e.into (.unbounded cfg.maxBuffer Char) p).Blank ↔ p.Blank ∧ e.Textless := by
  simp only [into, Packet.Blank, Textless, Lib.BoundedText.unbounded_append, List.append_eq_nil_iff]
  tauto

end Slot

/-! ### The parser -/

theorem Parser.eq_of_args {q q' : Parser cfg φ} (hargs : q.args = q'.args)
    (htable : q.parameters = q'.parameters) : q = q' := by
  obtain ⟨args, table, _⟩ := q
  obtain ⟨args', table', _⟩ := q'
  obtain rfl : args = args' := hargs
  obtain rfl : table = table' := htable
  rfl

/-- Slot by slot. -/
theorem startsAfresh_iff (p : Parser cfg φ) {a b : List (List Char)} (ha : Within cfg a)
    (hb : Within cfg b) : StartsAfresh S p a b ↔ ∀ i < cfg.maxLength,
      let before := if WritesSlot a i then (Entry.ofArg cfg p.first a i).into S (p.args.get i)
        else p.args.get i
      (if WritesSlot b i then (Entry.ofArg cfg p.first b i).into S before else before) =
        if WritesSlot b i then (Entry.ofArg cfg p.first b i).into S {} else {} := by
  obtain ⟨r, hr, htable, hslots⟩ := after_get (S := S) p ha
  obtain ⟨q, hq, htable', hslots'⟩ := after_get (S := S) r hb
  obtain ⟨q₀, hq₀, htable₀, hslots₀⟩ := after_get (S := S) p.renewed hb
  have hfirst : r.first = p.first := by
    simp only [Parser.first, htable]
  have hrun : StartsAfresh S p a b ↔ q = q₀ := by
    rw [StartsAfresh, hr, Option.bind_some, hq, hq₀]
    simp [eq_comm]
  rw [hrun]
  constructor
  · rintro rfl i hi
    have hsame := (hslots' i hi).symm.trans (hslots₀ i hi)
    rw [hslots i hi, hfirst] at hsame
    exact hsame.trans (by rw [Parser.renewed, fresh_get]; rfl)
  · intro hall
    refine Parser.eq_of_args (Slots.ext_get fun i hi => ?_)
      (htable'.trans (htable.trans htable₀.symm))
    rw [hslots' i hi, hslots₀ i hi, hslots i hi, hfirst]
    exact (hall i hi).trans (by rw [Parser.renewed, fresh_get]; rfl)

/-- When parsing again starts afresh. It does so, whatever a string does at its capacity,
exactly when the parser's slots hold no text, the first command line adds none to any, and
each slot that is in use or that the first one writes is written again by the second. -/
theorem starts_afresh_iff (cfg : Config) (p : Parser cfg φ) (a b : List (List Char))
    (ha : Within cfg a) (hb : Within cfg b) :
    (∀ S : BoundedText cfg.maxBuffer Char, StartsAfresh S p a b) ↔ ∀ i < cfg.maxLength,
      (p.args.get i).Blank ∧ (WritesSlot a i → (Entry.ofArg cfg p.first a i).Textless) ∧
        (WritesSlot b i ∨ (p.args.get i).type = .czero ∧ ¬ WritesSlot a i) := by
  simp only [startsAfresh_iff p ha hb]
  constructor
  · intro hall i hi
    have hslot := hall (.unbounded _ _) i hi
    by_cases hwb : WritesSlot b i
    · rw [if_pos hwb, if_pos hwb, Entry.into_unbounded_iff] at hslot
      split_ifs at hslot with hwa
      · rw [Entry.blank_into_unbounded_iff] at hslot
        exact ⟨hslot.1, fun _ => hslot.2, Or.inl hwb⟩
      · exact ⟨hslot, fun h => absurd h hwa, Or.inl hwb⟩
    · rw [if_neg hwb, if_neg hwb] at hslot
      split_ifs at hslot with hwa
      · exact absurd (congrArg Packet.type hslot) (Entry.ofArg_type_ne p.first i)
      · rw [hslot]
        exact ⟨⟨rfl, rfl⟩, fun h => absurd h hwa, Or.inr ⟨rfl, hwa⟩⟩
  · intro hall S i hi
    obtain ⟨hblank, htext, hagain⟩ := hall i hi
    have hbefore : (if WritesSlot a i then (Entry.ofArg cfg p.first a i).into S (p.args.get i)
        else p.args.get i).Blank := by
      split_ifs with hwa
      · exact (Entry.ofArg cfg p.first a i).blank_into (htext hwa) hblank
      · exact hblank
    by_cases hwb : WritesSlot b i
    · rw [if_pos hwb, if_pos hwb, Entry.into_of_blank _ hbefore]
    · obtain ⟨hzero, hwa⟩ := hagain.resolve_left hwb
      rw [if_neg hwb, if_neg hwb, if_neg hwa]
      obtain ⟨hkey, hdata⟩ := hblank
      cases hp : p.args.get i
      simp_all

/-- An empty argument before an operand. -/
theorem starts_afresh_empty : StartsAfresh (.unbounded ({} : Config).maxBuffer Char)
    (Parser.register ([] : List (ParamPacket Unit))) [[], []] [['p'], ['x']] := by
  refine (starts_afresh_iff {} (Parser.register ([] : List (ParamPacket Unit))) [[], []]
    [['p'], ['x']] ⟨by decide, by decide⟩ ⟨by decide, by decide⟩).mpr (fun i _ => ?_) _
  have hget : (Parser.register ([] : List (ParamPacket Unit)) : Parser {} Unit).args.get i = {} :=
    fresh_get i
  rw [hget]
  rcases Nat.lt_or_ge i 2 with hlt | hge
  · refine ⟨⟨rfl, rfl⟩, fun _ => ?_, Or.inl ⟨by decide, hlt⟩⟩
    obtain rfl | rfl : i = 0 ∨ i = 1 := by omega
    · exact ⟨rfl, rfl, rfl⟩
    · exact ⟨rfl, rfl, rfl⟩
  · have hwa : ¬ WritesSlot [[], []] i := fun hw => Nat.not_lt.mpr hge hw.2
    exact ⟨⟨rfl, rfl⟩, fun h => absurd h hwa, Or.inr ⟨rfl, hwa⟩⟩

/-- Parsed twice, the operand `x` is `xx`. -/
theorem not_starts_afresh : ¬ ∀ (cfg : Config) (S : BoundedText cfg.maxBuffer Char)
    (p : Parser cfg Unit) (a b : List (List Char)), Within cfg a → Within cfg b →
      StartsAfresh S p a b := by
  intro hall
  have hwithin : Within {} [['p'], ['x']] := ⟨by decide, by decide⟩
  have hslot := (startsAfresh_iff _ hwithin hwithin).mp
    (hall {} (.unbounded _ _) (Parser.register []) _ _ hwithin hwithin) 1 (by decide)
  exact absurd hslot (by decide)

end Bbench.Cargs
