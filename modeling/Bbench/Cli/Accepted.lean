import Bbench.Cli.Grammar
import Mathlib.Tactic.NormNum

/-! What an accepted command line means. The options are described by the items:
the last occurrence decides each of them, and a field without an occurrence keeps
its initial value. -/

namespace Bbench.Cli

open LastWrite

/-- The options that a sequence of items stands for. `-D` and `--timeout` are
stored in 32 bits, so their fields are described below `2 ^ 32` only. -/
structure Describes (items : List Item) (out : CliOpts) : Prop where
  paths : out.paths = items.filterMap Item.path?
  nRuns : (out.nRuns : ℤ) = (lastOf (Item.intOf runFlags) items).getD 1
  detail : out.benchOpts.detail = (lastOf (Item.flagOf Item.detailTable) items).getD 1
  delayMs : (lastOf (Item.intOf ["-D"]) items).getD 0 < 2 ^ 32 →
    (out.benchOpts.delayMs.toNat : ℤ) = (lastOf (Item.intOf ["-D"]) items).getD 0
  timeoutMs : (lastOf (Item.intOf ["--timeout"]) items).getD 0 < 2 ^ 32 →
    (out.benchOpts.timeoutMs.toNat : ℤ) = (lastOf (Item.intOf ["--timeout"]) items).getD 0
  inherit : out.benchOpts.inherit =
    (lastOf (Item.flagOf [("--no-inherit", false)]) items).getD true
  scale : out.benchOpts.scale = (lastOf (Item.flagOf [("--no-scale", false)]) items).getD true
  pinned : out.benchOpts.pinned = (lastOf (Item.flagOf [("--pinned", true)]) items).getD false
  exclusion : (out.benchOpts.exclKernel, out.benchOpts.exclUser) =
    (lastOf (Item.flagOf Item.exclTable) items).getD (true, false)
  eventCsv : out.benchOpts.eventCsv = lastOf (Item.strOf "-e") items
  pre : out.benchOpts.pre = lastOf (Item.strOf "--pre") items
  post : out.benchOpts.post = lastOf (Item.strOf "--post") items
  verbose : out.verbose =
    (lastOf (Item.flagOf [("-v", true), ("--verbose", true)]) items).getD false
  table : out.table = (lastOf (Item.flagOf [("--table", true)]) items).getD false
  topdownOnly : out.topdownOnly = (lastOf (Item.flagOf [("--topdown", true)]) items).getD false
  csvSep : out.csvSep = ((lastOf (Item.strOf "-x") items).map sepOf).getD (Char.ofNat 0)
  outputFile : out.outputFile = lastOf (Item.strOf "-o") items
  metricsCsv : out.metricsCsv = lastOf (Item.strOf "-M") items

/-- The options after a sequence of items. -/
def applyAll (items : List Item) : CliOpts := items.foldl Item.apply {}

/-! ### One field at a time -/

section Fields
variable (items : List Item)

/-- A field that an item overwrites with `g` of its value, or keeps. -/
theorem applyAll_field {β γ : Type} (field : CliOpts → γ) (sel : Item → Option β) (g : β → γ)
    (h : ∀ out it, field (Item.apply out it) = ((sel it).map g).getD (field out)) :
    field (applyAll items) = ((lastOf sel items).map g).getD (field ({} : CliOpts)) := by
  rw [← lastOf_map]
  exact foldl_field h {} items

theorem applyAll_flag {β : Type} (field : CliOpts → β) (tbl : List (String × β))
    (h : ∀ out it, field (Item.apply out it) = (Item.flagOf tbl it).getD (field out)) :
    field (applyAll items) = (lastOf (Item.flagOf tbl) items).getD (field ({} : CliOpts)) :=
  foldl_field h {} items

theorem applyAll_str (field : CliOpts → Option String) (f : String)
    (h : ∀ out it, field (Item.apply out it) = ((Item.strOf f it).map some).getD (field out))
    (h0 : field ({} : CliOpts) = none) : field (applyAll items) = lastOf (Item.strOf f) items := by
  rw [applyAll_field items field (Item.strOf f) some h, h0]
  cases lastOf (Item.strOf f) items <;> rfl

theorem applyAll_paths : (applyAll items).paths = items.filterMap Item.path? := by
  have h : ∀ (out : CliOpts) (it : Item),
      (Item.apply out it).paths = out.paths ++ it.path?.toList := by
    intro out it
    cases it <;> simp [Item.apply, Item.path?]
  exact (foldl_append h {} items).trans (List.nil_append _)

theorem applyAll_exclusion : ((applyAll items).benchOpts.exclKernel,
    (applyAll items).benchOpts.exclUser) =
      (lastOf (Item.flagOf Item.exclTable) items).getD (true, false) := by
  rw [applyAll_field items (fun out => out.benchOpts.exclKernel) (Item.flagOf Item.exclTable)
      Prod.fst fun _ _ => rfl,
    applyAll_field items (fun out => out.benchOpts.exclUser) (Item.flagOf Item.exclTable)
      Prod.snd fun _ _ => rfl]
  cases lastOf (Item.flagOf Item.exclTable) items <;> rfl

variable {items}

/-- The last value of an integer option is one that the option takes. -/
theorem lastOf_int_valid {fs : List String} (hv : ∀ it ∈ items, it.Valid) {n : ℤ}
    (h : lastOf (Item.intOf fs) items = some n) :
    ∃ f ∈ fs, f ∈ runFlags ∧ 1 ≤ n ∨ f ∈ timeFlags ∧ 0 ≤ n := by
  obtain ⟨it, hit, hsel⟩ := exists_of_lastOf h
  cases it with
  | int f v m =>
    simp only [Item.intOf, Option.ite_none_right_eq_some, Option.some.injEq] at hsel
    obtain ⟨hf, rfl⟩ := hsel
    exact ⟨f, hf, (hv _ hit).2⟩
  | flag f => cases hsel
  | str f v => cases hsel
  | path p => cases hsel

theorem lastOf_run_pos (hv : ∀ it ∈ items, it.Valid) {n : ℤ}
    (h : lastOf (Item.intOf runFlags) items = some n) : 1 ≤ n := by
  obtain ⟨f, hf, hr | ht⟩ := lastOf_int_valid hv h
  · exact hr.2
  · have hdisjoint : ∀ f ∈ runFlags, f ∉ timeFlags := by decide
    exact absurd ht.1 (hdisjoint f hf)

theorem lastOf_int_nonneg (fs : List String) (hv : ∀ it ∈ items, it.Valid) :
    0 ≤ (lastOf (Item.intOf fs) items).getD 0 := by
  cases h : lastOf (Item.intOf fs) items with
  | none => exact le_rfl
  | some n =>
    obtain ⟨f, -, hr | ht⟩ := lastOf_int_valid hv h
    · exact zero_le_one.trans hr.2
    · exact ht.2

theorem applyAll_nRuns (hv : ∀ it ∈ items, it.Valid) : ((applyAll items).nRuns : ℤ) =
    (lastOf (Item.intOf runFlags) items).getD 1 := by
  rw [applyAll_field items CliOpts.nRuns (Item.intOf runFlags) Int.toNat fun _ _ => rfl]
  cases h : lastOf (Item.intOf runFlags) items with
  | none => rfl
  | some n =>
    have := lastOf_run_pos hv h
    simp only [Option.map_some, Option.getD_some]
    omega

/-- A 32-bit field holds the last value of its option modulo `2 ^ 32`. -/
theorem applyAll_time (field : CliOpts → UInt32) (f : String) (h : ∀ out it,
    field (Item.apply out it) = ((Item.intOf [f] it).map toU32).getD (field out))
    (h0 : field ({} : CliOpts) = 0) (hv : ∀ it ∈ items, it.Valid) :
    ((field (applyAll items)).toNat : ℤ) = (lastOf (Item.intOf [f]) items).getD 0 % 2 ^ 32 := by
  have hn := lastOf_int_nonneg [f] hv
  rw [applyAll_field items field (Item.intOf [f]) toU32 h, h0]
  cases hl : lastOf (Item.intOf [f]) items with
  | none => rfl
  | some n =>
    simp only [hl, Option.getD_some] at hn
    simp only [Option.map_some, Option.getD_some, toU32, UInt32.toNat_ofNat']
    omega

theorem applyAll_delayMs (hv : ∀ it ∈ items, it.Valid) :
    ((applyAll items).benchOpts.delayMs.toNat : ℤ) =
      (lastOf (Item.intOf ["-D"]) items).getD 0 % 2 ^ 32 :=
  applyAll_time (fun out => out.benchOpts.delayMs) "-D" (fun _ _ => rfl) rfl hv

theorem applyAll_timeoutMs (hv : ∀ it ∈ items, it.Valid) :
    ((applyAll items).benchOpts.timeoutMs.toNat : ℤ) =
      (lastOf (Item.intOf ["--timeout"]) items).getD 0 % 2 ^ 32 :=
  applyAll_time (fun out => out.benchOpts.timeoutMs) "--timeout" (fun _ _ => rfl) rfl hv

end Fields

theorem applyAll_describes {items : List Item} (hv : ∀ it ∈ items, it.Valid) :
    Describes items (applyAll items) where
  paths := applyAll_paths items
  nRuns := applyAll_nRuns hv
  detail := applyAll_flag items (fun out => out.benchOpts.detail) _ fun _ _ => rfl
  delayMs hlt := by
    have := lastOf_int_nonneg ["-D"] hv
    rw [applyAll_delayMs hv]
    omega
  timeoutMs hlt := by
    have := lastOf_int_nonneg ["--timeout"] hv
    rw [applyAll_timeoutMs hv]
    omega
  inherit := applyAll_flag items (fun out => out.benchOpts.inherit) _ fun _ _ => rfl
  scale := applyAll_flag items (fun out => out.benchOpts.scale) _ fun _ _ => rfl
  pinned := applyAll_flag items (fun out => out.benchOpts.pinned) _ fun _ _ => rfl
  exclusion := applyAll_exclusion items
  eventCsv := applyAll_str items (fun out => out.benchOpts.eventCsv) _ (fun _ _ => rfl) rfl
  pre := applyAll_str items (fun out => out.benchOpts.pre) _ (fun _ _ => rfl) rfl
  post := applyAll_str items (fun out => out.benchOpts.post) _ (fun _ _ => rfl) rfl
  verbose := applyAll_flag items CliOpts.verbose _ fun _ _ => rfl
  table := applyAll_flag items CliOpts.table _ fun _ _ => rfl
  topdownOnly := applyAll_flag items CliOpts.topdownOnly _ fun _ _ => rfl
  csvSep := applyAll_field items CliOpts.csvSep (Item.strOf "-x") sepOf fun _ _ => rfl
  outputFile := applyAll_str items CliOpts.outputFile _ (fun _ _ => rfl) rfl
  metricsCsv := applyAll_str items CliOpts.metricsCsv _ (fun _ _ => rfl) rfl

/-! ### Acceptance -/

theorem parseArgv_eq_ok {argv : List String} {out : CliOpts} : parseArgv argv = .ok out ↔
    ∃ items, Derives items (argv.drop 1) ∧ out = applyAll items ∧ out.paths ≠ [] := by
  constructor
  · intro h
    unfold parseArgv at h
    split at h
    · cases h
    · rename_i mid hmid
      split_ifs at h with hlen
      cases h
      obtain ⟨items, hd, rfl⟩ := derives_of_parseArgs hmid
      exact ⟨items, hd, rfl, fun hnil => hlen (by rw [hnil]; rfl)⟩
  · rintro ⟨items, hd, rfl, hne⟩
    have hargs : parseArgs (argv.drop 1) {} = .ok (applyAll items) := parseArgs_of_derives hd {}
    rw [parseArgv, hargs]
    exact if_neg fun hlen => hne (List.length_eq_zero_iff.mp hlen)

/-- The command-line grammar. A command line is accepted exactly when its
arguments spell a sequence of items with a path among them; the sequence is
unique, and the options are the ones it describes. -/
theorem parseArgv_grammar (argv : List String) :
    ((∃ out, parseArgv argv = .ok out) ↔
      ∃ items, Derives items (argv.drop 1) ∧ items.filterMap Item.path? ≠ []) ∧
    (∀ items items', Derives items (argv.drop 1) → Derives items' (argv.drop 1) →
      items = items') ∧
    ∀ out items, parseArgv argv = .ok out → Derives items (argv.drop 1) →
      Describes items out := by
  refine ⟨⟨?_, ?_⟩, fun _ _ h h' => derives_unique h h', ?_⟩
  · rintro ⟨out, h⟩
    obtain ⟨items, hd, rfl, hne⟩ := parseArgv_eq_ok.mp h
    exact ⟨items, hd, by rwa [← applyAll_paths]⟩
  · rintro ⟨items, hd, hne⟩
    exact ⟨applyAll items, parseArgv_eq_ok.mpr ⟨items, hd, rfl, by rwa [applyAll_paths]⟩⟩
  · intro out items h hd
    obtain ⟨items', hd', rfl, -⟩ := parseArgv_eq_ok.mp h
    rw [derives_unique hd hd']
    exact applyAll_describes hd'.1

/-- Each option field literally holds the value of its last occurrence: the two
times without a bound, and the separator the whole value of `-x`. -/
def HoldsLast (items : List Item) (out : CliOpts) : Prop :=
  Describes items out ∧
  (out.benchOpts.delayMs.toNat : ℤ) = (lastOf (Item.intOf ["-D"]) items).getD 0 ∧
  (out.benchOpts.timeoutMs.toNat : ℤ) = (lastOf (Item.intOf ["--timeout"]) items).getD 0 ∧
  ∀ v, lastOf (Item.strOf "-x") items = some v → v = out.csvSep.toString

/-- An empty separator is replaced by a comma. -/
theorem not_holdsLast : ¬ ∀ argv out items, parseArgv argv = .ok out →
    Derives items (argv.drop 1) → HoldsLast items out := by
  intro h
  have hd : Derives [.str "-x" "", .path "ls"] ["-x", "", "ls"] := by
    refine ⟨?_, rfl⟩
    simp only [List.forall_mem_cons, List.not_mem_nil, false_implies, implies_true, and_true]
    exact ⟨by decide, by decide⟩
  have hsep := (h ["bbench", "-x", "", "ls"] { csvSep := ',', paths := ["ls"] }
    [.str "-x" "", .path "ls"] (by decide) hd).2.2.2 "" (by decide)
  exact absurd hsep (by decide)

/-! ### Consequences for `main` -/

section Main
variable {argv : List String} {cli : CliOpts} (h : parseArgv argv = .ok cli)
include h

theorem paths_ne_nil : cli.paths ≠ [] := by
  obtain ⟨_, _, _, hne⟩ := parseArgv_eq_ok.mp h
  exact hne

theorem nRuns_pos : 1 ≤ cli.nRuns := by
  obtain ⟨items, hd, rfl, -⟩ := parseArgv_eq_ok.mp h
  have hn := (applyAll_describes hd.1).nRuns
  cases hl : lastOf (Item.intOf runFlags) items with
  | none => rw [hl, Option.getD_none] at hn; omega
  | some n =>
    have := lastOf_run_pos hd.1 hl
    rw [hl, Option.getD_some] at hn
    omega

/-- Exactly one of the two modes is excluded. -/
theorem exclKernel_eq_not : cli.benchOpts.exclKernel = !cli.benchOpts.exclUser := by
  obtain ⟨items, hd, rfl, -⟩ := parseArgv_eq_ok.mp h
  have hx := applyAll_exclusion items
  cases hl : lastOf (Item.flagOf Item.exclTable) items with
  | none =>
    rw [hl] at hx
    rw [(Prod.mk.inj hx).1, (Prod.mk.inj hx).2]
    rfl
  | some p =>
    rw [hl] at hx
    obtain ⟨it, -, hsel⟩ := exists_of_lastOf hl
    cases it with
    | flag f =>
      have hp : p = (true, false) ∨ p = (false, true) := by
        simp only [Item.flagOf, Item.exclTable, List.lookup_cons, List.lookup_nil] at hsel
        split at hsel
        · exact .inl (Option.some.inj hsel).symm
        · split at hsel
          · exact .inr (Option.some.inj hsel).symm
          · cases hsel
      rcases hp with rfl | rfl <;> rw [(Prod.mk.inj hx).1, (Prod.mk.inj hx).2] <;> rfl
    | str f v => cases hsel
    | int f v n => cases hsel
    | path p => cases hsel

end Main

end Bbench.Cli
