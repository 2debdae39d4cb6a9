import Bbench.Lib.Separated
import Bbench.Report.Bytes
import Bbench.Report.Columns

/-! Reading a CSV report back. The header and the row are two emission sequences;
both are the same list of columns joined with the separator. The name goes out as
it is, with nothing around it, and that decides when the report can be cut into
its fields again. -/

namespace Bbench.Report

open Lib

/-! ### The two lines -/

/-- The counter columns the two emission sequences write at any detail level. -/
def csvColumns (detail : ℕ) : List Column :=
  columnsD1 ++ (if 2 ≤ detail then columnsD2 else []) ++ (if 3 ≤ detail then columnsD3 else [])

inductive Heading
  | name
  | time
  | counter (c : Column)

def Heading.key : Heading → String
  | name => "name"
  | time => "time_us"
  | counter c => c.header

/-- The call that writes a result's field under a heading. -/
def Heading.emit (b : BenchmarkT) : Heading → Emit
  | name => .str b.name
  | time => .double b.time
  | counter c => .int (c.field b)

def headings (detail : ℕ) : List Heading := .name :: .time :: (csvColumns detail).map .counter

def csvHeader (detail : ℕ) : List (List Char) := (headings detail).map fun h => h.key.toList

def csvRow (r : Rendering) (detail : ℕ) (b : BenchmarkT) : List (List Char) :=
  (headings detail).map fun h => (h.emit b).text r

theorem emitCsvHeader_eq (detail : ℕ) (sep : Char) : emitCsvHeader detail sep =
    ((headings detail).map fun h => Emit.str h.key).intersperse (.str (sepString sep)) ++
      [newline] := by
  by_cases h2 : 2 ≤ detail <;> by_cases h3 : 3 ≤ detail <;>
    simp only [emitCsvHeader, headings, csvColumns, h2, h3, if_true, if_false] <;> rfl

theorem emitCsvOne_eq (b : BenchmarkT) (detail : ℕ) (sep : Char) : emitCsvOne b detail sep =
    ((headings detail).map (Heading.emit b)).intersperse (.str (sepString sep)) ++ [newline] := by
  by_cases h2 : 2 ≤ detail <;> by_cases h3 : 3 ≤ detail <;>
    simp only [emitCsvOne, headings, csvColumns, h2, h3, if_true, if_false] <;> rfl

/-- The highest level has all headings. -/
theorem headings_sublist (detail : ℕ) : (headings detail).Sublist (headings 3) :=
  .cons_cons _ (.cons_cons _ (.map _
    (((List.Sublist.refl columnsD1).append (ite_nil_sublist _ columnsD2)).append
      (ite_nil_sublist _ columnsD3))))

/-- No header has a terminator inside, and no two are the same. -/
theorem headings_plain (detail : ℕ) : (csvHeader detail).Nodup ∧
    ∀ h ∈ headings detail, '\x00' ∉ h.key.toList ∧ '\n' ∉ h.key.toList := by
  have hall : (csvHeader 3).Nodup ∧
      ∀ h ∈ headings 3, '\x00' ∉ h.key.toList ∧ '\n' ∉ h.key.toList := by decide +kernel
  exact ⟨hall.1.sublist ((headings_sublist detail).map _),
    fun h hh => hall.2 h ((headings_sublist detail).subset hh)⟩

theorem cString_sepString {sep : Char} (h0 : sep ≠ '\x00') : cString (sepString sep) = [sep] := by
  have hnat : sep.toNat ≠ 0 := fun h => h0 (Char.toNat_inj.mp h)
  simp [cString, sepString, hnat, Char.toString, h0]

section Text
variable (r : Rendering) (detail : ℕ) (sep : Char)

theorem text_emitCsvHeader : text r (emitCsvHeader detail sep) =
    (cString (sepString sep)).intercalate (csvHeader detail) ++ ['\n'] := by
  have hmap : (headings detail).map (fun h => cString h.key) = csvHeader detail :=
    List.map_congr_left fun h hh => cString_eq_toList_iff.mpr ((headings_plain detail).2 h hh).1
  rw [emitCsvHeader_eq, text_append, text, flatMap_intersperse, List.map_map]
  exact congrArg (fun l => (cString (sepString sep)).intercalate l ++ ['\n']) hmap

theorem text_emitCsvOne (b : BenchmarkT) : text r (emitCsvOne b detail sep) =
    (cString (sepString sep)).intercalate (csvRow r detail b) ++ ['\n'] := by
  rw [emitCsvOne_eq, text_append, text, flatMap_intersperse, List.map_map]
  rfl

/-- What `main` writes with `-s`: the header, and a row for each result. -/
def csvReport (bs : List BenchmarkT) : List Emit :=
  emitCsvHeader detail sep ++ bs.flatMap fun b => emitCsvOne b detail sep

/-- The lines of the report, the header first. -/
def csvLines (bs : List BenchmarkT) : List (List Char) :=
  (csvHeader detail :: bs.map (csvRow r detail)).map ((cString (sepString sep)).intercalate ·)

theorem text_csvReport (bs : List BenchmarkT) : text r (csvReport detail sep bs) =
    (csvLines r detail sep bs).flatMap (· ++ ['\n']) := by
  rw [csvReport, text_append, text_emitCsvHeader, text_flatMap]
  simp only [text_emitCsvOne, csvLines, List.map_cons, List.map_map, List.flatMap_cons,
    List.flatMap_map, Function.comp_def]

end Text

/-! ### Reading back -/

/-- Cut at newlines, and every line at the separator. -/
def table (sep : Char) (t : List Char) : List (List (List Char)) :=
  (t.splitOn '\n').dropLast.map fun line => line.splitOn sep

/-- The field of a row that stands under a header. -/
def fieldUnder (head row : List (List Char)) (h : String) : Option (List Char) :=
  (head.zip row).lookup h.toList

/-- A row says what the result has: the name letter for letter, and each number in
a rendering that no other number has. -/
structure RowDecodes (r : Rendering) (detail : ℕ) (head row : List (List Char))
    (b : BenchmarkT) : Prop where
  length : row.length = head.length
  name : fieldUnder head row "name" = some b.name.toList
  time : ∃ cell, fieldUnder head row "time_us" = some cell ∧ ∀ t, r.double t = cell ↔ t = b.time
  column : ∀ c ∈ csvColumns detail, ∃ cell, fieldUnder head row c.header = some cell ∧
    ∀ v, r.int v = cell ↔ v = c.field b

/-- A header line and one line for each result, which says what the result has. -/
def CsvDecodes (r : Rendering) (detail : ℕ) (sep : Char) (bs : List BenchmarkT) : Prop :=
  ∃ rows, table sep (text r (csvReport detail sep bs)) = csvHeader detail :: rows ∧
    List.Forall₂ (RowDecodes r detail (csvHeader detail)) rows bs

/-- The separator occurs in no header name and in no rendering of a number. -/
structure Rendering.Separates (r : Rendering) (detail : ℕ) (sep : Char) : Prop where
  header : ∀ h ∈ csvHeader detail, sep ∉ h
  int : ∀ v, sep ∉ r.int v
  double : ∀ t, sep ∉ r.double t

theorem decimalRendering_separates (detail : ℕ) : decimalRendering.Separates detail ',' where
  header h hh := by
    have hall : ∀ h ∈ csvHeader 3, ',' ∉ h := by decide +kernel
    exact hall h (((headings_sublist detail).map _).subset hh)
  int _ hc := absurd (mem_decimalInt hc) (by decide)
  double _ hc := absurd (mem_decimalDouble hc) (by decide)

/-- Under a heading of the report stands the field the row has for it. -/
theorem fieldUnder_csvRow (r : Rendering) {detail : ℕ} (b : BenchmarkT) {h : Heading}
    (hh : h ∈ headings detail) :
    fieldUnder (csvHeader detail) (csvRow r detail b) h.key = some ((h.emit b).text r) := by
  rw [fieldUnder, csvHeader, csvRow, List.zip_map']
  exact lookup_map_pair (fun h : Heading => h.key.toList) _ (headings_plain detail).1 hh

theorem rowDecodes_csvRow {r : Rendering} (hr : r.Decimal) (detail : ℕ) {b : BenchmarkT}
    (hname : '\x00' ∉ b.name.toList) :
    RowDecodes r detail (csvHeader detail) (csvRow r detail b) b where
  length := by rw [csvRow, csvHeader, List.length_map, List.length_map]
  name := cString_eq_toList_iff.mpr hname ▸ fieldUnder_csvRow r b (h := .name) (by simp [headings])
  time := ⟨_, fieldUnder_csvRow r b (h := .time) (by simp [headings]),
    fun _ => hr.double_injective.eq_iff⟩
  column c hc := ⟨_, fieldUnder_csvRow r b (h := .counter c) (by simpa [headings] using hc),
    fun _ => hr.int_injective.eq_iff⟩

/-- A name that can be read back: no line end, no separator, no terminator in it. -/
def NameFits (sep : Char) (b : BenchmarkT) : Prop :=
  '\n' ∉ b.name.toList ∧ sep ∉ b.name.toList ∧ '\x00' ∉ b.name.toList

section Decode
variable {r : Rendering} {detail : ℕ} {sep : Char} {bs : List BenchmarkT}

theorem notMem_csvRow {x : Char} (hint : ∀ v, x ∉ r.int v) (hdouble : ∀ t, x ∉ r.double t)
    {b : BenchmarkT} (hname : x ∉ cString b.name) : ∀ l ∈ csvRow r detail b, x ∉ l := by
  intro l hl
  obtain ⟨h, -, rfl⟩ := List.mem_map.mp hl
  cases h with
  | name => exact hname
  | time => exact hdouble _
  | counter c => exact hint _

/-- When no line has a line end inside, the table is the lines cut at the separator. -/
theorem table_of_lines (h : ∀ line ∈ csvLines r detail sep bs, '\n' ∉ line) :
    table sep (text r (csvReport detail sep bs)) =
      (csvLines r detail sep bs).map fun line => line.splitOn sep := by
  rw [table, text_csvReport, splitOn_terminated '\n' h, List.dropLast_concat]

/-- The report as a table of fields. -/
theorem table_csvReport (hr : r.Decimal) (hsep : r.Separates detail sep) (hn : sep ≠ '\n')
    (h0 : sep ≠ '\x00') (hbs : ∀ b ∈ bs, NameFits sep b) :
    table sep (text r (csvReport detail sep bs)) =
      csvHeader detail :: bs.map (csvRow r detail) := by
  have hn' : '\n' ∉ [sep] := fun h => hn (List.mem_singleton.mp h).symm
  have hlines : ∀ line ∈ csvLines r detail sep bs, '\n' ∉ line := by
    simp only [csvLines, cString_sepString h0, List.forall_mem_map, List.forall_mem_cons]
    refine ⟨notMem_intercalate hn' ?_, fun b hb => notMem_intercalate hn' ?_⟩
    · exact List.forall_mem_map.mpr fun h hh => ((headings_plain detail).2 h hh).2
    · exact notMem_csvRow hr.int_line hr.double_line
        fun h => (hbs b hb).1 (mem_of_mem_cString h)
  have hcut : ∀ fields : List (List Char), fields ≠ [] → (∀ l ∈ fields, sep ∉ l) →
      ([sep].intercalate fields).splitOn sep = fields :=
    fun fields hne hl => List.splitOn_intercalate sep hl hne
  rw [table_of_lines hlines, csvLines, cString_sepString h0, List.map_cons, List.map_cons,
    List.map_map, List.map_map, hcut (csvHeader detail) (List.cons_ne_nil _ _) hsep.header]
  refine congrArg (csvHeader detail :: ·) (List.map_congr_left fun b hb => ?_)
  exact hcut _ (List.cons_ne_nil _ _) (notMem_csvRow hsep.int hsep.double
    fun h => (hbs b hb).2.1 (mem_of_mem_cString h))

/-- As many lines as results: no line has a line end inside. -/
theorem newline_notMem_csvLines {rows : List (List (List Char))}
    (htable : table sep (text r (csvReport detail sep bs)) = csvHeader detail :: rows)
    (hlen : rows.length = bs.length) : ∀ line ∈ csvLines r detail sep bs, '\n' ∉ line := by
  refine notMem_of_length_splitOn_terminated '\n' ?_
  have hcount := congrArg List.length htable
  rw [table, List.length_map, List.length_dropLast, text_csvReport, List.length_cons] at hcount
  have hpos := List.length_pos_iff.mpr
    (List.splitOn_ne_nil '\n' ((csvLines r detail sep bs).flatMap (· ++ ['\n'])))
  have hlines : (csvLines r detail sep bs).length = bs.length + 1 := by simp [csvLines]
  omega

/-- Without a separator the header is a single field. -/
theorem header_splitOn_ne :
    (([] : List Char).intercalate (csvHeader detail)).splitOn '\x00' ≠ csvHeader detail := by
  have hplain : ∀ h ∈ csvHeader detail, '\x00' ∉ h :=
    List.forall_mem_map.mpr fun h hh => ((headings_plain detail).2 h hh).1
  rw [List.splitOn_eq_singleton (notMem_intercalate List.not_mem_nil hplain)]
  intro h
  simpa [csvHeader, headings] using congrArg List.length h

/-- A row that says what its result has was written from a name that fits. -/
theorem nameFits_of_rowDecodes {b : BenchmarkT}
    (hline : '\n' ∉ [sep].intercalate (csvRow r detail b))
    (h : RowDecodes r detail (csvHeader detail)
      (([sep].intercalate (csvRow r detail b)).splitOn sep) b) : NameFits sep b := by
  have hmem : cString b.name ∈ csvRow r detail b := List.mem_cons_self
  have hsepFree : ∀ l ∈ csvRow r detail b, sep ∉ l := by
    refine notMem_of_length_splitOn_intercalate sep (List.cons_ne_nil _ _) ?_
    rw [h.length, csvHeader, csvRow, List.length_map, List.length_map]
  have hname := h.name
  rw [List.splitOn_intercalate sep hsepFree (List.cons_ne_nil _ _)] at hname
  have hwhole : cString b.name = b.name.toList :=
    Option.some.inj ((fieldUnder_csvRow r b (h := .name) List.mem_cons_self).symm.trans hname)
  rw [hwhole] at hmem
  exact ⟨fun hc => hline (mem_intercalate _ hc hmem), hsepFree _ hmem,
    cString_eq_toList_iff.mp hwhole⟩

/-- A report that decodes has a separator of its own and names that fit. -/
theorem fits_of_csvDecodes (h : CsvDecodes r detail sep bs) :
    sep ≠ '\n' ∧ sep ≠ '\x00' ∧ ∀ b ∈ bs, NameFits sep b := by
  obtain ⟨rows, htable, hrows⟩ := h
  have hline := newline_notMem_csvLines htable hrows.length_eq
  rw [table_of_lines hline, csvLines, List.map_cons, List.map_cons, List.map_map,
    List.map_map] at htable
  obtain ⟨hhead, rfl⟩ := List.cons.inj htable
  have h0 : sep ≠ '\x00' := by
    rintro rfl
    exact header_splitOn_ne hhead
  rw [csvLines, cString_sepString h0, List.map_cons, List.map_map] at hline
  rw [List.forall₂_map_left_iff, List.forall₂_same, cString_sepString h0] at hrows
  obtain ⟨hheadLine, hrowLine⟩ := List.forall_mem_cons.mp hline
  refine ⟨?_, h0, fun b hb =>
    nameFits_of_rowDecodes (hrowLine _ (List.mem_map_of_mem hb)) (hrows b hb)⟩
  rintro rfl
  exact hheadLine (sep_mem_intercalate List.mem_cons_self _ _ _)

/-- The report decodes exactly when its separator is neither the line end nor the
terminator, and every name fits. -/
theorem csvDecodes_iff (hr : r.Decimal) (hsep : r.Separates detail sep) :
    CsvDecodes r detail sep bs ↔ sep ≠ '\n' ∧ sep ≠ '\x00' ∧ ∀ b ∈ bs, NameFits sep b := by
  refine ⟨fits_of_csvDecodes, fun ⟨hn, h0, hbs⟩ => ⟨_, table_csvReport hr hsep hn h0 hbs, ?_⟩⟩
  rw [List.forall₂_map_left_iff, List.forall₂_same]
  exact fun b hb => rowDecodes_csvRow hr detail (hbs b hb).2.2

end Decode

/-- One result at the highest level. -/
theorem csvDecodes_iff_one : decimalRendering.Decimal ∧ decimalRendering.Separates 3 ',' ∧
    CsvDecodes decimalRendering 3 ',' [{ name := "./a", time := 7, cycles := -12 }] := by
  refine ⟨decimalRendering_decimal, decimalRendering_separates 3, ?_⟩
  refine (csvDecodes_iff decimalRendering_decimal (decimalRendering_separates 3)).mpr ?_
  refine ⟨by decide, by decide, ?_⟩
  simp only [List.forall_mem_singleton, NameFits]
  decide

/-- A path with the separator in it is not read back. -/
theorem not_csvDecodes : decimalRendering.Decimal ∧ decimalRendering.Separates 1 ',' ∧
    ¬ CsvDecodes decimalRendering 1 ',' [{ name := "./a,b" }] := by
  refine ⟨decimalRendering_decimal, decimalRendering_separates 1, fun h => ?_⟩
  have hfits := (fits_of_csvDecodes h).2.2 _ List.mem_cons_self
  exact hfits.2.1 (by decide)

end Bbench.Report
