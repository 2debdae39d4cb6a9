import Bbench.Lib.Tokens
import Bbench.Perf.Events

/-! `parse_event_list` on the memory it reads and writes: the option's value stands
before a NUL, and the current token in the 64 cells of `buf`. No name of the table is
as long as the buffer, so that a token cut to it is never taken for a known one. -/

namespace Bbench.Perf

open Lib (tokens)

/-- The branch for a non-empty token. -/
def flushEvent (buf : List Char) (r : Bool × List EventDef) : Bool × List EventDef :=
  match lookupEvent (String.ofList buf) with
  | some e => (r.1, r.2 ++ [e])
  | none => (false, r.2)

/-- `parse_event_list` with `csv` as the memory it points to, if it is not null, and
`buf` as the automatic array finds it. `none` would be an access out of bounds. -/
def parseEventListMem (buf : Vector Char (bufMax + 1)) (csv : Option (List Char))
    (out : List EventDef) : Option (Bool × List EventDef) :=
  match csv with
  | none => some (true, out)
  | some mem => Lib.tokenLoop ',' '\x00' flushEvent mem buf 0 (true, out)

/-! ### The table -/

theorem knownEvents_short : ∀ e ∈ knownEvents, e.name.toList.length < bufMax := by decide +kernel

theorem knownEvents_nodup : (knownEvents.map EventDef.name).Nodup := by decide +kernel

/-- A token that was cut is not found, and any other is what it was. -/
theorem lookupEvent_take (t : List Char) :
    lookupEvent (String.ofList (t.take bufMax)) = lookupEvent (String.ofList t) := by
  have h := Lib.find?_take (fun e : EventDef => e.name.toList) knownEvents knownEvents_short t
  simpa only [lookupEvent, String.ext_iff, String.toList_ofList] using h

/-- The entries of one name. -/
theorem filter_knownEvents (name : String) :
    (knownEvents.filter fun e => e.name = name) = (lookupEvent name).toList :=
  Lib.filter_eq_toList_find? EventDef.name knownEvents_nodup name

theorem isSome_lookupEvent (name : String) :
    (lookupEvent name).isSome ↔ ∃ e ∈ knownEvents, e.name = name := by
  simp [lookupEvent, List.find?_isSome]

/-! ### The whole list -/

/-- What the tokens leave: each known one its entry, and an unknown one `false`. -/
theorem foldl_flushEvent (ts : List (List Char)) (ok : Bool) (out : List EventDef) :
    ts.foldl (fun r t => flushEvent (t.take bufMax) r) (ok, out) =
      (ok && decide (∀ t ∈ ts, ∃ e ∈ knownEvents, e.name = String.ofList t),
        out ++ ts.flatMap fun t => knownEvents.filter fun e => e.name = String.ofList t) := by
  induction ts generalizing ok out with
  | nil => simp
  | cons t ts ih =>
    have hknown := isSome_lookupEvent (String.ofList t)
    rw [List.foldl_cons, flushEvent, lookupEvent_take, List.flatMap_cons, filter_knownEvents]
    cases ht : lookupEvent (String.ofList t) with
    | none =>
      rw [ht] at hknown
      simp [ih, ← hknown]
    | some e =>
      rw [ht] at hknown
      simp [ih, ← hknown]

/-! ### The same loop on lists -/

theorem flushToken_eq (buf : List Char) (hbuf : buf.length ≤ bufMax) (r : Bool × List EventDef) :
    flushToken buf r.1 r.2 = Lib.flushPiece bufMax flushEvent r buf := by
  rw [flushToken, Lib.flushPiece, List.take_of_length_le hbuf]
  rfl

theorem parseEventLoop_eq (cs buf : List Char) (hbuf : buf.length ≤ bufMax) (ok : Bool)
    (out : List EventDef) : parseEventLoop cs buf ok out =
      ((cs.splitOn ',').modifyHead (buf ++ ·)).foldl (Lib.flushPiece bufMax flushEvent)
        (ok, out) := by
  induction cs generalizing buf ok out with
  | nil => simp [parseEventLoop, ← flushToken_eq buf hbuf]
  | cons c cs ih =>
    obtain ⟨t, ts, hts⟩ := List.exists_cons_of_ne_nil (List.splitOn_ne_nil ',' cs)
    rw [parseEventLoop, List.splitOn_cons_eq_if_modifyHead]
    by_cases hc : c = ','
    · rw [if_pos hc, if_pos (beq_iff_eq.mpr hc), ih [] (Nat.zero_le _), hts]
      simp [flushToken_eq buf hbuf (ok, out)]
    · have hbeq : ¬ (c == ',') = true := by simpa using hc
      rw [if_neg hc, if_neg hbeq, hts]
      by_cases hfull : buf.length < bufMax
      · rw [if_pos hfull, ih _ (by simpa [Nat.succ_le_iff] using hfull), hts]
        simp
      · have hlen : buf.length = bufMax := by omega
        rw [if_neg hfull, ih _ hbuf, hts]
        simp [Lib.flushPiece, ← hlen]

/-- The loop on memory computes what the loop on lists computes. -/
theorem parseEventListMem_eq (buf : Vector Char (bufMax + 1)) (csv : Lib.Terminated '\x00')
    (beyond : List Char) (out : List EventDef) :
    parseEventListMem buf (some (csv.cells beyond)) out =
      some (parseEventList (String.ofList csv.bytes) out) := by
  rw [parseEventList, String.toList_ofList, parseEventLoop_eq _ [] (Nat.zero_le _)]
  exact Lib.tokenLoop_eq csv.bytes csv.fresh beyond buf 0 (Nat.zero_le _) (by simp) (true, out)

/-- Split and look up. Whatever the string, the contents of `buf` and what lies beyond
both, the function ends inside its buffer; it appends the entries of the non-empty
tokens that are known names, in order, and returns true when all of them are. -/
theorem parseEventList_tokens (buf : Vector Char (bufMax + 1)) (csv : Lib.Terminated '\x00')
    (beyond : List Char) (out : List EventDef) :
    parseEventListMem buf (some (csv.cells beyond)) out =
        some (parseEventList (String.ofList csv.bytes) out) ∧
      ((parseEventList (String.ofList csv.bytes) out).1 = true ↔
        ∀ t ∈ tokens ',' csv.bytes, ∃ e ∈ knownEvents, e.name = String.ofList t) ∧
      (parseEventList (String.ofList csv.bytes) out).2 =
        out ++ (tokens ',' csv.bytes).flatMap fun t =>
          knownEvents.filter fun e => e.name = String.ofList t := by
  have hmem := parseEventListMem_eq buf csv beyond out
  have htokens : parseEventListMem buf (some (csv.cells beyond)) out = some _ :=
    Lib.tokenLoop_cells (by decide) csv beyond buf (true, out)
  rw [foldl_flushEvent, hmem] at htokens
  refine ⟨hmem, ?_, ?_⟩
  · simp [Option.some.inj htokens]
  · simp [Option.some.inj htokens]

end Bbench.Perf
