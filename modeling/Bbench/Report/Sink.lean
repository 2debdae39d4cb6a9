import Bbench.Lib.ShortWrites
import Bbench.Report.Bytes

/-! The sink of `format.hpp`, over a descriptor whose `write` may be short. Each call on a
sink is one `write`, and its result is thrown away. -/

namespace Bbench.Report

open Lib

/-- `sink`, by the descriptor it writes to. -/
structure Sink where
  fd : ℤ
  deriving DecidableEq, Repr

namespace Sink

def stdoutSink : Sink := ⟨1⟩

variable (s : Sink) (k : Acceptor Char)

/-- `emit(s, n)`, by the bytes it is given. -/
def emit (st : Transfer Char) (t : List Char) : Transfer Char :=
  if s.fd < 0 then st else k.write st t

/-- A sequence of calls: each finds its bytes, and hands them to `emit(s, n)`. -/
def emits (r : Rendering) (st : Transfer Char) (es : List Emit) : Transfer Char :=
  es.foldl (fun st e => s.emit k st (e.text r)) st

variable {s k}

/-- On an open sink every call is a `write`. -/
theorem emits_eq_writes (hs : 0 ≤ s.fd) (r : Rendering) (st : Transfer Char) (es : List Emit) :
    s.emits k r st es = k.writes st (es.map (Emit.text r)) := by
  have hopen : s.emit k = k.write := by
    funext st t
    exact if_neg (by omega)
  rw [emits, hopen, Acceptor.writes, List.foldl_map]

/-- On any other, none is. -/
theorem emits_of_neg (hs : s.fd < 0) (r : Rendering) (st : Transfer Char) (es : List Emit) :
    s.emits k r st es = st := by
  have hclosed : s.emit k = fun st _ => st := by
    funext st t
    exact if_pos hs
  rw [emits, hclosed]
  exact List.foldl_fixed es

/-- So no byte arrives that no call has asked for. -/
theorem received_sublist (r : Rendering) (st : Transfer Char) (es : List Emit) :
    (s.emits k r st es).received.Sublist (st.received ++ text r es) := by
  rcases lt_or_ge s.fd 0 with hs | hs
  · rw [emits_of_neg hs]
    exact List.sublist_append_left _ _
  · rw [emits_eq_writes hs, text, List.flatMap_def]
    exact Acceptor.received_writes_sublist st _

/-- The descriptor receives what the calls have asked for exactly when no `write` is short. -/
theorem received_emits_iff (hs : 0 ≤ s.fd) (k : Acceptor Char) (r : Rendering) (es : List Emit) :
    (s.emits k r ⟨[], []⟩ es).received = text r es ↔ k.Whole [] (es.map (Emit.text r)) := by
  rw [emits_eq_writes hs, text, List.flatMap_def]
  exact Acceptor.received_writes_iff ⟨[], []⟩ _

/-- A `write` that takes one character at a time. -/
def single : Acceptor Char where
  accept _ t := min 1 t.length
  le_length _ t := Nat.min_le_right 1 t.length
  pos _ _ ht := Nat.lt_min.mpr ⟨Nat.one_pos, List.length_pos_iff.mpr ht⟩

/-- Calls that write one character each lose nothing to it. -/
theorem received_emits_single : (stdoutSink.emits single decimalRendering ⟨[], []⟩
    [.str "a", .int 7, newline]).received = text decimalRendering [.str "a", .int 7, newline] := by
  refine (received_emits_iff (by decide) single decimalRendering _).mpr ?_
  have hlen : ∀ e ∈ [.str "a", .int 7, newline], (Emit.text decimalRendering e).length = 1 := by
    decide +kernel
  intro pre t post hes
  obtain ⟨e, he, rfl⟩ := List.mem_map.mp (hes ▸ List.mem_append_right pre List.mem_cons_self)
  exact Nat.min_eq_right (hlen e he).le

/-- Of a CSV row for `./a` it takes the dot, and then the separator. -/
theorem not_received_emits : ¬ ∀ s : Sink, 0 ≤ s.fd → ∀ (k : Acceptor Char) (r : Rendering)
    (b : BenchmarkT) (detail : ℕ) (sep : Char),
      (s.emits k r ⟨[], []⟩ (emitCsvOne b detail sep)).received =
        text r (emitCsvOne b detail sep) := by
  intro hall
  have h := hall stdoutSink (by decide) single decimalRendering { name := "./a" } 1 ','
  exact absurd h (by decide +kernel)

end Sink

end Bbench.Report
