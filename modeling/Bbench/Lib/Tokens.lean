import Mathlib.Data.List.Find
import Mathlib.Data.List.TakeWhile
import Mathlib.Data.Nat.Notation

/-! Tokens cut out of a terminated string through a buffer of fixed size. A token is
collected byte by byte, bytes that no longer fit are dropped, and at a separator or at
the end the buffer is terminated and read back. The loop stops with `none` where it
would touch a byte outside the string or a cell outside the buffer; it never does, and
it hands on the non-empty tokens in order, each cut to what the buffer holds. -/

namespace Bbench.Lib

variable {α σ : Type*}

/-- A terminated string: its bytes, none of which is the terminator. -/
structure Terminated (nul : α) where
  bytes : List α
  fresh : nul ∉ bytes

/-- The memory it stands in, with what comes after the terminator. -/
def Terminated.cells {nul : α} (s : Terminated nul) (beyond : List α) : List α :=
  s.bytes ++ nul :: beyond

section Loop
variable [DecidableEq α] {last : ℕ} (sep nul : α) (flush : List α → σ → σ)

/-- The string in a buffer; without a terminator the read would run past the buffer. -/
def readBuf (buf : Vector α (last + 1)) : Option (List α) :=
  if nul ∈ buf.toList then some (buf.toList.takeWhile (· ≠ nul)) else none

/-- A non-empty buffer is terminated, read, and handed on. -/
def flushBuf (buf : Vector α (last + 1)) (bi : ℕ) (h : bi < last + 1) (acc : σ) :
    Option (Vector α (last + 1) × σ) :=
  if 0 < bi then
    let buf := buf.set bi nul
    (readBuf nul buf).map fun t => (buf, flush t acc)
  else some (buf, acc)

/-- The character loop. The index is in range at the head of every round. -/
def tokenLoop : List α → Vector α (last + 1) → ℕ → σ → Option σ
  | [], _, _, _ => none
  | c :: cs, buf, bi, acc =>
    if h : bi < last + 1 then
      if c = sep ∨ c = nul then
        match flushBuf nul flush buf bi h acc with
        | none => none
        | some (buf, acc) => if c = nul then some acc else tokenLoop cs buf 0 acc
      else if bi < last then tokenLoop cs (buf.set bi c) (bi + 1) acc
      else tokenLoop cs buf bi acc
    else none

end Loop

section Cut
variable [DecidableEq α]

/-- The non-empty tokens of a string. -/
def tokens (sep : α) (s : List α) : List (List α) := (s.splitOn sep).filter (· ≠ [])

theorem ne_nil_of_mem_tokens {sep : α} {s t : List α} (h : t ∈ tokens sep s) : t ≠ [] := by
  simpa using (List.mem_filter.mp h).2

end Cut

section Correct
variable {last : ℕ} {sep nul : α} {flush : List α → σ → σ}

theorem toList_set_eq (buf : Vector α (last + 1)) {bi : ℕ} (h : bi < last + 1) (c : α) :
    (buf.set bi c).toList = buf.toList.take bi ++ c :: buf.toList.drop (bi + 1) := by
  rw [Vector.toList_set, List.set_eq_take_append_cons_drop, if_pos (by simpa using h)]

theorem take_set_succ (buf : Vector α (last + 1)) {bi : ℕ} (h : bi < last + 1) (c : α) :
    (buf.set bi c).toList.take (bi + 1) = buf.toList.take bi ++ [c] := by
  have hlen : (buf.toList.take bi).length = bi := by
    rw [List.length_take, Vector.length_toList]
    omega
  rw [toList_set_eq buf h, List.take_append, hlen, List.take_of_length_le (by omega)]
  simp

variable [DecidableEq α]

/-- The cells before the terminator are read back. -/
theorem readBuf_set {buf : Vector α (last + 1)} {bi : ℕ} (h : bi < last + 1)
    (hcur : nul ∉ buf.toList.take bi) :
    readBuf nul (buf.set bi nul) = some (buf.toList.take bi) := by
  have hall : ∀ c ∈ buf.toList.take bi, decide (c ≠ nul) = true := by
    intro c hc
    exact decide_eq_true fun heq => hcur (heq ▸ hc)
  rw [readBuf, toList_set_eq buf h, if_pos (by simp), List.takeWhile_append_of_pos hall]
  simp

/-- What the loop does with one piece between separators. -/
def flushPiece (last : ℕ) (flush : List α → σ → σ) (acc : σ) (t : List α) : σ :=
  if t.take last = [] then acc else flush (t.take last) acc

theorem flushBuf_eq (flush : List α → σ → σ) {buf : Vector α (last + 1)} {bi : ℕ} (hbi : bi ≤ last)
    (hcur : nul ∉ buf.toList.take bi) (acc : σ) :
    ∃ buf', flushBuf nul flush buf bi (Nat.lt_succ_of_le hbi) acc =
      some (buf', flushPiece last flush acc (buf.toList.take bi)) := by
  have htake : (buf.toList.take bi).take last = buf.toList.take bi := by
    rw [List.take_take, Nat.min_eq_right hbi]
  rw [flushBuf, flushPiece, htake]
  rcases Nat.eq_zero_or_pos bi with rfl | hpos
  · exact ⟨buf, by simp⟩
  · have hne : buf.toList.take bi ≠ [] := by
      rw [← List.length_pos_iff, List.length_take, Vector.length_toList]
      omega
    rw [if_pos hpos, if_neg hne]
    simp only [readBuf_set (Nat.lt_succ_of_le hbi) hcur, Option.map_some]
    exact ⟨_, rfl⟩

/-- The loop in the middle of a token: the buffer holds the start of the first piece. -/
theorem tokenLoop_eq (s : List α) (hs : nul ∉ s) (beyond : List α) (buf : Vector α (last + 1))
    (bi : ℕ) (hbi : bi ≤ last) (hcur : nul ∉ buf.toList.take bi) (acc : σ) :
    tokenLoop sep nul flush (s ++ nul :: beyond) buf bi acc =
      some (((s.splitOn sep).modifyHead (buf.toList.take bi ++ ·)).foldl
        (flushPiece last flush) acc) := by
  induction s generalizing buf bi acc with
  | nil =>
    obtain ⟨buf', hflush⟩ := flushBuf_eq flush hbi hcur acc
    rw [List.nil_append, tokenLoop, dif_pos (Nat.lt_succ_of_le hbi), if_pos (Or.inr rfl), hflush]
    simp
  | cons c s ih =>
    obtain ⟨hc, hs⟩ : c ≠ nul ∧ nul ∉ s := by
      rw [List.mem_cons, not_or] at hs
      exact ⟨Ne.symm hs.1, hs.2⟩
    obtain ⟨t, ts, hts⟩ := List.exists_cons_of_ne_nil (List.splitOn_ne_nil sep s)
    rw [List.cons_append, tokenLoop, dif_pos (Nat.lt_succ_of_le hbi),
      List.splitOn_cons_eq_if_modifyHead]
    by_cases hsep : c = sep
    · -- a separator: the piece is complete, and the next one starts empty
      obtain ⟨buf', hflush⟩ := flushBuf_eq flush hbi hcur acc
      rw [if_pos (Or.inl hsep), if_pos (beq_iff_eq.mpr hsep), hflush]
      simp only [if_neg hc]
      rw [ih hs buf' 0 (Nat.zero_le _) (by simp), hts]
      simp
    · have hbeq : ¬ (c == sep) = true := by simpa using hsep
      rw [if_neg (not_or.mpr ⟨hsep, hc⟩), if_neg hbeq, hts]
      by_cases hfull : bi < last
      · have hcur' : nul ∉ (buf.set bi c).toList.take (bi + 1) := by
          rw [take_set_succ, List.mem_append, List.mem_singleton]
          exact not_or.mpr ⟨hcur, Ne.symm hc⟩
        rw [if_pos hfull, ih hs _ _ hfull hcur', take_set_succ, hts]
        simp
      · -- the buffer is full, and the byte is dropped
        obtain rfl : bi = last := by omega
        rw [if_neg hfull, ih hs _ _ hbi hcur, hts]
        have hlen : (buf.toList.take bi).length = bi := by
          rw [List.length_take, Vector.length_toList]
          omega
        simp only [List.modifyHead_cons, List.foldl_cons, flushPiece]
        congr 2
        simp [hlen]

/-- The whole loop: it ends, inside its string and its buffer, and the non-empty tokens
are handed on in order, each cut to the length of the buffer. -/
theorem tokenLoop_cells (hlast : 0 < last) (s : Terminated nul) (beyond : List α)
    (buf : Vector α (last + 1)) (acc : σ) :
    tokenLoop sep nul flush (s.cells beyond) buf 0 acc =
      some ((tokens sep s.bytes).foldl (fun acc t => flush (t.take last) acc) acc) := by
  have hpiece : flushPiece last flush = fun acc t =>
      if t = [] then acc else flush (t.take last) acc := by
    funext acc t
    have hnil : t.take last = [] ↔ t = [] := by
      rw [List.take_eq_nil_iff]
      exact or_iff_right (Nat.ne_of_gt hlast)
    simp only [flushPiece, hnil]
  rw [Terminated.cells, tokenLoop_eq s.bytes s.fresh beyond buf 0 (Nat.zero_le _) (by simp),
    tokens, List.foldl_filter]
  obtain ⟨t, ts, hts⟩ := List.exists_cons_of_ne_nil (List.splitOn_ne_nil sep s.bytes)
  simp [hts, hpiece]

end Correct

/-! ### Tables of short names -/

/-- A name shorter than the buffer is found under exactly the tokens equal to it. -/
theorem find?_take [DecidableEq α] {β : Type*} {last : ℕ} (name : β → List α) (table : List β)
    (hshort : ∀ e ∈ table, (name e).length < last) (t : List α) :
    (table.find? fun e => name e = t.take last) = table.find? fun e => name e = t := by
  refine List.find?_congr fun e he => decide_eq_decide.mpr ?_
  have hlen := hshort e he
  constructor
  · intro h
    rw [h, List.length_take] at hlen
    rw [h, List.take_of_length_le (by omega)]
  · intro h
    rw [← h, List.take_of_length_le (by omega)]

/-- With distinct names, the entries of one name are at most the one that is found. -/
theorem filter_eq_toList_find? {β γ : Type*} [DecidableEq γ] (name : β → γ) {table : List β}
    (hnodup : (table.map name).Nodup) (k : γ) :
    (table.filter fun e => name e = k) = (table.find? fun e => name e = k).toList := by
  induction table with
  | nil => rfl
  | cons e table ih =>
    obtain ⟨he, htable⟩ := List.nodup_cons.mp hnodup
    by_cases hk : name e = k
    · have hrest : (table.filter fun e => name e = k) = [] := by
        rw [List.filter_eq_nil_iff]
        intro e' he' hk'
        exact he (hk.trans (of_decide_eq_true hk').symm ▸ List.mem_map_of_mem he')
      simp [hk, hrest]
    · simp [hk, ih htable]

end Bbench.Lib
