import Bbench.Cli.Accepted
import Bbench.Cli.Btime

/-! The command line of `btime`. Its loop stops at the first operand, which is the
program; what follows is not looked at. The options before it are those of `bbench`
with the same meaning, and `-q`, so `bbench` accepts every command line of `btime`
without `-q`, up to the program. -/

namespace Bbench.Cli

open LastWrite

structure BtimeOpts where
  nRuns : ℕ := 1
  /-- The NUL character stands for the human format. -/
  csvSep : Char := Char.ofNat 0
  quiet : Bool := false
  deriving DecidableEq, Repr

/-- What one argument does. -/
inductive BtimeTurn
  /-- The usage text is printed, and `main` returns this. -/
  | usage (code : ℤ)
  /-- The behaviour is undefined after an overflow in `parse_int`. -/
  | undefined
  /-- The new options, and whether the next argument was consumed as a value. -/
  | taken (out : BtimeOpts) (used : Bool)
  /-- It is the program, and the loop ends. -/
  | path
  deriving DecidableEq, Repr

/-- How the loop ends. -/
inductive BtimeArgs
  | usage (code : ℤ)
  | undefined
  | measure (path : String) (out : BtimeOpts)
  deriving DecidableEq, Repr

section Loop
variable (ovf : ℤ → Option ℤ)

/-- The body of the loop: argument `a`, with `next` after it. -/
def btimeArg (a : String) (next : Option String) (out : BtimeOpts) : BtimeTurn :=
  if a = "-r" then
    match next with
    | none => .usage (-1)
    | some v =>
      -- `v` is not set when the call returns false, and not read either
      match btimeParseInt ovf v 0 with
      | none => .undefined
      | some (ok, n) =>
        if ok = false ∨ n < 1 then .usage (-1) else .taken { out with nRuns := n.toNat } true
  else if a = "-x" then
    match next with
    | none => .usage (-1)
    | some s => .taken { out with csvSep := sepOf s } true
  else if a = "-q" then .taken { out with quiet := true } false
  else if a = "-h" ∨ a = "--help" then .usage 0
  else if isDashed a then .usage (-1)
  else .path

/-- The loop. Without an operand, `path` is still null after it. -/
def btimeArgs : List String → BtimeOpts → BtimeArgs
  | [], _ => .usage (-1)
  | [a], out =>
    match btimeArg ovf a none out with
    | .usage code => .usage code
    | .undefined => .undefined
    | .taken _ _ => .usage (-1)
    | .path => .measure a out
  | a :: v :: rest, out =>
    match btimeArg ovf a (some v) out with
    | .usage code => .usage code
    | .undefined => .undefined
    | .taken out' true => btimeArgs rest out'
    | .taken out' false => btimeArgs (v :: rest) out'
    | .path => .measure a out

/-- `main` of `btime.cpp` up to the measurements; `argc < 2` is the empty list. -/
def btimeArgv (argv : List String) : BtimeArgs := btimeArgs ovf (argv.drop 1) {}

theorem btimeArgs_cons (a : String) (rest : List String) (out : BtimeOpts) :
    btimeArgs ovf (a :: rest) out = match btimeArg ovf a rest.head? out with
      | .usage code => .usage code
      | .undefined => .undefined
      | .taken out' true => btimeArgs ovf rest.tail out'
      | .taken out' false => btimeArgs ovf rest out'
      | .path => .measure a out := by
  cases rest with
  | nil =>
    simp only [btimeArgs, List.head?_nil, List.tail_nil]
    cases btimeArg ovf a none out with
    | taken out' used => cases used <;> rfl
    | _ => rfl
  | cons v rest => rfl

end Loop

/-! ### Items -/

/-- An option before the program. -/
inductive BtimeItem
  | runs (v : String) (n : ℤ)
  | sep (v : String)
  | quiet
  deriving DecidableEq, Repr

namespace BtimeItem

/-- The arguments an item takes up. -/
def args : BtimeItem → List String
  | runs v _ => ["-r", v]
  | sep v => ["-x", v]
  | quiet => ["-q"]

def Valid (ovf : ℤ → Option ℤ) : BtimeItem → Prop
  | runs v n => btimeParseInt ovf v 0 = some (true, n) ∧ 1 ≤ n
  | _ => True

def runs? : BtimeItem → Option ℤ
  | runs _ n => some n
  | _ => none

def sep? : BtimeItem → Option String
  | sep v => some v
  | _ => none

/-- What one item does to the options. -/
def apply (out : BtimeOpts) (it : BtimeItem) : BtimeOpts where
  nRuns := (it.runs?.map Int.toNat).getD out.nRuns
  csvSep := (it.sep?.map sepOf).getD out.csvSep
  quiet := if it = quiet then true else out.quiet

end BtimeItem

/-- The options a sequence of items stands for. -/
def btimeOpts (items : List BtimeItem) : BtimeOpts where
  nRuns := ((lastOf BtimeItem.runs? items).map Int.toNat).getD 1
  csvSep := ((lastOf BtimeItem.sep? items).map sepOf).getD (Char.ofNat 0)
  quiet := decide (.quiet ∈ items)

/-- The arguments are the spelling of these items, the program, and anything. -/
def BtimeDerives (ovf : ℤ → Option ℤ) (items : List BtimeItem) (path : String)
    (args : List String) : Prop :=
  (∀ it ∈ items, it.Valid ovf) ∧ isDashed path = false ∧
    ∃ rest, args = items.flatMap BtimeItem.args ++ path :: rest

section Grammar
variable {ovf : ℤ → Option ℤ} {items items' : List BtimeItem} {path path' : String}
  {args : List String} {out : BtimeOpts}

theorem nRuns_foldl (items : List BtimeItem) :
    (items.foldl BtimeItem.apply {}).nRuns = (btimeOpts items).nRuns := by
  have h : ∀ (out : BtimeOpts) (it : BtimeItem),
      (it.apply out).nRuns = (it.runs?.map Int.toNat).getD out.nRuns := fun _ _ => rfl
  rw [btimeOpts, ← lastOf_map]
  exact foldl_field h {} items

theorem csvSep_foldl (items : List BtimeItem) :
    (items.foldl BtimeItem.apply {}).csvSep = (btimeOpts items).csvSep := by
  have h : ∀ (out : BtimeOpts) (it : BtimeItem),
      (it.apply out).csvSep = (it.sep?.map sepOf).getD out.csvSep := fun _ _ => rfl
  rw [btimeOpts, ← lastOf_map BtimeItem.sep? sepOf]
  exact foldl_field h {} items

theorem quiet_foldl (items : List BtimeItem) (out : BtimeOpts) :
    (items.foldl BtimeItem.apply out).quiet = (decide (.quiet ∈ items) || out.quiet) := by
  induction items generalizing out with
  | nil => rfl
  | cons it items ih =>
    rw [List.foldl_cons, ih]
    by_cases hit : it = .quiet
    · simp [hit, BtimeItem.apply]
    · simp [hit, BtimeItem.apply, Ne.symm hit]

theorem foldl_apply (items : List BtimeItem) :
    items.foldl BtimeItem.apply {} = btimeOpts items := by
  have hnRuns := nRuns_foldl items
  have hsep := csvSep_foldl items
  have hquiet : (items.foldl BtimeItem.apply {}).quiet = (btimeOpts items).quiet := by
    simp [quiet_foldl, btimeOpts]
  cases hfold : items.foldl BtimeItem.apply {}
  rw [hfold] at hnRuns hsep hquiet
  simp only at hnRuns hsep hquiet
  rw [hnRuns, hsep, hquiet]

/-! ### One turn of the loop -/

/-- A valid item is consumed whole, whatever its value looks like. -/
theorem btimeArg_item {it : BtimeItem} (hv : it.Valid ovf) (next : Option String)
    (out : BtimeOpts) :
    (∃ a, it.args = [a] ∧ btimeArg ovf a next out = .taken (it.apply out) false) ∨
      ∃ a v, it.args = [a, v] ∧ btimeArg ovf a (some v) out = .taken (it.apply out) true := by
  cases it with
  | runs v n =>
    obtain ⟨hparse, hpos⟩ := hv
    refine .inr ⟨"-r", v, rfl, ?_⟩
    have hlow : ¬ n < 1 := by omega
    simp [btimeArg, hparse, hlow, BtimeItem.apply, BtimeItem.runs?, BtimeItem.sep?]
  | sep v => exact .inr ⟨"-x", v, rfl, rfl⟩
  | quiet => exact .inl ⟨"-q", rfl, rfl⟩

/-- An argument that starts with no dash, or is one, is the program. -/
theorem btimeArg_path (h : isDashed path = false) (next : Option String) (out : BtimeOpts) :
    btimeArg ovf path next out = .path := by
  have hne (f : String) (hf : isDashed f = true) : path ≠ f := by
    rintro rfl
    rw [h] at hf
    cases hf
  simp [btimeArg, hne "-r" rfl, hne "-x" rfl, hne "-q" rfl, hne "-h" rfl, hne "--help" rfl, h]

theorem btimeArg_inv {a : String} {next : Option String} {out' : BtimeOpts} {used : Bool}
    (h : btimeArg ovf a next out = .taken out' used) :
    ∃ it : BtimeItem, it.Valid ovf ∧ out' = it.apply out ∧
      (used = false ∧ it.args = [a] ∨ used = true ∧ ∃ v, next = some v ∧ it.args = [a, v]) := by
  unfold btimeArg at h
  split_ifs at h with hr hx hq hhelp hdash
  · subst hr
    split at h
    · cases h
    · rename_i v
      split at h
      · cases h
      · rename_i ok n hparse
        split_ifs at h with hbad
        cases h
        simp only [not_or, Bool.not_eq_false, Int.not_lt] at hbad
        obtain ⟨rfl, hpos⟩ := hbad
        exact ⟨.runs v n, ⟨hparse, hpos⟩, rfl, .inr ⟨rfl, v, rfl, rfl⟩⟩
  · subst hx
    split at h <;> cases h
    exact ⟨.sep _, trivial, rfl, .inr ⟨rfl, _, rfl, rfl⟩⟩
  · subst hq
    cases h
    exact ⟨.quiet, trivial, rfl, .inl ⟨rfl, rfl⟩⟩

theorem isDashed_of_btimeArg {a : String} {next : Option String}
    (h : btimeArg ovf a next out = .path) : isDashed a = false := by
  unfold btimeArg at h
  split_ifs at h with hr hx hq hhelp hdash
  · split at h
    · cases h
    · split at h
      · cases h
      · split at h <;> cases h
  · split at h <;> cases h
  · exact eq_false_of_ne_true hdash

/-! ### The loop -/

theorem btimeArgs_append (hv : ∀ it ∈ items, it.Valid ovf) (hpath : isDashed path = false)
    (rest : List String) (out : BtimeOpts) :
    btimeArgs ovf (items.flatMap BtimeItem.args ++ path :: rest) out =
      .measure path (items.foldl BtimeItem.apply out) := by
  induction items generalizing out with
  | nil => rw [List.flatMap_nil, List.nil_append, btimeArgs_cons, btimeArg_path hpath]; rfl
  | cons it items ih =>
    have htail := ih (fun i hi => hv i (List.mem_cons_of_mem it hi)) (it.apply out)
    rw [List.flatMap_cons, List.append_assoc, List.foldl_cons, ← htail]
    obtain ⟨a, ha, hturn⟩ | ⟨a, v, ha, hturn⟩ := btimeArg_item (hv it List.mem_cons_self)
      (items.flatMap BtimeItem.args ++ path :: rest).head? out
    · rw [ha, List.singleton_append, btimeArgs_cons, hturn]
    · rw [ha, List.cons_append, btimeArgs_cons, List.singleton_append, List.head?_cons, hturn,
        List.tail_cons]

theorem derives_of_btimeArgs {out' : BtimeOpts} (h : btimeArgs ovf args out = .measure path out') :
    ∃ items, BtimeDerives ovf items path args ∧ out' = items.foldl BtimeItem.apply out := by
  induction hn : args.length using Nat.strongRecOn generalizing args out with
  | ind n ih =>
    subst hn
    cases args with
    | nil => cases h
    | cons a rest =>
      rw [btimeArgs_cons] at h
      cases hturn : btimeArg ovf a rest.head? out with
      | usage code => rw [hturn] at h; cases h
      | undefined => rw [hturn] at h; cases h
      | path =>
        rw [hturn] at h
        cases h
        exact ⟨[], ⟨by simp, isDashed_of_btimeArg hturn, rest, rfl⟩, rfl⟩
      | taken mid used =>
        obtain ⟨it, hv, rfl, ⟨rfl, ha⟩ | ⟨rfl, v, hnext, ha⟩⟩ := btimeArg_inv hturn
        · rw [hturn] at h
          obtain ⟨items, ⟨hvs, hpath, more, hmore⟩, rfl⟩ := ih rest.length (by simp) h rfl
          refine ⟨it :: items, ⟨List.forall_mem_cons.mpr ⟨hv, hvs⟩, hpath, more, ?_⟩, rfl⟩
          rw [List.flatMap_cons, ha, hmore]
          rfl
        · rw [hturn] at h
          obtain ⟨tail, rfl⟩ : ∃ tail, rest = v :: tail := by
            cases rest with
            | nil => cases hnext
            | cons w tail => cases hnext; exact ⟨tail, rfl⟩
          obtain ⟨items, ⟨hvs, hpath, more, hmore⟩, rfl⟩ :=
            ih tail.length (by simp only [List.length_cons]; omega) h rfl
          refine ⟨it :: items, ⟨List.forall_mem_cons.mpr ⟨hv, hvs⟩, hpath, more, ?_⟩, rfl⟩
          change tail = _ at hmore
          rw [List.flatMap_cons, ha, hmore]
          rfl

theorem btimeArgv_eq_measure {argv : List String} : btimeArgv ovf argv = .measure path out ↔
    ∃ items, BtimeDerives ovf items path (argv.drop 1) ∧ out = btimeOpts items := by
  constructor
  · intro h
    obtain ⟨items, hd, rfl⟩ := derives_of_btimeArgs h
    exact ⟨items, hd, foldl_apply items⟩
  · rintro ⟨items, ⟨hv, hpath, rest, hargs⟩, rfl⟩
    rw [btimeArgv, hargs, btimeArgs_append hv hpath, foldl_apply]

/-- Two items that start the same arguments are the same item. -/
theorem BtimeItem.eq_of_args_append {it it' : BtimeItem} (hv : it.Valid ovf) (hv' : it'.Valid ovf)
    {rest rest' : List String} (h : it.args ++ rest = it'.args ++ rest') : it = it' := by
  cases it <;> cases it' <;>
    simp only [args, List.cons_append, List.nil_append, List.cons.injEq, String.reduceEq,
      false_and] at h
  · obtain ⟨-, rfl, -⟩ := h
    have hn := Option.some.inj (hv.1.symm.trans hv'.1)
    rw [(Prod.mk.inj hn).2]
  · rw [h.2.1]
  · rfl

/-- No command line has two readings: an item is known by its first argument, and an
operand starts none. -/
theorem btimeDerives_unique (h : BtimeDerives ovf items path args)
    (h' : BtimeDerives ovf items' path' args) : items = items' ∧ path = path' := by
  obtain ⟨hv, hpath, rest, hargs⟩ := h
  obtain ⟨hv', hpath', rest', hargs'⟩ := h'
  have hoperand (it : BtimeItem) (p : String) (hp : isDashed p = false) (more more' : List String) :
      it.args ++ more ≠ p :: more' := by
    intro heq
    have hhead : it.args.head? = some p := by
      cases it <;> exact congrArg List.head? heq
    have hdash : isDashed p = true := by
      cases it <;> cases hhead <;> decide
    rw [hp] at hdash
    cases hdash
  subst hargs
  induction items generalizing items' with
  | nil =>
    cases items' with
    | nil => exact ⟨rfl, (List.cons.inj hargs').1⟩
    | cons it items' =>
      rw [List.flatMap_cons, List.append_assoc] at hargs'
      exact absurd hargs'.symm (hoperand it path hpath _ _)
  | cons it items ih =>
    rw [List.flatMap_cons, List.append_assoc] at hargs'
    cases items' with
    | nil => exact absurd hargs' (hoperand it path' hpath' _ _)
    | cons it' items' =>
      obtain ⟨hit, hits⟩ := List.forall_mem_cons.mp hv
      obtain ⟨hit', hits'⟩ := List.forall_mem_cons.mp hv'
      rw [List.flatMap_cons, List.append_assoc] at hargs'
      obtain rfl := BtimeItem.eq_of_args_append hit hit' hargs'
      obtain ⟨rfl, hp⟩ := ih hits hits' (List.append_cancel_left hargs')
      exact ⟨rfl, hp⟩

/-- The command line of `btime`. It measures a program exactly when its arguments are a
sequence of options, each spelled out, an operand, which is the program, and whatever
follows it; the sequence is unique, and each option has the value of its last occurrence. -/
theorem btimeArgv_grammar (ovf : ℤ → Option ℤ) (argv : List String) :
    (∀ path out, btimeArgv ovf argv = .measure path out ↔
      ∃ items, BtimeDerives ovf items path (argv.drop 1) ∧ out = btimeOpts items) ∧
    ∀ items items' path path', BtimeDerives ovf items path (argv.drop 1) →
      BtimeDerives ovf items' path' (argv.drop 1) → items = items' ∧ path = path' :=
  ⟨fun _ _ => btimeArgv_eq_measure, fun _ _ _ _ h h' => btimeDerives_unique h h'⟩

end Grammar

/-! ### The same command line for `bbench` -/

section Both
variable {items : List BtimeItem} {path : String}

/-- What `btime` reads as a number, `bbench` reads as the same number. -/
theorem parseInt_of_btimeParseInt {v : String} {n : ℤ}
    (h : btimeParseInt (fun _ => none) v 0 = some (true, n)) : parseInt v = .value n := by
  have hne : v.toList ≠ [] := by
    intro hnil
    rw [btimeParseInt, if_pos hnil] at h
    cases h
  rw [btimeParseInt, if_neg hne] at h
  -- it has no blank in front, since `btime` does not skip one
  have hhead : v.toList.head? ≠ some ' ' := by
    intro hblank
    obtain ⟨cs, hcs⟩ := List.head?_eq_some_iff.mp hblank
    rw [hcs, readSigned_of_not_startsDigit _ _ rfl] at h
    cases h
  have hboth := bbenchParseInt_strict v 0
  rw [bbenchParseInt, if_neg hne, skipSpaces_of_head hhead, h] at hboth
  split at hboth <;> cases hboth
  assumption

/-- The item of `bbench` with the same spelling; there is none for `-q`. -/
def BtimeItem.toItem : BtimeItem → Item
  | runs v n => .int "-r" v n
  | sep v => .str "-x" v
  | quiet => .flag "-q"

theorem BtimeItem.args_toItem (it : BtimeItem) : it.toItem.args = it.args := by
  cases it <;> rfl

theorem BtimeItem.valid_toItem {it : BtimeItem} (hv : it.Valid fun _ => none)
    (hquiet : it ≠ .quiet) : it.toItem.Valid := by
  cases it with
  | runs v n => exact ⟨parseInt_of_btimeParseInt hv.1, .inl ⟨by decide, hv.2⟩⟩
  | sep v => exact (by decide : "-x" ∈ strFlags)
  | quiet => exact absurd rfl hquiet

theorem valid_path (hpath : isDashed path = false) : (Item.path path).Valid := by
  refine ⟨fun hmem => ?_, hpath⟩
  have hall : ∀ f ∈ noValueFlags ++ strFlags ++ runFlags ++ timeFlags, isDashed f = true := by
    decide
  rw [hall path hmem] at hpath
  cases hpath

/-- The options of `bbench` that `btime` has too. -/
def BtimeOpts.toCliOpts (out : BtimeOpts) (paths : List String) : CliOpts :=
  { nRuns := out.nRuns, csvSep := out.csvSep, paths := paths }

theorem BtimeItem.apply_toItem {it : BtimeItem} (hquiet : it ≠ .quiet) (out : BtimeOpts) :
    it.toItem.apply (out.toCliOpts []) = (it.apply out).toCliOpts [] := by
  cases it with
  | runs v n => rfl
  | sep v => rfl
  | quiet => exact absurd rfl hquiet

theorem foldl_toItem (hquiet : .quiet ∉ items) (out : BtimeOpts) :
    (items.map BtimeItem.toItem).foldl Item.apply (out.toCliOpts []) =
      (items.foldl BtimeItem.apply out).toCliOpts [] := by
  induction items generalizing out with
  | nil => rfl
  | cons it items ih =>
    rw [List.mem_cons, not_or] at hquiet
    rw [List.map_cons, List.foldl_cons, List.foldl_cons,
      BtimeItem.apply_toItem (Ne.symm hquiet.1), ih hquiet.2]

theorem derives_toItem (hv : ∀ it ∈ items, it.Valid fun _ => none) (hquiet : .quiet ∉ items)
    (hpath : isDashed path = false) :
    Derives (items.map BtimeItem.toItem ++ [.path path])
      (items.flatMap BtimeItem.args ++ [path]) := by
  constructor
  · simp only [List.mem_append, List.mem_map, List.mem_singleton]
    rintro _ (⟨it, hit, rfl⟩ | rfl)
    · exact BtimeItem.valid_toItem (hv it hit) fun h => hquiet (h ▸ hit)
    · exact valid_path hpath
  · rw [List.flatMap_append, List.flatMap_map]
    simp only [BtimeItem.args_toItem]
    rfl

/-- `bbench` understands `btime`. When `btime` measures a program with its labels on, the
arguments up to the program are a command line of `bbench` for the same program, as often
and with the same separator, and with no other option set. -/
theorem btime_bbench (argv : List String) (path : String) (out : BtimeOpts)
    (h : btimeArgv (fun _ => none) argv = .measure path out) (hquiet : out.quiet = false) :
    ∃ used rest, argv.drop 1 = used ++ rest ∧ used.getLast? = some path ∧
      parseArgv ("bbench" :: used) = .ok (out.toCliOpts [path]) := by
  obtain ⟨items, ⟨hv, hpath, rest, hargs⟩, rfl⟩ := btimeArgv_eq_measure.mp h
  have hnot : .quiet ∉ items := of_decide_eq_false hquiet
  refine ⟨items.flatMap BtimeItem.args ++ [path], rest, ?_, by simp, ?_⟩
  · rw [hargs, List.append_assoc]
    rfl
  · have hfold : applyAll (items.map BtimeItem.toItem ++ [.path path]) =
        (btimeOpts items).toCliOpts [path] := by
      rw [applyAll, List.foldl_append, ← foldl_apply]
      exact congrArg (Item.apply · (.path path)) (foldl_toItem hnot {})
    exact parseArgv_eq_ok.mpr ⟨_, derives_toItem hv hnot hpath, hfold.symm, List.cons_ne_nil _ _⟩

/-- `btime -r 3 -x , ./a more`. -/
theorem btime_bbench_three : ∃ used rest,
    ["-r", "3", "-x", ",", "./a", "more"] = used ++ rest ∧ used.getLast? = some "./a" ∧
      parseArgv ("bbench" :: used) = .ok { nRuns := 3, csvSep := ',', paths := ["./a"] } :=
  btime_bbench ["btime", "-r", "3", "-x", ",", "./a", "more"] "./a" { nRuns := 3, csvSep := ',' }
    (by decide) rfl

end Both

end Bbench.Cli
