import Bbench.Perf.Group
import Bbench.Report.Dynamic

/-! The rows of a measurement with `-e`. After a `reopen` every member of the group is
reported by its own outcome, whatever the group went through before; and the rows of
`benchmark_bin_dynamic` are what a new group tells the callback of `for_each`. -/

namespace Bbench.Report

open Perf Perf.Group

variable {κ : Type*}

/-- Until the next open `for_each` tells of every member the outcome of its own latest one. -/
theorem forEach_of_reopen (fl : ℚ → ℚ) (defs : List EventDef) (exclKernel : Bool) (p : Proc κ)
    {before later : List (Call defs.length κ)} {pid : ℤ}
    {kernel : Fin defs.length → Request → Answer κ} {errno : Fin defs.length → ℤ}
    {g g' g'' : Group defs.length κ} {r : ℤ}
    (hbefore : Transition.run call (ofDefs defs exclKernel p) before = some g)
    (hreopen : g.reopen pid kernel errno = some (r, g'))
    (hquiet : ∀ c ∈ later, c.opens = false)
    (hlater : Transition.run call g' later = some g'') (read : κ → Reading) :
    g''.forEach fl read = (List.finRange defs.length).map fun i =>
      (kernel i { event := (g.events i).attr, pid }).entry fl read (some (defs.get i).name) := by
  obtain ⟨⟨latest, hcoupled⟩, hname⟩ := (coupled_ofDefs defs exclKernel p).run hbefore
  have hall := openedAll_reopen hcoupled hreopen
  obtain ⟨hafter, hname'⟩ := hall.coupled_all.run_quiet hquiet hlater
  rw [hafter.forEach]
  refine List.map_congr_left fun i _ => ?_
  rw [hname' i, hall.prettyName i, hname i]
  rfl

/-- Each event has its own outcome. In any state a run of a group leads to, a member is
valid exactly when it has a descriptor. After a `reopen` it is valid exactly when its
errno is zero, the result is minus the number of failures in that call, and until the
next open `for_each` tells one entry for each definition, in order: with the errno of
the member's own latest open and no value, or with what its own counter delivers. -/
theorem forEach_reports (fl : ℚ → ℚ) (defs : List EventDef) (exclKernel : Bool) (p : Proc κ)
    {before later : List (Call defs.length κ)} {pid : ℤ}
    {kernel : Fin defs.length → Request → Answer κ} {errno : Fin defs.length → ℤ}
    {g g' g'' : Group defs.length κ} {r : ℤ}
    (hbefore : Transition.run call (ofDefs defs exclKernel p) before = some g)
    (hreopen : g.reopen pid kernel errno = some (r, g'))
    (hquiet : ∀ c ∈ later, c.opens = false)
    (hlater : Transition.run call g' later = some g'') (read : κ → Reading) :
    let answer := fun i => kernel i { event := (g.events i).attr, pid }
    (∀ i, (g.events i).valid = true ↔ (g.events i).eFd ≠ -1) ∧
    (∀ i, ((g'.events i).valid = true ↔ (g'.events i).eFd ≠ -1) ∧
      ((g'.events i).valid = true ↔ (g'.events i).lastErrno = 0)) ∧
    (∀ i, ((g''.events i).valid = true ↔ (g''.events i).eFd ≠ -1) ∧
      ((g''.events i).valid = true ↔ (g''.events i).lastErrno = 0)) ∧
    r = -((List.finRange defs.length).countP fun i => (answer i).isRefused) ∧
    g''.forEach fl read = (List.finRange defs.length).map fun i =>
      (answer i).entry fl read (some (defs.get i).name) := by
  intro answer
  obtain ⟨⟨latest, hcoupled⟩, -⟩ := (coupled_ofDefs defs exclKernel p).run hbefore
  have hall := openedAll_reopen hcoupled hreopen
  have hopened := hall.coupled_all
  obtain ⟨hafter, -⟩ := hopened.run_quiet hquiet hlater
  refine ⟨fun i => (hcoupled.agrees i).valid_iff, fun i => ?_, fun i => ?_, ?_, ?_⟩
  · exact ⟨(hopened.agrees i).valid_iff, (hopened.agrees i).valid_iff_lastErrno⟩
  · exact ⟨(hafter.agrees i).valid_iff, (hafter.agrees i).valid_iff_lastErrno⟩
  · rw [hall.ret, zero_add]
  · exact forEach_of_reopen fl defs exclKernel p hbefore hreopen hquiet hlater read

/-- One counter opens and one does not. -/
theorem forEach_reports_two :
    let defs : List EventDef := [⟨"cycles", perfTypeHardware, 0⟩, ⟨"cs", perfTypeSoftware, 3⟩]
    let kernel : Fin 2 → Request → Answer Unit := fun i _ =>
      if i = 0 then .counter 3 (by decide) () else .refused 13 (by decide) (by decide)
    ∃ r g, (ofDefs defs true ⟨0, fun _ => none⟩).reopen 42 kernel (fun _ => 9) = some (r, g) ∧
      r = -1 ∧ g.forEach id (fun _ => ⟨5, 1, 1⟩) =
        [⟨some "cycles", 5, 0⟩, ⟨some "cs", 0, 13⟩] := by
  intro defs kernel
  obtain ⟨⟨r, g⟩, hopen⟩ := Option.isSome_iff_exists.mp
    (show ((ofDefs defs true (⟨0, fun _ => none⟩ : Proc Unit)).reopen 42 kernel
      (fun _ => 9)).isSome = true by decide)
  have hbefore : Transition.run call (ofDefs defs true (⟨0, fun _ => none⟩ : Proc Unit)) [] =
      some (ofDefs defs true ⟨0, fun _ => none⟩) := rfl
  have hlater : Transition.run call g [] = some g := rfl
  obtain ⟨-, -, -, hret, hentries⟩ := forEach_reports id defs true ⟨0, fun _ => none⟩ hbefore
    hopen (by simp) hlater fun _ => ⟨5, 1, 1⟩
  exact ⟨r, g, hopen, hret, hentries⟩

/-! ### `benchmark_bin_dynamic` -/

/-- The group as `benchmark_bin_dynamic` prepares it. -/
def benchGroup (opts : BenchmarkOpts) (defs : List EventDef) (p : Proc κ) :
    Group defs.length κ :=
  (((ofDefs defs opts.exclKernel p).setInherit opts.inherit).setPinned
    opts.pinned).setEnableOnExec true

/-- An answer as an outcome that fixes what the counter delivers. -/
def answerOutcome (read : κ → Reading) : Answer κ → Outcome
  | .refused errno _ _ => .failed errno
  | .counter _ _ c => .opened (read c)

theorem entry_eq (fl : ℚ → ℚ) (read : κ → Reading) (name : Option String) (a : Answer κ) :
    a.entry fl read name =
      ⟨name, dynamicRetrieve fl (answerOutcome read a), (answerOutcome read a).errno⟩ := by
  cases a <;> rfl

/-- The rows are the entries, one for one. -/
theorem rows_eq_forEach (fl : ℚ → ℚ) (opts : BenchmarkOpts) (defs : List EventDef) (path : String)
    (p : Proc κ) {pid r : ℤ} {kernel : Fin defs.length → Request → Answer κ}
    {errno : Fin defs.length → ℤ} {g : Group defs.length κ}
    (hreopen : (benchGroup opts defs p).reopen pid kernel errno = some (r, g))
    (errnoEnd : Fin defs.length → ℤ) (read : κ → Reading) (env : RunEnv)
    (henv : ∀ (i : Fin defs.length) attr, env.answer i attr =
      answerOutcome read (kernel i { event := attr, pid })) :
    (g.control errnoEnd).forEach fl read =
      (benchmarkBinDynamic fl env path defs opts).rows.map fun row =>
        ⟨some row.name, row.value, row.err⟩ := by
  have hprepared : Transition.run call (ofDefs defs opts.exclKernel p)
      [.setInherit opts.inherit, .setPinned opts.pinned, .setEnableOnExec true] =
      some (benchGroup opts defs p) := rfl
  have hfinish : ∀ c ∈ [(Call.finish errnoEnd : Call _ κ)], c.opens = false := by
    simp [Call.opens]
  rw [forEach_of_reopen fl defs opts.exclKernel p hprepared hreopen hfinish rfl read,
    benchmarkBinDynamic]
  apply List.ext_getElem
  · simp
  · intro i hi hi'
    rw [List.length_map, List.length_finRange] at hi
    have hanswer : env.answer i (defs[i].prepared opts) = answerOutcome read
        (kernel ⟨i, hi⟩ { event := defs[i].prepared opts, pid }) := henv ⟨i, hi⟩ _
    simp only [List.getElem_map, List.getElem_finRange, List.getElem_mapIdx, entry_eq, hanswer]
    rfl

end Bbench.Report
