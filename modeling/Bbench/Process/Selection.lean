import Bbench.Process.Main

/-! Which counters `main` opens on a measured child, and whether their attributes
carry the options that select what is counted. Exactly the counters of its runs
and of its top-down measurements are opened. The static groups are compiled for
user mode, a run-time counter never excludes it, and a top-down counter is in
addition neither inherited nor pinned. -/

namespace Bbench.Process

open Perf Transition Cli

variable {U : Type*} {sees : ℕ → U → Bool} {s : State U} {supported : Bool} {cli : CliOpts}
  {attr : PerfEventAttr}

/-- The next call of the parent is `perf_event_open` with these attributes. -/
def OpensNext (s : State U) (attr : PerfEventAttr) : Prop :=
  ∃ attrs rest i, s.prog = .processAttach attrs :: rest ∧ s.ctrl = .attach i ∧ attrs[i]? = some attr

/-- The attributes carry the four options. -/
structure Selects (opts : BenchmarkOpts) (attr : PerfEventAttr) : Prop where
  excludeUser : attr.excludeUser = opts.exclUser
  excludeKernel : attr.excludeKernel = opts.exclKernel
  inherit : attr.inherit = opts.inherit
  pinned : attr.pinned = opts.pinned

/-! ### The counters that are opened -/

/-- Every counter of a reached `process_attach` can be the next one. -/
theorem leads_opensNext {attrs : List PerfEventAttr} (rest : List Op) (hattr : attr ∈ attrs) :
    Leads (step sees) (Ready (.processAttach attrs :: rest) Any) fun s => OpensNext s attr := by
  obtain ⟨i, hi, rfl⟩ := List.getElem_of_mem hattr
  have hopen : Leads (step sees) (Attaching attrs rest 0) (Attaching attrs rest i) :=
    Leads.count (I := Attaching attrs rest) (fun _ hj => attaching_next (by omega)) (Nat.zero_le i)
  refine ((leads_attaching attrs rest).trans hopen).mono (fun _ hs => hs) fun s hs => ?_
  have hctrl := hs.ctrl
  rw [atMember, if_pos hi] at hctrl
  exact ⟨attrs, rest, i, hs.prog, hctrl, List.getElem?_eq_getElem hi⟩

theorem main_opens_iff (sees : ℕ → U → Bool) (supported : Bool) (hpaths : cli.paths ≠ [])
    (hruns : 1 ≤ cli.nRuns) (clock : Clock) (attr : PerfEventAttr) :
    (∃ s : State U, Reachable (step sees) (initial (mainOps supported cli) clock) s ∧
      OpensNext s attr) ↔
    attr ∈ runAttrs cli ∨
      TopdownMeasured supported cli ∧ attr ∈ Topdown.group cli.benchOpts := by
  constructor
  · rintro ⟨s, hs, attrs, rest, i, hprog, -, hattr⟩
    have hmem : attr ∈ attrs := List.mem_of_getElem? hattr
    have hop : .processAttach attrs ∈ mainOps supported cli :=
      (main_prog hs).subset (by simp [hprog])
    obtain hop | ⟨htopdown, hop⟩ := mem_mainOps hop
    · exact .inl ((mem_measureOps hop).2.2 attrs rfl ▸ hmem)
    · exact .inr ⟨htopdown, mem_measureBinOps hop ▸ hmem⟩
  · rintro (hattr | ⟨htopdown, hattr⟩)
    · obtain ⟨more, hmore⟩ := mainOps_eq_measure supported hpaths hruns
      rw [measureOps, List.append_assoc] at hmore
      obtain ⟨s, hs, hready⟩ := main_reaches sees clock hmore (can_hook cli.benchOpts.pre)
      obtain ⟨t, ht, hopens⟩ := leads_opensNext _ hattr s hready
      exact ⟨t, hs.trans ht, hopens⟩
    · obtain ⟨more, hmore⟩ := mainOps_eq_topdown hpaths htopdown
      rw [measureBinOps, if_pos rfl, List.append_assoc, ← List.append_assoc (runsOps cli)] at hmore
      obtain ⟨s, hs, hready⟩ := main_reaches sees clock hmore
        (can_runs.append (can_hook cli.benchOpts.pre))
      obtain ⟨t, ht, hopens⟩ := leads_opensNext _ hattr s hready
      exact ⟨t, hs.trans ht, hopens⟩

/-! ### What they carry -/

/-- The counters of a run carry the options, unless user mode is to be excluded
and there is a counter to carry that. -/
theorem selects_runAttrs (hexcl : cli.benchOpts.exclKernel = !cli.benchOpts.exclUser) :
    (∀ attr ∈ runAttrs cli, Selects cli.benchOpts attr) ↔
      (∃ csv, cli.benchOpts.eventCsv = some csv ∧ (parseEventList csv []).2 = []) ∨
        cli.benchOpts.exclUser = false := by
  unfold runAttrs
  cases hcsv : cli.benchOpts.eventCsv with
  | some csv =>
    simp only [Option.some.injEq, exists_eq_left']
    constructor
    · intro h
      by_cases hnil : (parseEventList csv []).2 = []
      · exact .inl hnil
      · obtain ⟨d, hd⟩ := List.exists_mem_of_ne_nil _ hnil
        have hmem : d.prepared cli.benchOpts ∈
            dynamicGroup cli.benchOpts (parseEventList csv []).2 := List.mem_map_of_mem hd
        exact .inr ((h _ hmem).excludeUser.symm.trans (attr_dynamicGroup hmem).1)
    · rintro (hnil | huser) attr hattr
      · rw [hnil] at hattr
        cases hattr
      · obtain ⟨hu, hk, hi, hp⟩ := attr_dynamicGroup hattr
        exact ⟨hu.trans huser.symm, hk, hi, hp⟩
  | none =>
    have huserland {attr : PerfEventAttr} (hattr : attr ∈ staticAttrs cli.benchOpts) :
        attr.excludeUser = false ∧ attr.excludeKernel = true ∧
          attr.inherit = cli.benchOpts.inherit ∧ attr.pinned = cli.benchOpts.pinned := by
      obtain ⟨m, hm, rfl⟩ := List.mem_map.mp hattr
      exact attr_userland (eventGroup_userland _) hm
    constructor
    · intro h
      have hne : staticAttrs cli.benchOpts ≠ [] := by
        simp [staticAttrs, preparedGroup_eq, eventGroup_ne_nil]
      obtain ⟨attr, hattr⟩ := List.exists_mem_of_ne_nil _ hne
      exact .inr ((h attr hattr).excludeUser.symm.trans (huserland hattr).1)
    · rintro (⟨csv, hsome, -⟩ | huser) attr hattr
      · cases hsome
      · obtain ⟨hu, hk, hi, hp⟩ := huserland hattr
        exact ⟨hu.trans huser.symm, by rw [hk, hexcl, huser]; rfl, hi, hp⟩

theorem selects_topdown (opts : BenchmarkOpts) :
    (∀ attr ∈ Topdown.group opts, Selects opts attr) ↔
      opts.exclUser = false ∧ opts.inherit = false ∧ opts.pinned = false := by
  constructor
  · intro h
    obtain ⟨attr, hattr⟩ := List.exists_mem_of_ne_nil _ (Topdown.group_ne_nil opts)
    obtain ⟨hu, -, hi, hp⟩ := Topdown.attr_group hattr
    have hs := h attr hattr
    exact ⟨hs.excludeUser.symm.trans hu, hs.inherit.symm.trans hi, hs.pinned.symm.trans hp⟩
  · rintro ⟨huser, hinherit, hpinned⟩ attr hattr
    obtain ⟨hu, hk, hi, hp⟩ := Topdown.attr_group hattr
    exact ⟨hu.trans huser.symm, hk, hi.trans hinherit.symm, hp.trans hpinned.symm⟩

/-- When the selection reaches every counter. For an accepted command line, every
counter that `main` opens on a measured child carries the options exactly when
user mode is not excluded (or `-e` names no event), and top-down counters are
measured only with neither inheritance nor pinning asked for. -/
theorem selection_iff (argv : List String) (cli : CliOpts) (hargv : parseArgv argv = .ok cli)
    (supported : Bool) (clock : Clock) :
    (∀ (s : State U) attr, Reachable (step sees) (initial (mainOps supported cli) clock) s →
      OpensNext s attr → Selects cli.benchOpts attr) ↔
    ((∃ csv, cli.benchOpts.eventCsv = some csv ∧ (parseEventList csv []).2 = []) ∨
      cli.benchOpts.exclUser = false) ∧
    (TopdownMeasured supported cli →
      cli.benchOpts.inherit = false ∧ cli.benchOpts.pinned = false) := by
  have hopens (attr : PerfEventAttr) := main_opens_iff sees supported (paths_ne_nil hargv)
    (nRuns_pos hargv) clock attr
  rw [← selects_runAttrs (exclKernel_eq_not hargv)]
  constructor
  · intro h
    have hall (attr : PerfEventAttr) (hattr : attr ∈ runAttrs cli ∨
        TopdownMeasured supported cli ∧ attr ∈ Topdown.group cli.benchOpts) :
        Selects cli.benchOpts attr := by
      obtain ⟨s, hs, hnext⟩ := (hopens attr).mpr hattr
      exact h s attr hs hnext
    refine ⟨fun attr hattr => hall attr (.inl hattr), fun htopdown => ?_⟩
    exact ((selects_topdown _).mp fun attr hattr => hall attr (.inr ⟨htopdown, hattr⟩)).2
  · rintro ⟨hruns, htopdown⟩ s attr hs hnext
    obtain hattr | ⟨hmeasured, hattr⟩ := (hopens attr).mp ⟨s, hs, hnext⟩
    · exact hruns attr hattr
    · have huser : cli.benchOpts.exclUser = false := by
        obtain ⟨csv, hcsv, -⟩ | huser := (selects_runAttrs (exclKernel_eq_not hargv)).mp hruns
        · rw [hmeasured.1] at hcsv
          cases hcsv
        · exact huser
      exact (selects_topdown _).mpr ⟨huser, htopdown hmeasured⟩ attr hattr

/-- `bbench --no-inherit --pinned -e cycles,faults ls`, and `bbench --all-user --no-inherit
--topdown ls` with its top-down measurement after the run. -/
theorem selection_asked :
    (let argv := ["bbench", "--no-inherit", "--pinned", "-e", "cycles,faults", "ls"]
    let opts : BenchmarkOpts :=
      { inherit := false, pinned := true, eventCsv := some "cycles,faults" }
    parseArgv argv = .ok { benchOpts := opts, paths := ["ls"] } ∧
    ∀ (s : State Unit) attr, Reachable (step fun _ _ => true)
        (initial (mainOps false { benchOpts := opts, paths := ["ls"] }) ⟨0, by decide⟩) s →
      OpensNext s attr → Selects opts attr) ∧
    let argv := ["bbench", "--all-user", "--no-inherit", "--topdown", "ls"]
    let opts : BenchmarkOpts := { inherit := false, exclKernel := true, exclUser := false }
    let cli : CliOpts := { benchOpts := opts, topdownOnly := true, paths := ["ls"] }
    parseArgv argv = .ok cli ∧ TopdownMeasured true cli ∧
    ∀ (s : State Unit) attr,
      Reachable (step fun _ _ => true) (initial (mainOps true cli) ⟨0, by decide⟩) s →
      OpensNext s attr → Selects opts attr := by
  constructor
  · intro argv opts
    have hargv : parseArgv argv = .ok { benchOpts := opts, paths := ["ls"] } := by decide
    refine ⟨hargv, (selection_iff argv _ hargv false ⟨0, by decide⟩).mpr ⟨.inr rfl, ?_⟩⟩
    exact fun htopdown => absurd htopdown.1 (by decide)
  · intro argv opts cli
    have hargv : parseArgv argv = .ok cli := by decide
    refine ⟨hargv, by decide, ?_⟩
    exact (selection_iff argv cli hargv true ⟨0, by decide⟩).mpr (by decide)

/-- With `--all-kernel` the counters still count user mode. -/
theorem not_selection : ¬ ∀ argv cli, parseArgv argv = .ok cli →
    ∀ (supported : Bool) (clock : Clock) (s : State Unit) attr,
      Reachable (step fun _ _ => true) (initial (mainOps supported cli) clock) s →
      OpensNext s attr → Selects cli.benchOpts attr := by
  intro h
  have hargv : parseArgv ["bbench", "--all-kernel", "ls"] =
      .ok { benchOpts := { exclKernel := false, exclUser := true }, paths := ["ls"] } := by
    decide
  have hattr : hardwareCycles.prepared { exclKernel := false, exclUser := true } ∈
      runAttrs { benchOpts := { exclKernel := false, exclUser := true }, paths := ["ls"] } := by
    decide
  obtain ⟨s, hs, hnext⟩ := (main_opens_iff (fun _ (_ : Unit) => true) true (by decide)
    (by decide) ⟨0, by decide⟩ _).mpr (.inl hattr)
  exact absurd (h _ _ hargv true ⟨0, by decide⟩ s _ hs hnext).excludeUser (by decide)

end Bbench.Process
