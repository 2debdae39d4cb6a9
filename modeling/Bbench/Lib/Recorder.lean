import Mathlib.Data.List.Nodup
import Mathlib.Data.List.Sublists
import Mathlib.Data.Nat.Notation

/-! Recorders on a trace. A trace is the calls a program makes, with the work that is
done before, between and after them. A recorder takes down the work it sees while it
is on; calls switch it on and off, and clear it. What it has in the end is the work
between the call that switched it on and the one that switched it off, wherever in
the trace the work was done. -/

namespace Bbench.Lib

/-- Something that happens in a program: a call takes effect, or work is done. -/
inductive Happening (κ U : Type*)
  | call (c : κ)
  | work (u : U)
  deriving DecidableEq, Repr

namespace Trace
variable {κ U : Type*}

def calls : List (Happening κ U) → List κ
  | [] => []
  | .call c :: tr => c :: calls tr
  | .work _ :: tr => calls tr

def works : List (Happening κ U) → List U
  | [] => []
  | .call _ :: tr => works tr
  | .work u :: tr => u :: works tr

@[simp] theorem calls_append (tr tr' : List (Happening κ U)) :
    calls (tr ++ tr') = calls tr ++ calls tr' := by
  induction tr with
  | nil => rfl
  | cons e tr ih => cases e <;> simp [calls, ih]

@[simp] theorem works_append (tr tr' : List (Happening κ U)) :
    works (tr ++ tr') = works tr ++ works tr' := by
  induction tr with
  | nil => rfl
  | cons e tr ih => cases e <;> simp [works, ih]

theorem works_flatten (trs : List (List (Happening κ U))) :
    works trs.flatten = trs.flatMap works := by
  induction trs with
  | nil => rfl
  | cons tr trs ih => simp [ih]

/-- The calls of a trace come apart only where the trace does. -/
theorem calls_eq_append {tr : List (Happening κ U)} {cs ds : List κ} (h : calls tr = cs ++ ds) :
    ∃ a b, tr = a ++ b ∧ calls a = cs ∧ calls b = ds := by
  induction tr generalizing cs with
  | nil =>
    obtain ⟨rfl, rfl⟩ := List.append_eq_nil_iff.mp h.symm
    exact ⟨[], [], rfl, rfl, rfl⟩
  | cons e tr ih =>
    cases e with
    | work u =>
      obtain ⟨a, b, rfl, ha, hb⟩ := ih h
      exact ⟨.work u :: a, b, rfl, ha, hb⟩
    | call c =>
      cases cs with
      | nil => exact ⟨[], .call c :: tr, rfl, rfl, h⟩
      | cons c' cs =>
        rw [calls, List.cons_append, List.cons.injEq] at h
        obtain ⟨a, b, rfl, ha, hb⟩ := ih h.2
        exact ⟨.call c :: a, b, rfl, by rw [calls, ha, h.1], hb⟩

/-- A trace taken apart at a call. -/
theorem calls_eq_append_cons {tr : List (Happening κ U)} {cs ds : List κ} {c : κ}
    (h : calls tr = cs ++ c :: ds) :
    ∃ a b, tr = a ++ .call c :: b ∧ calls a = cs ∧ calls b = ds := by
  obtain ⟨a, rest, rfl, ha, hrest⟩ := calls_eq_append h
  induction rest generalizing a with
  | nil => cases hrest
  | cons e rest ih =>
    cases e with
    | work u =>
      obtain ⟨a', b, heq, ha', hb⟩ :=
        ih (a ++ [.work u]) (by simpa [calls] using h) (by simpa [calls] using ha) hrest
      exact ⟨a', b, by rw [← heq]; simp, ha', hb⟩
    | call c' =>
      rw [calls, List.cons.injEq] at hrest
      exact ⟨a, rest, by rw [hrest.1], ha, hrest.2⟩

/-- A trace of rounds comes apart into the rounds. -/
theorem calls_eq_flatten {tr : List (Happening κ U)} {css : List (List κ)}
    (h : calls tr = css.flatten) :
    ∃ (trs : List (List (Happening κ U))) (rest : List (Happening κ U)),
      tr = trs.flatten ++ rest ∧ trs.map calls = css ∧ calls rest = [] := by
  induction css generalizing tr with
  | nil => exact ⟨[], tr, rfl, rfl, h⟩
  | cons cs css ih =>
    obtain ⟨a, b, rfl, rfl, hb⟩ := calls_eq_append h
    obtain ⟨trs, rest, rfl, rfl, hrest⟩ := ih hb
    exact ⟨a :: trs, rest, by simp, rfl, hrest⟩

/-- In a trace without repetitions a call is neither before nor after itself. -/
theorem not_mem_of_nodup {a b : List (Happening κ U)} {c : κ}
    (hn : (calls (a ++ .call c :: b)).Nodup) :
    c ∉ calls a ∧ c ∉ calls b := by
  rw [calls_append, calls, List.nodup_append] at hn
  obtain ⟨-, hright, hdisjoint⟩ := hn
  exact ⟨fun hmem => hdisjoint c hmem c List.mem_cons_self rfl, (List.nodup_cons.mp hright).1⟩

theorem exists_append_of_sublist {c : κ} {cs ds : List κ} (h : List.Sublist (c :: cs) ds) :
    ∃ xs ys, ds = xs ++ c :: ys ∧ List.Sublist cs ys := by
  obtain ⟨l, l', rfl, hc, hrest⟩ := List.cons_sublist_iff.mp h
  obtain ⟨xs, ys, rfl⟩ := List.append_of_mem hc
  exact ⟨xs, ys ++ l', by simp, hrest.trans (List.sublist_append_right ys l')⟩

/-! ### The work between two calls -/

section Between
variable [DecidableEq κ] {c d e : κ} {a b tr : List (Happening κ U)}

/-- What follows the first such call. -/
def after (c : κ) : List (Happening κ U) → List (Happening κ U)
  | [] => []
  | .call c' :: tr => if c' = c then tr else after c tr
  | .work _ :: tr => after c tr

/-- What comes before the first such call. -/
def upTo (d : κ) : List (Happening κ U) → List (Happening κ U)
  | [] => []
  | .call d' :: tr => if d' = d then [] else .call d' :: upTo d tr
  | .work u :: tr => .work u :: upTo d tr

def between (c d : κ) (tr : List (Happening κ U)) : List U := works (upTo d (after c tr))

@[simp] theorem after_call (c : κ) (tr : List (Happening κ U)) :
    after c (.call c :: tr) = tr := by
  rw [after, if_pos rfl]

@[simp] theorem upTo_call (d : κ) (tr : List (Happening κ U)) : upTo d (.call d :: tr) = [] := by
  rw [upTo, if_pos rfl]

theorem after_append (ha : c ∉ calls a) (tr : List (Happening κ U)) :
    after c (a ++ tr) = after c tr := by
  induction a with
  | nil => rfl
  | cons e a ih =>
    cases e with
    | work u => exact ih ha
    | call c' =>
      rw [calls, List.mem_cons, not_or] at ha
      rw [List.cons_append, after, if_neg (Ne.symm ha.1), ih ha.2]

theorem upTo_append (hb : d ∉ calls b) (tr : List (Happening κ U)) :
    upTo d (b ++ tr) = b ++ upTo d tr := by
  induction b with
  | nil => rfl
  | cons e b ih =>
    cases e with
    | work u => rw [List.cons_append, upTo, ih hb, List.cons_append]
    | call d' =>
      rw [calls, List.mem_cons, not_or] at hb
      rw [List.cons_append, upTo, if_neg (Ne.symm hb.1), ih hb.2, List.cons_append]

theorem between_split (ha : c ∉ calls a) (hb : d ∉ calls b) :
    between c d (a ++ .call c :: (b ++ .call d :: tr)) = works b := by
  rw [between, after_append ha, after_call, upTo_append hb, upTo_call, List.append_nil]

/-- What comes before the first call does not matter. -/
theorem between_append (ha : c ∉ calls a) (tr : List (Happening κ U)) :
    between c d (a ++ tr) = between c d tr := by
  rw [between, between, after_append ha]

/-- The work between two calls is that up to a third call between them and that from it on. -/
theorem between_trans (hn : (calls tr).Nodup) (h : List.Sublist [c, d, e] (calls tr)) :
    between c e tr = between c d tr ++ between d e tr := by
  obtain ⟨cs, rest, hcalls, hrest⟩ := exists_append_of_sublist h
  obtain ⟨ds, es, rfl, hes⟩ := exists_append_of_sublist hrest
  have he : e ∈ es := List.singleton_sublist.mp hes
  obtain ⟨a, rest, rfl, rfl, hrest⟩ := calls_eq_append_cons hcalls
  obtain ⟨m, t, rfl, rfl, rfl⟩ := calls_eq_append_cons hrest
  have hassoc : a ++ .call c :: (m ++ .call d :: t) = (a ++ .call c :: m) ++ .call d :: t := by
    simp
  have hca := (not_mem_of_nodup hn).1
  have hd := not_mem_of_nodup (hassoc ▸ hn)
  have hdm : d ∉ calls m := by
    intro hmem
    simp [calls, hmem] at hd
  have hem : e ∉ calls m := by
    rw [calls_append, calls, calls_append] at hn
    have hright := (List.nodup_cons.mp hn.of_append_right).2
    intro hmem
    exact List.disjoint_of_nodup_append hright hmem (List.mem_cons_of_mem _ he)
  have hde : d ≠ e := fun heq => hd.2 (heq ▸ he)
  have hlast : after d (a ++ .call c :: (m ++ .call d :: t)) = t := by
    rw [hassoc, after_append hd.1, after_call]
  rw [between_split hca hdm, between, between, hlast, after_append hca, after_call,
    upTo_append hem, upTo, if_neg hde, works_append, works]

theorem between_sublist (c d : κ) (tr : List (Happening κ U)) :
    List.Sublist (between c d tr) (works tr) := by
  have hafter : List.Sublist (works (after c tr)) (works tr) := by
    induction tr with
    | nil => exact List.Sublist.refl _
    | cons e tr ih =>
      cases e with
      | work u => exact ih.cons u
      | call c' =>
        rw [after, works]
        split
        · exact List.Sublist.refl _
        · exact ih
  have hupTo : ∀ l : List (Happening κ U), List.Sublist (works (upTo d l)) (works l) := by
    intro l
    induction l with
    | nil => exact List.Sublist.refl _
    | cons e l ih =>
      cases e with
      | work u => exact ih.cons_cons u
      | call d' =>
        rw [upTo]
        split
        · exact List.nil_sublist _
        · exact ih
  exact (hupTo _).trans hafter

end Between

end Trace

/-! ### Recorders -/

/-- What a call does to a recorder. -/
structure Control where
  clears : Bool := false
  turns : Option Bool := none
  deriving DecidableEq, Repr

structure Recorder (U : Type*) where
  on : Bool := false
  taken : List U := []
  deriving DecidableEq, Repr

namespace Recorder
variable {κ U : Type*} {control : κ → Control} {sees : U → Bool} {r : Recorder U}
  {tr : List (Happening κ U)} {c d : κ} {cs ds es : List κ}

open Trace

def step (control : κ → Control) (sees : U → Bool) (r : Recorder U) :
    Happening κ U → Recorder U
  | .call c => ⟨(control c).turns.getD r.on, if (control c).clears then [] else r.taken⟩
  | .work u => if r.on && sees u then { r with taken := r.taken ++ [u] } else r

def run (control : κ → Control) (sees : U → Bool) (r : Recorder U)
    (tr : List (Happening κ U)) : Recorder U :=
  tr.foldl (step control sees) r

@[simp] theorem run_nil (r : Recorder U) : run control sees r [] = r := rfl

@[simp] theorem run_cons (r : Recorder U) (h : Happening κ U) (tr : List (Happening κ U)) :
    run control sees r (h :: tr) = run control sees (step control sees r h) tr := rfl

theorem run_append (r : Recorder U) (tr tr' : List (Happening κ U)) :
    run control sees r (tr ++ tr') = run control sees (run control sees r tr) tr' :=
  List.foldl_append

/-- A recorder that is off, and is not switched on, takes nothing down. -/
theorem run_off (hoff : r.on = false) (hcalls : ∀ c ∈ calls tr, (control c).turns ≠ some true) :
    (run control sees r tr).on = false ∧ ((run control sees r tr).taken = r.taken ∨
      (run control sees r tr).taken = []) := by
  induction tr generalizing r with
  | nil => exact ⟨hoff, .inl rfl⟩
  | cons h tr ih =>
    cases h with
    | work u =>
      have hstep : step control sees r (.work u) = r := by simp [step, hoff]
      rw [run_cons, hstep]
      exact ih hoff hcalls
    | call c =>
      have hturns := hcalls c List.mem_cons_self
      have hstill : (step control sees r (.call c)).on = false := by
        cases hc : (control c).turns with
        | none => simp [step, hc, hoff]
        | some on => cases on <;> simp_all [step]
      obtain ⟨hend, htaken⟩ := ih hstill fun c' hc' => hcalls c' (List.mem_cons_of_mem _ hc')
      refine ⟨hend, ?_⟩
      rw [run_cons]
      by_cases hclear : (control c).clears = true
      · have hempty : (step control sees r (.call c)).taken = [] := by simp [step, hclear]
        rw [hempty, or_self] at htaken
        exact .inr htaken
      · have hsame : (step control sees r (.call c)).taken = r.taken := by simp [step, hclear]
        rwa [hsame] at htaken

/-- Switched off, and not cleared either, it keeps what it has. -/
theorem run_kept (hoff : r.on = false) (hcalls : ∀ c ∈ calls tr,
    (control c).clears = false ∧ (control c).turns ≠ some true) :
    run control sees r tr = r := by
  induction tr with
  | nil => rfl
  | cons h tr ih =>
    have hstep : step control sees r h = r := by
      cases h with
      | work u => simp [step, hoff]
      | call c =>
        obtain ⟨hclear, hturns⟩ := hcalls c List.mem_cons_self
        obtain ⟨on, taken⟩ := r
        cases hc : (control c).turns with
        | none => simp [step, hc, hclear]
        | some on => cases on <;> simp_all [step]
    rw [run_cons, hstep]
    refine ih fun c hc => hcalls c ?_
    cases h with
    | work u => exact hc
    | call c' => exact List.mem_cons_of_mem _ hc

/-- Left alone, it takes down all the work it sees if it is on, and else none. -/
theorem run_inert (r : Recorder U) (hcalls : ∀ c ∈ calls tr, control c = {}) :
    run control sees r tr =
      ⟨r.on, r.taken ++ if r.on then (works tr).filter sees else []⟩ := by
  induction tr generalizing r with
  | nil => simp [works]
  | cons h tr ih =>
    cases h with
    | work u =>
      rw [run_cons, ih _ hcalls, works]
      obtain ⟨on, taken⟩ := r
      cases on with
      | false => simp [step]
      | true =>
        by_cases hsees : sees u = true
        · simp [step, hsees]
        · simp [step, hsees]
    | call c =>
      have hinert := hcalls c List.mem_cons_self
      have hstep : step control sees r (.call c) = r := by simp [step, hinert]
      rw [run_cons, hstep]
      exact ih r fun c' hc' => hcalls c' (List.mem_cons_of_mem _ hc')

/-- Switched on with nothing taken down yet, a recorder ends with the work up to the
call that switches it off. -/
theorem run_started [DecidableEq κ] (r : Recorder U)
    (hcalls : calls tr = cs ++ c :: (ds ++ d :: es)) (hcs : c ∉ cs)
    (hstart : ∀ a, calls a = cs → step control sees (run control sees r a) (.call c) = ⟨true, []⟩)
    (hd : control d = { turns := some false }) (hmeanwhile : ∀ x ∈ ds, control x = {})
    (hlater : ∀ x ∈ es, (control x).clears = false ∧ (control x).turns ≠ some true) :
    run control sees r tr = ⟨false, (between c d tr).filter sees⟩ := by
  obtain ⟨a, rest, rfl, ha, hrest⟩ := calls_eq_append_cons hcalls
  obtain ⟨b, e, rfl, rfl, rfl⟩ := calls_eq_append_cons hrest
  have hdb : d ∉ calls b := fun hmem => by simpa [hd] using hmeanwhile d hmem
  have hstopped : step control sees ⟨true, (works b).filter sees⟩ (.call d) =
      ⟨false, (works b).filter sees⟩ := by simp [step, hd]
  rw [between_split (ha ▸ hcs) hdb, run_append, run_cons, hstart a ha, run_append,
    run_inert _ hmeanwhile, run_cons, List.nil_append, if_pos rfl, hstopped]
  exact run_kept rfl hlater

/-- What is taken down from the call that switches the recorder on to the one that
switches it off, and kept to the end: the work between the two. -/
theorem run_between [DecidableEq κ] (hcalls : calls tr = cs ++ c :: (ds ++ d :: es))
    (hc : (control c).turns = some true) (hd : control d = { turns := some false })
    (hbefore : ∀ x ∈ cs, (control x).turns ≠ some true)
    (hmeanwhile : ∀ x ∈ ds, control x = {})
    (hlater : ∀ x ∈ es, (control x).clears = false ∧ (control x).turns ≠ some true) :
    run control sees {} tr = ⟨false, (between c d tr).filter sees⟩ := by
  refine run_started {} hcalls (fun hmem => hbefore c hmem hc) (fun a ha => ?_) hd hmeanwhile hlater
  have hoff : (run control sees {} a).on = false ∧
      ((run control sees {} a).taken = [] ∨ (run control sees {} a).taken = []) :=
    run_off rfl (ha ▸ hbefore)
  rw [or_self] at hoff
  simp [step, hc, hoff.2]

/-- A recorder that is cleared and then switched on. Left on by an earlier call, it also
has the work in between. -/
theorem run_restart [DecidableEq κ] {x : κ} {xs : List κ} (r : Recorder U)
    (hcalls : calls tr = xs ++ x :: (cs ++ c :: (ds ++ d :: es)))
    (hx : control x = { clears := true }) (hc : control c = { turns := some true })
    (hd : control d = { turns := some false })
    (hinert : ∀ y ∈ xs ++ cs ++ ds ++ es, control y = {}) :
    run control sees r tr =
      ⟨false, ((if r.on then between x c tr else []) ++ between c d tr).filter sees⟩ := by
  obtain ⟨a, rest, rfl, rfl, hrest⟩ := calls_eq_append_cons hcalls
  obtain ⟨b, rest', rfl, rfl, hrest'⟩ := calls_eq_append_cons hrest
  obtain ⟨f, e, rfl, rfl, rfl⟩ := calls_eq_append_cons hrest'
  have ha : ∀ y ∈ calls a, control y = {} := fun y hy => hinert y (by simp [hy])
  have hb : ∀ y ∈ calls b, control y = {} := fun y hy => hinert y (by simp [hy])
  have hf : ∀ y ∈ calls f, control y = {} := fun y hy => hinert y (by simp [hy])
  have he : ∀ y ∈ calls e, control y = {} := fun y hy => hinert y (by simp [hy])
  have hxa : x ∉ calls a := fun hmem => by simpa [hx] using ha x hmem
  have hca : c ∉ calls (a ++ .call x :: b) := by
    simp only [calls_append, calls, List.mem_append, List.mem_cons]
    rintro (hmem | rfl | hmem)
    · simpa [hc] using ha c hmem
    · simp [hc] at hx
    · simpa [hc] using hb c hmem
  have hdf : d ∉ calls f := fun hmem => by simpa [hd] using hf d hmem
  have hcb : c ∉ calls b := fun hmem => by simpa [hc] using hb c hmem
  have hassoc : a ++ .call x :: (b ++ .call c :: (f ++ .call d :: e)) =
      (a ++ .call x :: b) ++ .call c :: (f ++ .call d :: e) := by simp
  rw [between_split hxa hcb]
  conv_rhs => rw [hassoc, between_split hca hdf]
  simp only [run_append, run_cons, run_inert _ ha, run_inert _ hb, run_inert _ hf,
    run_inert _ he, step, hx, hc, hd]
  cases r.on <;> simp

end Recorder

end Bbench.Lib
