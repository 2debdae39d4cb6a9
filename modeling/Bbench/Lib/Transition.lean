import Mathlib.Data.List.Basic

/-! Executions of a partial labelled step function. A label fixes everything a
step leaves open, so a schedule (a list of labels) names one execution, and a
statement about every schedule is a statement about every interleaving. The
rules below reduce facts about whole executions to facts about one step:
invariants, invariants under a condition on the steps, exact accounts of what an
execution lost, and counts of steps bounded by a potential. -/

namespace Bbench.Transition

variable {σ Λ : Type*} {step : σ → Λ → Option σ}

/-- The state a schedule leads to, when each of its steps is enabled. -/
def run (step : σ → Λ → Option σ) : σ → List Λ → Option σ
  | s, [] => some s
  | s, l :: ls => (step s l).bind fun t => run step t ls

/-- Every step of the schedule is taken in a state and with a label that satisfy `P`. -/
def Along (step : σ → Λ → Option σ) (P : σ → Λ → Prop) : σ → List Λ → Prop
  | _, [] => True
  | s, l :: ls => P s l ∧ ∀ t, step s l = some t → Along step P t ls

instance Along.decidable {P : σ → Λ → Prop} [∀ s l, Decidable (P s l)] :
    ∀ s ls, Decidable (Along step P s ls)
  | _, [] => isTrue trivial
  | s, l :: ls =>
    match h : step s l with
    | none => decidable_of_iff (P s l) (by simp [Along, h])
    | some t =>
      have : Decidable (Along step P t ls) := Along.decidable t ls
      decidable_of_iff (P s l ∧ Along step P t ls) (by simp [Along, h])

/-- Some schedule leads from `s` to `t`. -/
def Reachable (step : σ → Λ → Option σ) (s t : σ) : Prop := ∃ ls, run step s ls = some t

@[simp] theorem run_nil (s : σ) : run step s [] = some s := rfl

theorem run_cons (s : σ) (l : Λ) (ls : List Λ) :
    run step s (l :: ls) = (step s l).bind fun t => run step t ls := rfl

theorem run_cons_eq_some {s u : σ} {l : Λ} {ls : List Λ} :
    run step s (l :: ls) = some u ↔ ∃ t, step s l = some t ∧ run step t ls = some u := by
  rw [run_cons, Option.bind_eq_some_iff]

theorem run_append (s : σ) (ls ms : List Λ) :
    run step s (ls ++ ms) = (run step s ls).bind fun t => run step t ms := by
  induction ls generalizing s with
  | nil => rfl
  | cons l ls ih => simp only [List.cons_append, run_cons, Option.bind_assoc, ih]

theorem run_trans {s t u : σ} {ls ms : List Λ} (h : run step s ls = some t)
    (h' : run step t ms = some u) : run step s (ls ++ ms) = some u := by
  rw [run_append, h, Option.bind_some, h']

namespace Reachable

theorem refl (s : σ) : Reachable step s s := ⟨[], rfl⟩

theorem trans {s t u : σ} (h : Reachable step s t) (h' : Reachable step t u) :
    Reachable step s u := by
  obtain ⟨ls, hl⟩ := h
  obtain ⟨ms, hm⟩ := h'
  exact ⟨ls ++ ms, run_trans hl hm⟩

theorem of_step {s t : σ} (l : Λ) (h : step s l = some t) : Reachable step s t :=
  ⟨[l], by simp [run_cons, h]⟩

end Reachable

/-- From every state that satisfies `P`, some execution leads to one that satisfies `Q`. -/
def Leads (step : σ → Λ → Option σ) (P Q : σ → Prop) : Prop :=
  ∀ s, P s → ∃ t, Reachable step s t ∧ Q t

namespace Leads
variable {P Q R : σ → Prop}

theorem refl (P : σ → Prop) : Leads step P P := fun s hs => ⟨s, .refl s, hs⟩

theorem trans (h : Leads step P Q) (h' : Leads step Q R) : Leads step P R := by
  intro s hs
  obtain ⟨t, ht, hq⟩ := h s hs
  obtain ⟨u, hu, hr⟩ := h' t hq
  exact ⟨u, ht.trans hu, hr⟩

theorem of_step (l : Λ) (h : ∀ s, P s → ∃ t, step s l = some t ∧ Q t) : Leads step P Q := by
  intro s hs
  obtain ⟨t, ht, hq⟩ := h s hs
  exact ⟨t, .of_step l ht, hq⟩

theorem of_run (ls : List Λ) (h : ∀ s, P s → ∃ t, run step s ls = some t ∧ Q t) :
    Leads step P Q := by
  intro s hs
  obtain ⟨t, ht, hq⟩ := h s hs
  exact ⟨t, ⟨ls, ht⟩, hq⟩

theorem mono {P' Q' : σ → Prop} (h : Leads step P Q) (hP : ∀ s, P' s → P s)
    (hQ : ∀ s, Q s → Q' s) : Leads step P' Q' := by
  intro s hs
  obtain ⟨t, ht, hq⟩ := h s (hP s hs)
  exact ⟨t, ht, hQ t hq⟩

/-- Counting up to `n`, with one stage for each number. -/
theorem count {I : ℕ → σ → Prop} {n : ℕ} (h : ∀ i < n, Leads step (I i) (I (i + 1))) {i : ℕ}
    (hi : i ≤ n) : Leads step (I i) (I n) := by
  induction n with
  | zero =>
    obtain rfl : i = 0 := by omega
    exact .refl _
  | succ n ih =>
    rcases Nat.lt_or_eq_of_le hi with hlt | rfl
    · exact (ih (fun j hj => h j (by omega)) (by omega)).trans (h n (by omega))
    · exact .refl _

/-- Descending: each stage of a rank above zero leads to a lower one. -/
theorem of_rank {I : σ → Prop} (rank : σ → ℕ)
    (h : ∀ s, I s → Q s ∨ ∃ t, Reachable step s t ∧ I t ∧ rank t < rank s) : Leads step I Q := by
  intro s hs
  induction hn : rank s using Nat.strongRecOn generalizing s with
  | ind n ih =>
    rcases h s hs with hq | ⟨t, hreach, ht, hlt⟩
    · exact ⟨s, .refl s, hq⟩
    · obtain ⟨u, hu, hq⟩ := ih (rank t) (hn ▸ hlt) t ht rfl
      exact ⟨u, hreach.trans hu, hq⟩

end Leads

/-! ### Observations -/

section Observe
variable {ω : Type*} {obs : σ → Λ → σ → List ω}

/-- What an execution shows of itself, step by step. -/
def observe (step : σ → Λ → Option σ) (obs : σ → Λ → σ → List ω) : σ → List Λ → List ω
  | _, [] => []
  | s, l :: ls =>
    match step s l with
    | none => []
    | some t => obs s l t ++ observe step obs t ls

/-- What every step preserves of the state and the observations before it holds of the
state an execution ends in and of all it has shown. -/
theorem run_observe {I : List ω → σ → Prop}
    (hstep : ∀ os s l t, I os s → step s l = some t → I (os ++ obs s l t) t) {os : List ω}
    {s t : σ} {ls : List Λ} (hs : I os s) (h : run step s ls = some t) :
    I (os ++ observe step obs s ls) t := by
  induction ls generalizing s os with
  | nil =>
    cases h
    simpa [observe] using hs
  | cons l ls ih =>
    obtain ⟨u, hu, ht⟩ := run_cons_eq_some.mp h
    have hrest := ih (hstep os s l u hs hu) ht
    rw [List.append_assoc] at hrest
    rwa [observe, hu]

end Observe

/-- What every step preserves under a condition on the steps, an execution whose
steps all meet the condition preserves. -/
theorem run_invariant_along {I : σ → Prop} {P : σ → Λ → Prop}
    (hstep : ∀ s l t, I s → P s l → step s l = some t → I t) {s t : σ} {ls : List Λ}
    (hs : I s) (hP : Along step P s ls) (h : run step s ls = some t) : I t := by
  induction ls generalizing s with
  | nil => cases h; exact hs
  | cons l ls ih =>
    obtain ⟨u, hu, ht⟩ := run_cons_eq_some.mp h
    exact ih (hstep s l u hs hP.1 hu) (hP.2 u hu) ht

theorem along_true (s : σ) (ls : List Λ) : Along step (fun _ _ => True) s ls := by
  induction ls generalizing s with
  | nil => trivial
  | cons l ls ih => exact ⟨trivial, fun t _ => ih t⟩

/-- What every step preserves, every execution preserves. -/
theorem run_invariant {I : σ → Prop} (hstep : ∀ s l t, I s → step s l = some t → I t)
    {s t : σ} {ls : List Λ} (hs : I s) (h : run step s ls = some t) : I t :=
  run_invariant_along (P := fun _ _ => True) (fun s l t hi _ => hstep s l t hi) hs
    (along_true s ls) h

theorem Reachable.invariant {I : σ → Prop} (hstep : ∀ s l t, I s → step s l = some t → I t)
    {s t : σ} (hs : I s) (h : Reachable step s t) : I t := by
  obtain ⟨ls, hl⟩ := h
  exact run_invariant hstep hs hl

/-- What each step needs to end in `Q`, an execution that ends in `Q` has met all along. -/
theorem along_of_run {Q : σ → Prop} {P : σ → Λ → Prop}
    (hstep : ∀ s l t, step s l = some t → Q t → Q s ∧ P s l) {s t : σ} {ls : List Λ}
    (h : run step s ls = some t) (ht : Q t) : Q s ∧ Along step P s ls := by
  induction ls generalizing s with
  | nil => cases h; exact ⟨ht, trivial⟩
  | cons l ls ih =>
    obtain ⟨u, hu, hrun⟩ := run_cons_eq_some.mp h
    obtain ⟨hqu, halong⟩ := ih hrun
    obtain ⟨hqs, hp⟩ := hstep s l u hu hqu
    refine ⟨hqs, hp, fun v hv => ?_⟩
    rw [hu, Option.some.injEq] at hv
    exact hv ▸ halong

/-- If each step keeps `Q` exactly when it meets `P`, an execution keeps `Q`
exactly when all its steps meet `P`. -/
theorem run_iff_along {I Q : σ → Prop} {P : σ → Λ → Prop}
    (hI : ∀ s l t, I s → step s l = some t → I t)
    (hQ : ∀ s l t, I s → step s l = some t → (Q t ↔ Q s ∧ P s l)) {s t : σ} {ls : List Λ}
    (hs : I s) (h : run step s ls = some t) : Q t ↔ Q s ∧ Along step P s ls := by
  induction ls generalizing s with
  | nil => cases h; simp [Along]
  | cons l ls ih =>
    obtain ⟨u, hu, ht⟩ := run_cons_eq_some.mp h
    have hall : Along step P s (l :: ls) ↔ P s l ∧ Along step P u ls := by
      simp only [Along, hu, Option.some.injEq, forall_eq']
    rw [ih (hI s l u hs hu) ht, hQ s l u hs hu, hall, and_assoc]

/-- Steps that pay from a natural-valued potential: an execution takes at most as
many of them as the potential it starts with. -/
theorem run_potential {I : σ → Prop} {P : σ → Λ → Prop} (pays : Λ → Bool) (potential : σ → ℕ)
    (hI : ∀ s l t, I s → P s l → step s l = some t → I t)
    (hpay : ∀ s l t, I s → P s l → step s l = some t →
      (if pays l then 1 else 0) + potential t ≤ potential s) {s t : σ} {ls : List Λ}
    (hs : I s) (hP : Along step P s ls) (h : run step s ls = some t) :
    ls.countP pays + potential t ≤ potential s := by
  induction ls generalizing s with
  | nil => cases h; simp
  | cons l ls ih =>
    obtain ⟨u, hu, ht⟩ := run_cons_eq_some.mp h
    have hl := hpay s l u hs hP.1 hu
    have hr := ih (hI s l u hs hP.1 hu) (hP.2 u hu) ht
    rw [List.countP_cons]
    omega

end Bbench.Transition
