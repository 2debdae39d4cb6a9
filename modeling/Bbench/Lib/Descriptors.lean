import Mathlib.Data.Finset.Basic
import Mathlib.Data.Finset.Disjoint
import Mathlib.Data.Finset.SDiff

/-! Descriptor tables. A process has descriptors that survive an `exec` and ones
that are closed by it; `fork` copies the table. -/

namespace Bbench.Descriptors

/-- The open descriptors of a process; those of `cloexec` are closed by an `exec`. -/
structure Table where
  kept : Finset ℕ
  cloexec : Finset ℕ
  disjoint : Disjoint kept cloexec
  deriving DecidableEq

namespace Table
def fds (T : Table) : Finset ℕ := T.kept ∪ T.cloexec

/-- The table a process starts with: what is left after an `exec` has no such mark. -/
def started (fds : Finset ℕ) : Table := ⟨fds, ∅, Finset.disjoint_empty_right _⟩

/-- A new descriptor, which the kernel takes from those not in use. -/
def add (T : Table) (fd : ℕ) (cloexec : Bool) : Option Table :=
  if h : fd ∈ T.fds then none
  else
    have hnew : fd ∉ T.kept ∧ fd ∉ T.cloexec := by simpa [fds] using h
    if cloexec then
      some ⟨T.kept, insert fd T.cloexec, Finset.disjoint_insert_right.mpr ⟨hnew.1, T.disjoint⟩⟩
    else some ⟨insert fd T.kept, T.cloexec, Finset.disjoint_insert_left.mpr ⟨hnew.2, T.disjoint⟩⟩

def closeAll (T : Table) (fds : Finset ℕ) : Table :=
  ⟨T.kept \ fds, T.cloexec \ fds, T.disjoint.mono Finset.sdiff_subset Finset.sdiff_subset⟩

def close (T : Table) (fd : ℕ) : Table := T.closeAll {fd}

def exec (T : Table) : Table := started T.kept

/-- What is open after an `exec`. -/
def survivors (T : Table) : Finset ℕ := T.exec.fds

variable {T T' : Table} {fd : ℕ}

@[simp] theorem survivors_eq (T : Table) : T.survivors = T.kept := by
  simp [survivors, exec, started, fds]

theorem notMem_kept (h : fd ∈ T.cloexec) : fd ∉ T.kept :=
  fun hk => Finset.disjoint_left.mp T.disjoint hk h

/-- A descriptor marked close-on-exec does not show among the survivors. -/
theorem add_cloexec (h : T.add fd true = some T') :
    T'.kept = T.kept ∧ T'.cloexec = insert fd T.cloexec ∧ fd ∉ T.cloexec := by
  unfold add at h
  split at h
  · cases h
  · rename_i hnew
    cases h
    exact ⟨rfl, rfl, fun hc => hnew (Finset.mem_union_right _ hc)⟩

theorem add_kept (h : T.add fd false = some T') :
    T'.kept = insert fd T.kept ∧ T'.cloexec = T.cloexec ∧ fd ∉ T.kept := by
  unfold add at h
  split at h
  · cases h
  · rename_i hnew
    cases h
    exact ⟨rfl, rfl, fun hk => hnew (Finset.mem_union_left _ hk)⟩

theorem kept_close (h : fd ∉ T.kept) : (T.close fd).kept = T.kept :=
  Finset.sdiff_eq_self_of_disjoint (Finset.disjoint_singleton_right.mpr h)

theorem mem_cloexec_close {fd' : ℕ} (h : fd' ∈ T.cloexec) (hne : fd' ≠ fd) :
    fd' ∈ (T.close fd).cloexec :=
  Finset.mem_sdiff.mpr ⟨h, by simpa using hne⟩

/-- Closing what was opened gives back what there was. -/
theorem kept_closeAll {base fds : Finset ℕ} (h : T.kept = base ∪ fds)
    (hdisjoint : Disjoint base fds) : (T.closeAll fds).kept = base := by
  change T.kept \ fds = base
  rw [h, Finset.union_sdiff_cancel_right hdisjoint]

end Table

end Bbench.Descriptors
