import Mathlib.Data.Nat.Notation

/-! # A linear history of revisions

The revisions that change a path, and its files in each revision. The last change that is not after a revision
determines the files.
-/

namespace CBuild.Svn

/-- The history of a path, as far as it will ever go; the path is there from the revision `created` on. -/
structure History (Files : Type) where
  files : ℕ → Files
  changed : ℕ → Bool
  created : ℕ
  changed_created : changed created = true
  same : ∀ r, changed (r + 1) = false → files (r + 1) = files r

namespace History

variable {Files : Type} (history : History Files)

/-- `svn log -l 1` in a working copy that is based on the revision. -/
def lastChange : ℕ → ℕ
  | 0 => 0
  | r + 1 => if history.changed (r + 1) then r + 1 else lastChange r

/-- The path is there in the revision, which is not after the last one. -/
def Exists (head r : ℕ) : Prop := history.created ≤ r ∧ r ≤ head

instance (head r : ℕ) : Decidable (history.Exists head r) := inferInstanceAs (Decidable (_ ∧ _))

theorem files_lastChange (r : ℕ) : history.files (history.lastChange r) = history.files r := by
  induction r with
  | zero => rfl
  | succ r ih =>
    rw [lastChange]
    split
    · rfl
    · next unchanged => rw [ih, history.same r (by simpa using unchanged)]

/-- The last change determines the files. -/
theorem files_eq {r other : ℕ} (last : history.lastChange r = history.lastChange other) :
    history.files r = history.files other := by
  rw [← history.files_lastChange r, last, history.files_lastChange]

theorem lastChange_le (r : ℕ) : history.lastChange r ≤ r := by
  induction r with
  | zero => exact Nat.le_refl 0
  | succ r ih =>
    rw [lastChange]
    split
    · exact Nat.le_refl _
    · exact Nat.le_trans ih (Nat.le_succ r)

theorem created_le_lastChange {r : ℕ} (there : history.created ≤ r) : history.created ≤ history.lastChange r := by
  induction r with
  | zero => exact there
  | succ r ih =>
    rw [lastChange]
    split
    · exact there
    · next unchanged =>
      have earlier : history.created ≠ r + 1 := fun same => unchanged (same ▸ history.changed_created)
      exact ih (by omega)

theorem lastChange_lastChange (r : ℕ) :
    history.lastChange (history.lastChange r) = history.lastChange r := by
  induction r with
  | zero => rfl
  | succ r ih =>
    cases change : history.changed (r + 1) <;> simp [lastChange, change, ih]

variable {history} in
theorem Exists.mono {head later r : ℕ} (there : history.Exists head r) (grows : head ≤ later) :
    history.Exists later r :=
  ⟨there.1, Nat.le_trans there.2 grows⟩

end History

end CBuild.Svn
