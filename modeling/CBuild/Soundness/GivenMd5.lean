import CBuild.Model.FetchPackage.Archive

/-! # A given md5

Every route of `do_fetch` that downloads or looks at the package file again compares its checksum.
Only when the file and its record are both there, nothing is compared.
-/

namespace CBuild.Soundness.GivenMd5

open CBuild.Model.FetchPackage

variable {Content : Type} {md5sum : Content → Text} {md5 : Text} {downloads : Downloads Content}
  {dir : DownDir Content}

/-- The package file and its record have this checksum. -/
def Enforced (md5sum : Content → Text) (md5 : Text) (dir : DownDir Content) : Prop :=
  (∃ file, dir.package = some file ∧ md5sum file = md5) ∧ dir.checksrc = some md5

/-- What is accepted was compared. -/
theorem accept_enforces (nonempty : md5 ≠ []) {package : Option Content} {checksrc : Option Text}
    (success : (accept md5sum md5 package checksrc).2 = true) :
    Enforced md5sum md5 (accept md5sum md5 package checksrc).1 := by
  cases package with
  | none => contradiction
  | some file =>
    rw [accept] at success ⊢
    by_cases same : md5 = md5sum file
    · rw [if_neg fun other => other.2 same]
      exact ⟨⟨file, rfl, same.symm⟩, congrArg some same.symm⟩
    · rw [if_pos ⟨nonempty, same⟩] at success
      contradiction

/-- A given md5 holds after every success, unless a file and a record of another checksum were there. -/
theorem doFetch_enforces_iff (md5sum : Content → Text) (urls md5 : Text) (nonempty : md5 ≠ [])
    (given : (parseUrls urls).md5 = md5) (downloads : Downloads Content) (dir : DownDir Content) :
    ((doFetch md5sum (parseUrls urls).md5 downloads dir).2 = true →
      Enforced md5sum md5 (doFetch md5sum (parseUrls urls).md5 downloads dir).1) ↔
    (dir.package.isSome = true ∧ dir.checksrc.isSome = true → Enforced md5sum md5 dir) := by
  rw [given]
  by_cases present : dir.package.isSome = true ∧ dir.checksrc.isSome = true
  · have accepted : doFetch md5sum md5 downloads dir = (dir, true) := by
      rw [doFetch, if_neg]
      rw [not_or, Option.isNone_iff_eq_none, Option.isNone_iff_eq_none]
      exact ⟨Option.isSome_iff_ne_none.mp present.1, Option.isSome_iff_ne_none.mp present.2⟩
    rw [accepted]
    exact ⟨fun enforced _ => enforced rfl, fun enforced _ => enforced present⟩
  · have fresh : dir.package.isNone ∨ dir.checksrc.isNone := by
      rw [not_and_or, Bool.not_eq_true, Bool.not_eq_true, Option.isSome_eq_false_iff,
        Option.isSome_eq_false_iff] at present
      exact present
    rw [doFetch, if_pos fresh]
    exact iff_of_true (accept_enforces nonempty) fun both => absurd both present

/-- The checksum of a file, for the examples: the file itself. -/
def copy (file : Text) : Text := file

/-- A file without a record, and a server that serves another one at the second try. -/
def replacing : Downloads Text := ⟨false, none, [(false, some "part".toList), (true, some "b1".toList)]⟩

/-- A file without a record is downloaded again when it has another checksum. -/
theorem replaced_enforced :
    (doFetch copy (parseUrls "http://host/a.tar;md5=b1".toList).md5 replacing ⟨some "a0".toList, none⟩).2 = true ∧
    Enforced copy "b1".toList
      (doFetch copy (parseUrls "http://host/a.tar;md5=b1".toList).md5 replacing ⟨some "a0".toList, none⟩).1 := by
  have success : (doFetch copy (parseUrls "http://host/a.tar;md5=b1".toList).md5 replacing
      ⟨some "a0".toList, none⟩).2 = true := by decide
  exact ⟨success, (doFetch_enforces_iff copy "http://host/a.tar;md5=b1".toList "b1".toList (by decide) (by decide)
    _ _).mpr (fun present => absurd present (by decide)) success⟩

/-- The file and the record of an earlier fetch are taken for the new one. -/
theorem leftover_accepted :
    (parseUrls "http://host/a.tar;md5=b1".toList).md5 = "b1".toList ∧
    (doFetch copy (parseUrls "http://host/a.tar;md5=b1".toList).md5 ⟨false, none, []⟩
      ⟨some "a0".toList, some "a0".toList⟩) = (⟨some "a0".toList, some "a0".toList⟩, true) ∧
    ¬ Enforced copy "b1".toList ⟨some "a0".toList, some "a0".toList⟩ := by
  refine ⟨by decide, by decide, ?_⟩
  rintro ⟨_, record⟩
  exact absurd record (by decide)

end CBuild.Soundness.GivenMd5
