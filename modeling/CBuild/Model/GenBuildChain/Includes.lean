import CBuild.Files.Disk
import CBuild.Model.GenBuildChain.Search

/-! # Included files

The `mk.deps` files that `add_normal_item` opens, on directories with links, where a path may have dots in it.
-/

namespace CBuild.Model.GenBuildChain

open Files Text

/-- The directories with what the search reads of their files, and the environment. -/
structure Source extends Disk where
  vdeps : Place → Option (List VDepsLine)
  deps : Place → Option (List DepsLine)
  continues : Place → Bool
  replaceEnv : Text → Text

/-- What is found along paths. -/
def Source.tree (source : Source) : Tree where
  dirs path := ((source.resolve path).map source.subdirs).getD []
  vdeps path := (source.resolve path).bind source.vdeps
  deps path := (source.resolve path).bind source.deps
  continues path := (source.resolve path).any source.continues
  replaceEnv := source.replaceEnv

variable (tree : Tree)

/-- The directories that the statements of a file include, in order. -/
def includedPairs (pathpair : PathPair) (lines : List DepsLine) : List PathPair :=
  lines.flatMap fun
    | .deps .. => []
    | .incdeps paths => (sortOn id paths).map (includedPair tree pathpair)

/-- The files that are opened for a directory, in order. -/
def openedFiles : ℕ → PathPair → Option (List PathPair)
  | 0, _ => none
  | fuel + 1, pathpair =>
    match tree.deps pathpair.path with
    | none => some []
    | some lines => do
      let included ← (includedPairs tree pathpair lines).mapM (openedFiles fuel)
      some (pathpair :: included.flatten)

/-- The files that are opened for PathList. -/
def openedAll (fuel : ℕ) (pathList : List PathPair) : Option (List PathPair) := do
  let files ← pathList.mapM fun pathpair => if pathpair.target ≠ [] then some [] else openedFiles tree fuel pathpair
  some files.flatten

def rootOf (rootdir : Text) : Text := if rootdir.getLast? = some '/' then rootdir.dropLast else rootdir

end CBuild.Model.GenBuildChain
