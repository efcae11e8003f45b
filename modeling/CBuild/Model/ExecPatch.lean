import Mathlib.Data.PEquiv
import CBuild.Text.Basic

/-! # Patching the sources

`exec_patch.sh`. The program `patch` is outside: a patch is a partial bijection of source trees (without
the `.orig` backups), and what it leaves of a tree to which it does not apply is a function of its own.
-/

namespace CBuild.Model.ExecPatch

open Text

/-- What `patch` does with a patch file. -/
structure Patch (Tree : Type*) where
  delta : Tree ≃. Tree
  /-- the tree after an attempt to apply the patch where it does not apply -/
  failed : Tree → Tree

/-- What a word of `patch_src` is: a directory with what `ls` says, a file, or nothing. -/
inductive Entry
  | folder (names : List Text)
  | file
  | missing

def patchArr (entry : Text → Entry) (patchSrc : Text) : List Text :=
  (words patchSrc).flatMap fun src =>
    match entry src with
    | .folder names => (names.filter (".patch".toList.isSuffixOf ·)).map (src ++ '/' :: ·)
    | .file => [src]
    | .missing => []

section

variable {Tree : Type*} (patchOpt : Text)

/-- `patch_state` is empty: the patch can be taken out of the tree. -/
def Patch.reversible (patch : Patch Tree) (tree : Tree) : Bool := (patch.delta.symm tree).isSome

/-- One patch: it is put in when it cannot be taken out, or taken out when it can be. -/
def execOne (tree : Tree) (patch : Patch Tree) : Tree :=
  if patchOpt = "patch".toList ∧ ¬ patch.reversible tree then (patch.delta tree).getD (patch.failed tree)
  else if patchOpt = "unpatch".toList ∧ patch.reversible tree then (patch.delta.symm tree).getD tree
  else tree

def execAll (patches : List (Patch Tree)) (tree : Tree) : Tree := patches.foldl (execOne patchOpt) tree

/-- `exec_patch.sh <method> <patch_srcs> <patch_dst>`; there may be nothing at the destination. -/
def execPatch (entry : Text → Entry) (patches : Text → Patch Tree) (patchSrc : Text) (patchDst : Option Tree) :
    Option Tree :=
  patchDst.map (execAll patchOpt ((patchArr entry patchSrc).map patches))

end

end CBuild.Model.ExecPatch
