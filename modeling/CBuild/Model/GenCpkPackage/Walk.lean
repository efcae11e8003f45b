import CBuild.Files.Walk
import CBuild.Model.GenBuildChain.Search
import CBuild.Model.GenCpkPackage

/-! # The folders of rootfs

The walk of `process_rootfs`. The names of the folders in a folder come in the order of `os.walk`, are pruned by
`ignore_dirs` while the loop goes over them, and are sorted; links to folders are among them, but are not walked into.
-/

namespace CBuild.Model.GenCpkPackage

open CBuild.Files

/-- A folder below rootfs: the names that lead to it. -/
abbrev Folder := List Text

local instance folderLawful : LawfulBEq Folder := inferInstance

/-- What `os.walk` finds in rootfs. A name in `listdirs` that is no folder is a link to one. -/
structure Listing where
  folders : List Folder
  root : [] ∈ folders
  closed : ∀ folder name, folder ++ [name] ∈ folders → folder ∈ folders
  listdirs : Folder → List Text
  distinct : ∀ folder, (listdirs folder).Nodup
  listed : ∀ folder name, folder ++ [name] ∈ folders → name ∈ listdirs folder
  listfiles : Folder → List Text

/-- `for idir in dirs: if idir in ignore_dirs: dirs.remove(idir)`. The loop goes by positions in the list as it is. -/
def removeIgnored (ignoreDirs : List Text) (position : ℕ) (dirs : List Text) : List Text :=
  if here : position < dirs.length then
    if dirs[position] ∈ ignoreDirs then removeIgnored ignoreDirs (position + 1) (dirs.erase dirs[position])
    else removeIgnored ignoreDirs (position + 1) dirs
  else dirs
termination_by dirs.length - position
decreasing_by
  · have shorter := List.length_erase_le (a := dirs[position]) (l := dirs)
    omega
  · omega

namespace Listing

variable (listing : Listing)

/-- The folders that the walk goes on into. -/
def walkDirs (ignoreDirs : List Text) (folder : Folder) : List Text :=
  let dirs := listing.listdirs folder
  let dirs := if dirs ≠ [] ∧ ignoreDirs ≠ [] then removeIgnored ignoreDirs 0 dirs else dirs
  (GenBuildChain.sortOn id dirs).filter fun name => folder ++ [name] ∈ listing.folders

end Listing

/-- The folders that are not skipped as known. -/
def allPathes (roots : List Folder) : List Folder :=
  roots.foldl (fun all root => if root ∈ all then all else all ++ [root]) []

/-- The files of the folders for which a test holds, as `process_ldso`, `process_rpath` and `process_libs` list them. -/
def fileItems (test : Folder → Text → Bool) (folders : List (Folder × List Text)) : List (Folder × List Text) :=
  (folders.map fun folder => (folder.1, folder.2.filter (test folder.1))).filter (·.2 ≠ [])

/-- What `process_rootfs` leaves; the last entries of `processLdso` and `processRpath` are those of syslib. -/
structure Processed where
  folders : List Folder
  cpk : Cpk Folder
  processLdso : List (Folder × List Text)
  processRpath : List (Folder × List Text)

def hasInterpreter (rootfs : Rootfs Folder) (folder : Folder) (ifile : Text) : Bool :=
  match rootfs (folder, ifile) with
  | some (.file (.dynamic interpreter _)) => interpreter.isSome
  | _ => false

def hasNeeded (rootfs : Rootfs Folder) (folder : Folder) (ifile : Text) : Bool :=
  match rootfs (folder, ifile) with
  | some (.file (.dynamic _ needed)) => needed ≠ []
  | _ => false

def syslibDir : Folder := ["syslib".toList]

/-- `process_rootfs`, with fuel for the depth of the folders. -/
def processRootfsDirs (listing : Listing) (rootfs : Rootfs Folder) (ignoreDirs : List Text) (fuel : ℕ) :
    Option Processed := do
  let roots ← walk (listing.walkDirs ignoreDirs) fuel []
  let folders := (allPathes roots).map fun root => (root, listing.listfiles root)
  some
    { folders := allPathes roots
      cpk := processRootfs rootfs syslibDir folders {}
      processLdso := fileItems (hasInterpreter rootfs) folders ++ [(syslibDir, [])]
      processRpath := fileItems (hasNeeded rootfs) folders ++ [(syslibDir, [])] }

end CBuild.Model.GenCpkPackage
