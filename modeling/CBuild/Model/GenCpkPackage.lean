import CBuild.Files.Links
import CBuild.Text.Basic

/-! # Generating a CPK

`process_rootfs`, `process_system` and `process_syslib` of `gen_cpk_package.py`. The folders of rootfs are
the ones that `os.walk` visits; a folder is its real path.
-/

namespace CBuild.Model.GenCpkPackage

open CBuild.Files

variable {Dir : Type}

/-- What `file` and `readelf -d` tell of a file. The interpreter is its base name. -/
inductive Elf where
  | dynamic (interpreter : Option Text) (needed : List Text)
  | static

def Elf.needed : Elf → List Text
  | dynamic _ needed => needed
  | static => []

def Elf.interpreter : Elf → Option Text
  | dynamic interpreter _ => interpreter
  | static => none

abbrev Rootfs (Dir : Type) := Tree (Dir × Text) Elf

/-- The directories of the system with what is in them, in the order of `os.listdir`. -/
abbrev System (Dir : Type) := List ((Dir × Text) × Node (Dir × Text) Elf)

structure Cpk (Dir : Type) where
  ldso : Text := []
  pathes : List Dir := []
  processLibs : List (Dir × List Text) := []
  systemLibs : List (Dir × List Text) := []
  existedLibs : List Text := []
  unknownLibs : List Text := []
  wantedLibs : List Text := []
  indirectLibs : List Text := []

def isLib (ifile : Text) : Bool := ".so".toList <:+ ifile || ".so.".toList <:+: ifile

def addNew (names : List Text) (name : Text) : List Text := if name ∈ names then names else names ++ [name]

section

variable (rootfs : Rootfs Dir)

/-- A file of a folder, and the libraries of the folder so far. -/
def scanFile (root : Dir) (scan : Cpk Dir × List Text) (ifile : Text) : Cpk Dir × List Text :=
  let (cpk, libItem) := scan
  match rootfs (root, ifile) with
  | some (.file (.dynamic interpreter needed)) =>
    let cpk :=
      { cpk with
        ldso := if cpk.ldso = [] then interpreter.getD [] else cpk.ldso
        wantedLibs := needed.foldl addNew cpk.wantedLibs }
    if isLib ifile then ({ cpk with existedLibs := cpk.existedLibs ++ [ifile] }, libItem ++ [ifile]) else (cpk, libItem)
  | some (.link _) =>
    if isLib ifile then ({ cpk with existedLibs := cpk.existedLibs ++ [ifile] }, libItem ++ [ifile]) else (cpk, libItem)
  | _ => (cpk, libItem)

def scanDir (cpk : Cpk Dir) (folder : Dir × List Text) : Cpk Dir :=
  let (cpk, libItem) := folder.2.foldl (scanFile rootfs folder.1) (cpk, [])
  if libItem ≠ [] then
    { cpk with
      processLibs := cpk.processLibs ++ [(folder.1, libItem)]
      pathes := cpk.pathes ++ [folder.1] }
  else cpk

variable [DecidableEq Dir]

def processRootfs (syslib : Dir) (folders : List (Dir × List Text)) (cpk : Cpk Dir) : Cpk Dir :=
  let cpk := folders.foldl (scanDir rootfs) cpk
  let wantedLibs := if cpk.ldso ≠ [] then addNew cpk.wantedLibs cpk.ldso else cpk.wantedLibs
  { cpk with
    wantedLibs := wantedLibs.filter (· ∉ cpk.existedLibs)
    pathes := if syslib ∈ cpk.pathes then cpk.pathes else cpk.pathes ++ [syslib] }

end

section

variable [DecidableEq Dir] (system : System Dir)

def systemTree : Tree (Dir × Text) Elf := fun place => system.lookup place

/-- `os.path.realpath` of a library. -/
def realpath (place : Dir × Text) : Dir × Text := follow (systemTree system) system.length place

def listdir (path : Dir) : List Text := (system.filter fun entry => entry.1.1 = path).map fun entry => entry.1.2

def searchDir (search : List Dir × Cpk Dir) (path : Dir) : List Dir × Cpk Dir :=
  let (sysPathes, cpk) := search
  if path ∈ sysPathes then (sysPathes, cpk)
  else
    let libs := (listdir system path).filter isLib
    (sysPathes ++ [path], if libs ≠ [] then { cpk with systemLibs := cpk.systemLibs ++ [(path, libs)] } else cpk)

/-- The paths are the ones that are directories. -/
def processSystem (tmpPathes : List Dir) (cpk : Cpk Dir) : Cpk Dir :=
  (tmpPathes.foldl (searchDir system) ([], cpk)).2

end

/-- `process_syslib` on its way: `libs`, the rootfs, and the files that have been copied to syslib. -/
structure Packing (Dir : Type) extends Cpk Dir where
  libs : List Text
  tree : Rootfs Dir
  copied : List (Text × Elf) := []

namespace Packing

/-- A name that is neither there nor looked for. -/
def IsNew (packing : Packing Dir) (rlib : Text) : Prop :=
  rlib ∉ packing.existedLibs ∧ rlib ∉ packing.unknownLibs ∧ rlib ∉ packing.libs

instance (packing : Packing Dir) (rlib : Text) : Decidable (packing.IsNew rlib) := instDecidableAnd

def needLib (packing : Packing Dir) (rlib : Text) : Packing Dir :=
  if packing.IsNew rlib then { packing with libs := packing.libs ++ [rlib] } else packing

/-- A library that a library of the system needs. -/
def needIndirect (packing : Packing Dir) (rlib : Text) : Packing Dir :=
  { packing.needLib rlib with
    indirectLibs := if packing.IsNew rlib then packing.indirectLibs ++ [rlib] else packing.indirectLibs }

/-- The interpreter of a copied file counts when there is none yet. -/
def needInterpreter (packing : Packing Dir) (elf : Elf) : Packing Dir :=
  match elf.interpreter with
  | some ldso => if packing.ldso = [] then needLib { packing with ldso } ldso else packing
  | none => packing

variable [DecidableEq Dir] (system : System Dir) (syslib : Dir)

/-- The library is copied to syslib; a link there is followed, up to the limit of the system. -/
def copyLib (packing : Packing Dir) (real : Dir × Text) : Option (Packing Dir) :=
  match systemTree system real with
  | some (.file elf) =>
    let packing := elf.needed.foldl needIndirect (packing.needInterpreter elf)
    (write packing.tree 40 (syslib, real.2) elf).map fun tree =>
      { packing with
        tree
        existedLibs := packing.existedLibs ++ [real.2]
        libs := packing.libs.erase real.2
        copied := packing.copied ++ [(real.2, elf)] }
  | _ => none

/-- `ln -sfT reallib lib` in syslib. -/
def linkLib (packing : Packing Dir) (reallib lib : Text) : Packing Dir :=
  { packing with
    tree := Function.update packing.tree (syslib, lib) (some (.link (syslib, reallib)))
    existedLibs := packing.existedLibs ++ [lib]
    libs := packing.libs.erase lib }

def realLib (path : Dir) (lib : Text) : Dir × Text :=
  match systemTree system (path, lib) with
  | some (.link _) => realpath system (path, lib)
  | _ => (path, lib)

/-- The first library of the list. -/
def processLib (packing : Packing Dir) (lib : Text) : Option (Packing Dir) :=
  match packing.systemLibs.find? fun item => lib ∈ item.2 with
  | some item =>
    let real := realLib system item.1 lib
    let copied :=
      if real.2 ∉ packing.existedLibs ∧ real.2 ∉ packing.unknownLibs then copyLib system syslib packing real
      else some packing
    copied.map fun packing => if lib ≠ real.2 then linkLib syslib packing real.2 lib else packing
  | none => some { packing with unknownLibs := packing.unknownLibs ++ [lib], libs := packing.libs.erase lib }

def processSyslib : ℕ → Packing Dir → Option (Packing Dir)
  | 0, _ => none
  | turns + 1, packing =>
    match packing.libs with
    | [] => some packing
    | lib :: _ => (processLib system syslib packing lib).bind (processSyslib turns)

end Packing

variable [DecidableEq Dir]

/-- Rootfs and the system are scanned, and the wanted libraries are to be worked off. -/
def scanned (rootfs : Rootfs Dir) (syslib : Dir) (folders : List (Dir × List Text)) (system : System Dir)
    (tmpPathes : List Dir) : Packing Dir :=
  let cpk := processSystem system tmpPathes (processRootfs rootfs syslib folders {})
  { cpk with libs := cpk.wantedLibs, tree := rootfs }

end CBuild.Model.GenCpkPackage
