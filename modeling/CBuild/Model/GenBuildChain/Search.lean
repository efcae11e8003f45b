import CBuild.Model.GenBuildChain.Menus
import Mathlib.Data.List.Sort

/-! # From the directory tree to the forest

`Deps.search_normal_depends`, `Deps.__add_virtual_deps` and `Deps.add_normal_item`. A file is the
list of its matched statements; other lines of it place no item. `none` is `sys.exit`, or fuel that
is too small for the depth of the tree or of the included files.
-/

namespace CBuild.Model.GenBuildChain

open Text

/-- `#VDEPS(vtype) target(infos): ...`; the target is not empty. -/
structure VDepsLine where
  vtype : Text
  target : Text
  infos : List Text
  named : target ≠ []

inductive DepsLine
  /-- `#DEPS(makestr) target(targets): ...` -/
  | deps (makestr target : Text) (targets : List Text)
  /-- `#INCDEPS: paths` -/
  | incdeps (paths : List Text)

/-- The directories and the files in them; `vdeps` and `deps` are keyed by the directory. -/
structure Tree where
  dirs : Text → List Text
  vdeps : Text → Option (List VDepsLine)
  deps : Text → Option (List DepsLine)
  /-- a file `continue` is in the directory -/
  continues : Text → Bool
  /-- `re.sub(r'(\$\{[\w\-]+\})', re_replace_env, makestr)` -/
  replaceEnv : Text → Text

/-- `(path, spath, target)`; the target is empty for a directory with a `mk.deps` file. -/
structure PathPair where
  path : Text
  spath : Text
  target : Text

/-- Sorting by names, as `sort()` orders strings. -/
def sortOn {α : Type} (name : α → Text) (list : List α) : List α :=
  list.insertionSort fun a b => ¬ name b < name a

/-- The directories that `os.walk` visits below a directory, itself first. -/
def walk (tree : Tree) (ignoreDirs goOnDirs : List Text) : ℕ → Text → Option (List Text)
  | 0, _ => none
  | fuel + 1, root => do
    let dirs := sortOn id ((tree.dirs root).diff ignoreDirs)
    let dirs := if (tree.deps root).isSome ∧ tree.continues root = false ∧ root ∉ goOnDirs then [] else dirs
    let below ← dirs.mapM fun dir => walk tree ignoreDirs goOnDirs fuel (joinPath root dir)
    some (root :: below.flatten)

def VType.ofText (vtype : Text) : Option VType :=
  if vtype = "menuconfig".toList then some .menuconfig
  else if vtype = "config".toList then some .config
  else if vtype = "menuchoice".toList then some .menuchoice
  else if vtype = "choice".toList then some .choice
  else none

def addInfo (item : Node) (info : Text) : Node :=
  if info.head? = some '/' then { item with spath := item.spath ++ info }
  else if item.vtype.isChoice then { item with targets := item.targets ++ [info] }
  else item

/-- `-native` is appended to a name, unless it has it or the package has no native copy. -/
def toNative (uniPackages : List Text) (dep : Text) : Text :=
  if nativePart.isSuffixOf dep || uniPackages.contains dep then dep else dep ++ nativePart

def switchNative (uniPackages : List Text) (target : Text) (deps : List Text) : List Text :=
  deps.foldl (fun kept dep =>
    let dep := toNative uniPackages dep
    if dep ≠ target ∧ dep ∉ kept then kept ++ [dep] else kept) []

/-- `__get_native_deps`, as far as the placement reads it. -/
def getNativeDeps (uniPackages : List Text) (item : Node) : Node :=
  let target := item.target ++ nativePart
  { item with target, targets := switchNative uniPackages target item.targets }

/-- The items of one `#VDEPS` statement. -/
def virtualItems (uniPackages : List Text) (root spath : Text) (line : VDepsLine) : Option (List Node) := do
  let vtype ← VType.ofText line.vtype
  let item := line.infos.foldl addInfo { path := root, spath, vtype, target := line.target }
  if "native".toList ∈ item.targets then
    let item := { item with targets := item.targets.erase "native".toList }
    some (if vtype.isMenu then [item] else [item, getNativeDeps uniPackages item])
  else some [item]

/-- `__add_virtual_deps`: the items of a `mk.vdeps` file, without repeated statements. -/
def addVirtualDeps (uniPackages : List Text) (root spath : Text) :
    List VDepsLine → List Text → Option (List Node)
  | [], _ => some []
  | line :: lines, targetList => do
    let items ← virtualItems uniPackages root spath line
    if line.target ∈ targetList then none
    else
      let rest ← addVirtualDeps uniPackages root spath lines (targetList ++ items.map (·.target))
      some (items ++ rest)

/-- What a visited directory appends to VirtualList and to PathList. -/
def visitDir (tree : Tree) (uniPackages : List Text) (rootDir root : Text) :
    Option (List Node × List PathPair) := do
  let spath := replaceOnce rootDir [] root
  let items ← addVirtualDeps uniPackages root spath ((tree.vdeps root).getD []) []
  let pairs := items.map fun item => ⟨item.path, item.spath, item.target⟩
  some (items, if (tree.deps root).isSome then pairs ++ [⟨root, spath, []⟩] else pairs)

def searchNormalDepends (tree : Tree) (uniPackages searchDirs ignoreDirs goOnDirs : List Text) (fuel : ℕ) :
    Option (List Node × List PathPair) := do
  let found ← searchDirs.mapM fun rootdir => do
    let rootdir := if rootdir.getLast? = some '/' then rootdir.dropLast else rootdir
    let rootDir := (if searchDirs.length = 1 then rootdir else dirname rootdir) ++ ['/']
    let roots ← walk tree ignoreDirs goOnDirs fuel rootdir
    roots.mapM (visitDir tree uniPackages rootDir)
  some (found.flatten.flatMap Prod.fst, found.flatten.flatMap Prod.snd)

/-- `__get_append_flag` with `check_append`: the choice that claims the item. -/
def claimedBy (virtualList : List Node) (item : Node) : Option Node :=
  virtualList.find? fun vitem => vitem.vtype = .choice ∧ item.target ∈ vitem.targets

/-- A virtual item goes into the choice that claims it, or is placed by its path. -/
def addVirtualItem (virtualList : List Node) (item : Node) : Call :=
  match claimedBy virtualList item with
  | some choice => .choose choice item
  | none => .addItemToList item

/-- `ItemDict[key] = item`: a key that is there keeps its place and gets the new item. -/
def setKey (itemDict : List (Text × Node)) (entry : Text × Node) : List (Text × Node) :=
  match itemDict with
  | [] => [entry]
  | other :: rest => if other.1 = entry.1 then entry :: rest else other :: setKey rest entry

/-- The local variables of `add_normal_item`, and the appends so far. -/
structure FileState where
  item : Node := { path := [], spath := [], vtype := .package, target := [] }
  makestr : Text := []
  nativeFlag : Bool := false
  /-- the assignments to ItemDict, in order -/
  assigned : List (Text × Node) := []
  calls : List Call := []

namespace FileState

def itemDict (fs : FileState) : List (Text × Node) := fs.assigned.foldl setKey []

/-- An actual item goes into the choice that claims it, into ItemDict when its Makefile is given with
a path, or is placed at once; in any case it joins ActualList. -/
def append (virtualList : List Node) (key : Text) (item : Node) (fs : FileState) : FileState :=
  match claimedBy virtualList item with
  | some choice => { fs with calls := fs.calls ++ [.choose choice item, .actual item] }
  | none =>
    if '/' ∈ fs.makestr then
      { fs with assigned := fs.assigned ++ [(key, item)], calls := fs.calls ++ [.actual item] }
    else { fs with calls := fs.calls ++ [.addItemToList item, .actual item] }

/-- The native copy of the last item, when it is due. -/
def flushNative (virtualList : List Node) (uniPackages : List Text) (fs : FileState) : FileState :=
  if fs.nativeFlag then
    { fs with nativeFlag := false }.append virtualList (fs.makestr ++ ".native".toList)
      (getNativeDeps uniPackages fs.item)
  else fs

/-- The items in ItemDict, in the order of their keys, after the appends so far. -/
def flushDict (fs : FileState) : List Call :=
  fs.calls ++ (sortOn Prod.fst fs.itemDict).map fun entry => .addItemToList entry.2

end FileState

/-- `${...}` is replaced from the environment. -/
def realPath (tree : Tree) (path : Text) : Text :=
  if ['$', '\x7b'] <:+: path then tree.replaceEnv path else path

/-- The item of a `#DEPS` statement. Its dependences and attributes are not read by the placement. -/
def depsItem (tree : Tree) (pathpair : PathPair) (makestr target : Text) : Node :=
  let makes := splitPath (realPath tree makestr)
  if '/' ∈ realPath tree makestr ∧ makestr.head? ≠ some '$' then
    { path := joinPath pathpair.path makes.1, spath := joinPath pathpair.spath makes.1
      vtype := .package, target }
  else { path := pathpair.path, spath := pathpair.spath, vtype := .package, target }

def addDeps (tree : Tree) (virtualList : List Node) (uniPackages : List Text) (pathpair : PathPair)
    (makestr target : Text) (targets : List Text) (fs : FileState) : FileState :=
  let fs := fs.flushNative virtualList uniPackages
  if target = "ignore".toList then
    { fs with item := { path := [], spath := [], vtype := .package, target } }
  else
    let item := depsItem tree pathpair makestr target
    { fs with item, makestr, nativeFlag := "native".toList ∈ targets }.append virtualList makestr item

/-- The directory that an `#INCDEPS` statement names. -/
def includedPair (tree : Tree) (pathpair : PathPair) (path : Text) : PathPair :=
  ⟨joinPath pathpair.path (realPath tree path), joinPath pathpair.spath (realPath tree path), []⟩

/-- One statement; `includes` adds the items of an included directory. -/
def addStatement (tree : Tree) (virtualList : List Node) (uniPackages : List Text) (pathpair : PathPair)
    (includes : PathPair → Option (List Call)) (fs : FileState) : DepsLine → Option FileState
  | .deps makestr target targets => some (addDeps tree virtualList uniPackages pathpair makestr target targets fs)
  | .incdeps paths => do
    let calls ← (sortOn id paths).mapM fun path => includes (includedPair tree pathpair path)
    some { fs with calls := fs.calls ++ calls.flatten }

/-- The appends of a `mk.deps` file and of those it includes; a directory without one has none. -/
def addDepsFile (tree : Tree) (virtualList : List Node) (uniPackages : List Text) :
    ℕ → PathPair → Option (List Call)
  | 0, _ => none
  | fuel + 1, pathpair =>
    match tree.deps pathpair.path with
    | none => some []
    | some lines => do
      let fs ← lines.foldlM (addStatement tree virtualList uniPackages pathpair
        (addDepsFile tree virtualList uniPackages fuel)) {}
      some (fs.flushNative virtualList uniPackages).flushDict

def addNormalItem (tree : Tree) (virtualList : List Node) (uniPackages : List Text) (fuel : ℕ)
    (pathpair : PathPair) : Option (List Call) :=
  if pathpair.target ≠ [] then
    some (((virtualList.find? (·.target = pathpair.target)).map (addVirtualItem virtualList)).toList)
  else addDepsFile tree virtualList uniPackages fuel pathpair

/-- The loop of `do_normal_analysis` over PathList. -/
def addItems (tree : Tree) (virtualList : List Node) (uniPackages : List Text) (fuel : ℕ)
    (pathList : List PathPair) : Option (List Call) := do
  let calls ← pathList.mapM (addNormalItem tree virtualList uniPackages fuel)
  some calls.flatten

end CBuild.Model.GenBuildChain
