import CBuild.Model.GenBuildChain.CheckItem
import CBuild.Model.GenBuildChain.Features
import CBuild.Model.GenBuildChain.WriteKconfig

/-! # Writing the Kconfig file

`Deps.gen_kconfig` and `Deps.__write_one_kconfig`. The file is a list of lines; the line that begins an entry or
the block of its options carries the item. `none` is an error of a malformed environment dependence.
-/

namespace CBuild.Model.GenBuildChain

open Text

/-- `self.InfoDict[package]`; the lines of a description are apart. -/
structure PackageInfo where
  name : Text
  version : Option Text := none
  license : Option Text := none
  homepage : Option Text := none
  location : Option Text := none
  description : List Text := []

/-- What the writers read besides the items. -/
structure KconfigSettings where
  prependFlag : Bool
  keywords : List Text := []
  infoDict : Text → Option PackageInfo := fun _ => none
  registry : Registry
  pathExists : Text → Bool := fun _ => true

/-- A line of the file; a line of options begins with a tab. -/
inductive Line
  | choice (item : Item)
  | endchoice
  | menu (title : Text)
  | endmenu
  /-- `if`; the block of the item's options, or the members of a menu -/
  | cond (owner : Option Item) (expr : Text)
  | endif
  | source (path : Text)
  | config (item : Item)
  | menuconfig (item : Item)
  | feature (symbol : Text)
  | option (text : Text)
  | blank
deriving DecidableEq

def Line.text (prependFlag : Bool) : Line → Text
  | choice _ => "choice".toList
  | endchoice => "endchoice".toList
  | menu title => "menu \"".toList ++ title ++ ['"']
  | endmenu => "endmenu".toList
  | cond _ expr => "if ".toList ++ expr
  | endif => "endif".toList
  | source path => "source \"".toList ++ path ++ ['"']
  | config item => "config ".toList ++ prependedSymbol prependFlag item.target
  | menuconfig item => "menuconfig ".toList ++ prependedSymbol prependFlag item.target
  | feature symbol => "config ".toList ++ symbol
  | option text => '\t' :: text
  | blank => []

structure Writer where
  text : List Line := []
  confStr : List Line := []
deriving DecidableEq

namespace Writer

def write (w : Writer) (lines : List Line) : Writer := { w with text := w.text ++ lines }

/-- `self.conf_str += conf_str`. -/
def defer (w : Writer) (lines : List Line) : Writer := { w with confStr := w.confStr ++ lines }

def flush (w : Writer) : Writer :=
  if w.confStr = [] then w else { text := w.text ++ w.confStr ++ [.blank], confStr := [] }

end Writer

def quoted (text : Text) : Text := '"' :: (text ++ ['"'])

def title (item : Item) : Text := item.target ++ " (".toList ++ item.spath ++ [')']

def defaultLine (value : Bool) : Line := .option ("default ".toList ++ if value then ['y'] else ['n'])

def boolLines (mark : Text) (choiceFlag : Bool) (item : Item) : List Line :=
  if choiceFlag then [.option ("bool ".toList ++ quoted (mark ++ item.target))]
  else [.option ("bool ".toList ++ quoted (mark ++ title item)), defaultLine item.default]

def entryHead (settings : KconfigSettings) (choiceFlag : Bool) (item : Item) : List Line :=
  let virtual := "[v]-".toList
  match item.vtype with
  | .choice | .menuchoice =>
    [.choice item, .option ("prompt ".toList ++ quoted (virtual ++ title item))] ++
      match item.targets with
      | [] => []
      | first :: _ => [.option ("default ".toList ++ prependedSymbol settings.prependFlag first)]
  | .menuconfig => .menuconfig item :: boolLines virtual false item
  | .config => .config item :: boolLines virtual choiceFlag item
  | .package =>
    (if choiceFlag = false ∧ (item.conf ≠ [] ∨ item.features ≠ []) ∧ item.conf ≠ "kconfig".toList then
      .menuconfig item else .config item) :: boolLines [] choiceFlag item

def packageName (item : Item) : Text := replace "prebuild-".toList [] (replace "-native".toList [] item.target)

def helpLines (info : PackageInfo) : List Line :=
  let field (label : String) (value : Option Text) : List Line :=
    (value.map fun value => Line.option (label.toList ++ ": ".toList ++ value)).toList
  [.option "help".toList, .option ("Name        : ".toList ++ info.name)] ++
    field "Version     " info.version ++ field "License     " info.license ++
    field "Homepage    " info.homepage ++ field "Location    " info.location ++
    match info.description with
    | [] => []
    | first :: more => .option ("Description : ".toList ++ first) ::
        more.map fun line => .option ("              ".toList ++ line)

def entryBody (settings : KconfigSettings) (item : Item) : Option (List Line) := do
  let deps ← dependsConjuncts settings.prependFlag settings.pathExists item
  let symbol := prependedSymbol settings.prependFlag
  some (((dependsExpr deps).map fun expr => Line.option ("depends on ".toList ++ expr)).toList ++
    (if item.versioncfg then
      [.option ("select ".toList ++ symbol (packageName item) ++ "_VERCFG".toList)] else []) ++
    item.select.map (fun dep => .option ("select ".toList ++ symbol dep)) ++
    item.imply.map (fun dep => .option ("imply ".toList ++ symbol dep)) ++
    ((settings.infoDict (packageName item)).map helpLines).getD [] ++ [.blank])

def writeFeatureKconfig (settings : KconfigSettings) (item : Item) : List Line :=
  if item.features = [] then [] else
    .blank :: item.features.flatMap fun ft =>
      [.feature ((if settings.prependFlag then "CONFIG_".toList else []) ++ ft.config),
        .option ("bool ".toList ++ quoted ("Enable or Disable ".toList ++ ft.config)),
        .option ("default ".toList ++ ft.default)] ++
      (if ft.depends = [] then [] else [.option ("depends on ".toList ++
        " && ".toList.intercalate (ft.depends.map (prependedSymbol settings.prependFlag)))]) ++
      (if ft.extracfg = [] then [] else [.option ("depends on ".toList ++ ft.extracfg)]) ++ [.blank]

/-- `__check_shared_kconfig`: the Kconfig file, and the packages that share it. -/
def checkSharedKconfig (reg : Registry) (target : Text) : Text × List Text :=
  (reg.kconfigDict.find? (target ∈ ·.2)).getD ([], [])

/-- The block of an item's options, from its own or its shared Kconfig file and its features. -/
def confBlock (settings : KconfigSettings) (choiceFlag : Bool) (item : Item) : List Line :=
  let features := writeFeatureKconfig settings item
  let symbol := prependedSymbol settings.prependFlag
  if item.conf ≠ [] ∨ features ≠ [] then
    if item.conf = "kconfig".toList then
      let shared := checkSharedKconfig settings.registry item.target
      if shared.2.getLast? = some item.target then
        [.cond (some item) (orJoin (shared.2.map symbol)),
          .menu (shared.2.headD [] ++ " configuration (".toList ++ item.spath ++ [')']), .source shared.1] ++
          features ++ [.endmenu, .endif, .blank]
      else []
    else
      let options := (if item.conf ≠ [] then [Line.source item.conf] else []) ++ features
      if choiceFlag then
        [.cond (some item) (symbol item.target), .menu (title item)] ++ options ++ [.endmenu, .endif, .blank]
      else [.cond (some item) (symbol item.target)] ++ options ++ [.endif, .blank]
  else []

/-- `__write_one_kconfig`; `genMember` writes the members. -/
def writeOneKconfig (settings : KconfigSettings) (choiceFlag : Bool) (item : Item)
    (genMember : Bool → Writer → Option Writer) (w : Writer) : Option Writer := do
  let body ← entryBody settings item
  let w := w.write (entryHead settings choiceFlag item ++ body)
  let block := confBlock settings choiceFlag item
  let w := if choiceFlag then w.defer block else w.write block
  match item.vtype with
  | .choice | .menuchoice => do
    let w ← genMember true w
    some (w.write [.endchoice, .blank]).flush
  | .menuconfig => do
    let w ← genMember false (w.write [.cond none (prependedSymbol settings.prependFlag item.target), .blank])
    some (w.write [.endif, .blank])
  | _ => some w

/-- The directories of an item. In the members of a menu there are none: `spath` is empty there. -/
def itemDirs (keywords : List Text) (prefixStr : Text) (item : Item) : List Text :=
  let spath := if prefixStr ≠ [] then [] else item.spath
  if keywords ≠ [] then (splitOn ['/'] spath).filter (· ∉ keywords) else splitOn ['/'] spath

/-- The menus that stay open, innermost first, and the lines that close the others. -/
def closeMenus (dirs : List Text) : List Text → List Text × List Line
  | [] => ([], [])
  | dir :: curDirs =>
    if (dir :: curDirs).reverse <+: dirs then (dir :: curDirs, [])
    else
      let (kept, lines) := closeMenus dirs curDirs
      (kept, .endmenu :: .blank :: lines)

/-- The menus of all directories but the last, up to the depth. -/
def openMenus (maxDepth : ℤ) : List Text → List Text → List Text × List Line
  | curDirs, dir :: next :: dirs =>
    if (curDirs.length : ℤ) < maxDepth then
      let (opened, lines) := openMenus maxDepth (dir :: curDirs) (next :: dirs)
      (opened, .menu dir :: .blank :: lines)
    else (curDirs, [])
  | curDirs, _ => (curDirs, [])

/-- The menus open at an item, and the lines that lead to it. -/
def enterMenus (maxDepth : ℤ) (dirs curDirs : List Text) : List Text × List Line :=
  let (kept, closing) := closeMenus dirs curDirs
  let (opened, opening) := openMenus maxDepth kept (dirs.drop kept.length)
  (opened, closing ++ opening)

/-- The end of the menus that are still open. -/
def leaveMenus (curDirs : List Text) : List Line := curDirs.flatMap fun _ => [.endmenu, .blank]

/-- The depth for the members of an item; `cur_depth` is one less than the number of open menus. -/
def memberDepth (maxDepth : ℤ) (curDirs : List Text) (item : Item) : ℤ :=
  if item.vtype = .package then 0 else max (maxDepth - (curDirs.length - 1)) 0

/-- `gen_kconfig`; `curDirs` are the open menus, innermost first. -/
def genKconfig (settings : KconfigSettings) :
    Forest → Bool → ℤ → Text → List Text → Writer → Option Writer
  | .nil, choiceFlag, _, _, curDirs, w => some (if choiceFlag then w else w.write (leaveMenus curDirs))
  | .cons item member rest, choiceFlag, maxDepth, prefixStr, curDirs, w =>
    if choiceFlag then do
      let w ← writeOneKconfig settings true item
        (fun flag w => genKconfig settings member flag maxDepth item.spath [] w) w
      genKconfig settings rest true maxDepth prefixStr curDirs w
    else do
      let (curDirs, lines) := enterMenus maxDepth (itemDirs settings.keywords prefixStr item) curDirs
      let w ← writeOneKconfig settings false item
        (fun flag w => genKconfig settings member flag (memberDepth maxDepth curDirs item) item.spath [] w)
        (w.write lines)
      genKconfig settings rest false maxDepth prefixStr curDirs w

end CBuild.Model.GenBuildChain
