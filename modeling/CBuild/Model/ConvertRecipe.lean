import CBuild.Model.GenBuildChain.Reading
import CBuild.Text.Sed

/-! # Converting recipes

`PkgInfo` of `convert_recipe.py`: `analyze_recipe` reads a recipe line by line, `write_mkdeps` writes the `mk.deps` file
of it. A statement of a recipe goes on behind a backslash; the last character of each of its lines is a quotation mark
or a backslash and is dropped.
-/

namespace CBuild.Model.ConvertRecipe

open Text Text.Folding GenBuildChain GenPackageInfos

/-- An entry of `self.pkgconfig`: its feature, and the first three fields. -/
structure Feature where
  name : Text
  enable : Text
  disable : Text
  depends : Text
deriving DecidableEq

structure PkgInfo where
  package : Text
  license : Text := []
  licfile : List Text := []
  homepage : Text := []
  description : Text := []
  srcuri : Text := []
  method : Text := []
  flags : Text := []
  depends : List Text := []
  pkgconfig : List Feature := []
deriving DecidableEq

/-- `re.split(r'\s+', text)`: blanks at an end give an empty part there. -/
def resplit (text : Text) : List Text :=
  if text = [] then [[]]
  else (if (text.head?.map blank).getD false then [[]] else []) ++ words text ++
    if (text.getLast?.map blank).getD false then [[]] else []

def unvirtual (text : Text) : Text := replace "virtual/".toList [] text

/-- `package.split('_' if '_' in package else '.')[0]`. -/
def packageOf (basename : Text) : Text :=
  basename.takeWhile (if '_' ∈ basename then (· ≠ '_') else (· ≠ '.'))

/-- `\s*"(.*)`. -/
def matchValue (text : Text) : Option Text := behind "\"" (skip text)

/-- `NAME\s*=\s*"(.*)`. -/
def matchOpen (name : String) (line : Text) : Option Text :=
  ((behind name line).bind fun rest => behind "=" (skip rest)).bind matchValue

/-- `NAME\s*=\s*"(.*)"`. -/
def matchClosed (name : String) (line : Text) : Option Text := (matchOpen name line).bind (beforeLast ['"'])

/-- What is behind the last `=` that a quotation mark follows, with the character in front of the text. -/
def lastAssigned : Char → Text → Option Text
  | last, [] => if last = '=' then matchValue [] else none
  | last, c :: text => (lastAssigned c text).or (if last = '=' then matchValue (c :: text) else none)

/-- `[=:+\s].*(?<==)\s*"(.*)`. -/
def matchAssigned : Text → Option Text
  | c :: text => if oneOf "=:+" c || blank c then lastAssigned c text else none
  | [] => none

/-- `R?DEPENDS` -/
def matchDepends (line : Text) : Option Text :=
  ((behind "RDEPENDS" line).or (behind "DEPENDS" line)).bind matchAssigned

/-- `EXTRA_OE(CONF|CMAKE|MESON)`, and its value. -/
def matchFlags (line : Text) : Option (Text × Text) :=
  (behind "EXTRA_OE" line).bind fun rest =>
    ["CONF", "CMAKE", "MESON"].findSome? fun method =>
      ((behind method rest).bind matchAssigned).map fun value => (method.toList, value)

/-- `PACKAGECONFIG\[([\s\w\-\./]+)\]\s*=\s*"(.*)"`. -/
def matchPkgconfig (line : Text) : Option (Text × Text) := do
  let rest ← behind "PACKAGECONFIG[" line
  let (name, rest) ← span1 (fun c => blank c || wordChar c || oneOf "-./" c) rest
  let rest ← behind "]" rest
  let rest ← behind "=" (skip rest)
  let value ← matchValue rest
  let value ← beforeLast ['"'] value
  some (name, value)

/-- The statements that go on in the next line. -/
inductive Kind where
  | licfile | description | flags | depends
deriving DecidableEq

/-- `match_type`, `last_group` and the object itself. -/
structure Analyzer where
  matchType : Option Kind := none
  lastGroup : Text := []
  info : PkgInfo

/-- What follows the last line of a statement. -/
def PkgInfo.store (info : PkgInfo) (group : Text) : Kind → PkgInfo
  | .licfile => { info with licfile := info.licfile ++ (resplit group).map (·.takeWhile (· ≠ ';')) }
  | .description => { info with description := group }
  | .flags => { info with flags := if info.flags = [] then group else info.flags ++ ' ' :: group }
  | .depends => { info with depends := (resplit (unvirtual group)).foldl (fun depends item =>
      if item ∈ depends then depends else depends ++ [item]) info.depends }

/-- The entry of `PACKAGECONFIG[name] = "value"`. -/
def featureOf (name value : Text) : Feature :=
  let fields := (splitOn [','] (strip (unvirtual value))).map strip
  ⟨strip name, fields[0]?.getD [], fields[1]?.getD [], fields[2]?.getD []⟩

/-- A line that begins a statement, with the text that is open. -/
def Analyzer.start (a : Analyzer) (kind : Kind) (group : Text) : Analyzer :=
  if group.getLast? = some '\\' then { a with matchType := some kind, lastGroup := strip group.dropLast }
  else { a with info := a.info.store (strip group.dropLast) kind }

def Analyzer.beginLine (a : Analyzer) (line : Text) : Analyzer :=
  match matchClosed "LICENSE" line with
  | some group => { a with info := { a.info with license := strip group } }
  | none =>
  match matchOpen "LIC_FILES_CHKSUM" line with
  | some group => a.start .licfile group
  | none =>
  match matchClosed "HOMEPAGE" line with
  | some group => { a with info := { a.info with homepage := strip group } }
  | none =>
  match matchOpen "DESCRIPTION" line with
  | some group => a.start .description group
  | none =>
  match matchOpen "SRC_URI" line with
  | some group => { a with info := { a.info with srcuri := strip group.dropLast } }
  | none =>
  match matchFlags line with
  | some (method, group) => Analyzer.start { a with info := { a.info with method } } .flags group
  | none =>
  match matchDepends line with
  | some group => a.start .depends group
  | none =>
  match matchPkgconfig line with
  | some (name, value) => { a with info := { a.info with pkgconfig := a.info.pkgconfig ++ [featureOf name value] } }
  | none => a

def Analyzer.readLine (a : Analyzer) (line : Text) : Analyzer :=
  match a.matchType with
  | none => a.beginLine line
  | some kind =>
    let val := strip line.dropLast
    let group := if val = [] then a.lastGroup else if a.lastGroup = [] then val else a.lastGroup ++ ' ' :: val
    if line.getLast? = some '\\' then { a with lastGroup := group }
    else { matchType := none, lastGroup := group, info := a.info.store group kind }

/-- `analyze_recipe`, with the name of the file and its lines. -/
def analyzeRecipe (basename : Text) (lines : List Text) : PkgInfo :=
  (lines.foldl Analyzer.readLine { info := { package := packageOf basename } }).info

def toupper (var : Text) : Text := escapeToupper var

def Feature.pkgs (feature : Feature) : List Text := if feature.depends = [] then [] else resplit feature.depends

/-- `<package>_FT_<feature>`. -/
def PkgInfo.symbol (info : PkgInfo) (feature : Feature) : Text :=
  toupper info.package ++ "_FT_".toList ++ toupper feature.name

def PkgInfo.tokens (info : PkgInfo) : List Text :=
  info.pkgconfig.flatMap fun feature => feature.pkgs.map fun pkg =>
    pkg ++ "@@CONFIG_".toList ++ info.symbol feature

end CBuild.Model.ConvertRecipe
