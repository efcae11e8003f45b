import CBuild.Model.GenBuildChain.Names
import CBuild.Text.Sed

/-! # The packages of a license index

`parse_deptree` of `gen_package_infos.py`, and how `gen_license` reads `.config` and the Target file
for it. Package names are decoded from the symbols of `.config`; the search follows the words of
the Target file and enters only packages it decoded.
-/

namespace CBuild.Model.GenPackageInfos

open Text GenBuildChain

/-- `re.match(r'CONFIG_(.*)=y', per_line)`. -/
def matchConfig (line : Text) : Option Text :=
  if "CONFIG_".toList.isPrefixOf line then beforeLast "=y".toList (line.drop 7) else none

def matchTarget : Text → Option (Text × Text)
  | [] => none
  | c :: rest =>
    match matchTarget rest with
    | some (first, second) => some (c :: first, second)
    | none =>
      if ['=', '"'].isPrefixOf (c :: rest) then
        (beforeLast ['"', ' ', '#', ' '] ((c :: rest).drop 2)).map fun second => ([], second)
      else none

/-- `.strip()`. -/
def strip (text : Text) : Text := ((text.dropWhile blank).reverse.dropWhile blank).reverse

def readConfigs (lines : List Text) : List Text :=
  lines.filterMap fun line => (matchConfig line).map escapeTolower

/-- `targets`, in the order of the file. -/
def readTargets (lines : List Text) : List (Text × List Text) :=
  lines.filterMap fun line => (matchTarget line).map fun group => (strip group.1, words group.2)

/-- `targets[package]`: a later line replaces an earlier one. -/
def targetDeps (targets : List (Text × List Text)) (package : Text) : List Text :=
  (targets.reverse.lookup package).getD []

/-- What a word `|x` is for when x was not decoded. -/
def partner (dep : Text) : Text :=
  if patchPart <:+: dep then replaceOnce patchPart unpatchPart dep else prebuildPart ++ dep

/-- The condition of a word `x@c`, decoded as the symbols are. -/
def decodeCond (cond : Text) : Text := escapeTolower (replaceOnce "CONFIG_".toList [] cond)

/-- The name that a word makes `parse_deptree` visit, if any. -/
def depPackage (configs : List Text) (dep : Text) : Option Text :=
  if nativePart <:+: dep then none
  else if dep.head? = some '?' then some (dep.drop 1)
  else if dep.head? = some '|' then
    let dep := dep.drop 1
    if dep ∈ configs then some dep else some (partner dep)
  else if '@' ∈ dep then
    let pairs := splitOn ['@'] dep
    if decodeCond (pairs[1]?.getD []) ∈ configs then some (pairs[0]?.getD []) else none
  else some dep

/-- `parse_deptree`; `none` when the fuel runs out. -/
def parseDeptree (configs : List Text) (targets : List (Text × List Text)) :
    ℕ → Text → List Text → Option (List Text)
  | 0, _, _ => none
  | fuel + 1, package, packages =>
    if package ∈ configs ∧ package ∉ packages then
      (targetDeps targets package).foldlM (fun packages dep =>
        match depPackage configs dep with
        | some dep => parseDeptree configs targets fuel dep packages
        | none => some packages) (package :: packages)
    else some packages

end CBuild.Model.GenPackageInfos
