import CBuild.Model.GenBuildChain.Names
import CBuild.Text.Sed

/-! # Resolving dependences from the Target file

`get_depend_checksum_auto` of `process_cache.sh`: it takes the line of a package from the Target
file and decides for each word between the quotation marks which package of `.config` it names.
-/

namespace CBuild.Model.ProcessCache

open Text GenBuildChain

/-- The text begins with the pattern, in which `.` stands for any character. -/
def grepPrefix : Text → Text → Bool
  | [], _ => true
  | p :: pattern, c :: text => (p = '.' || p = c) && grepPrefix pattern text
  | _ :: _, [] => false

/-- `grep '^pkgname=".*"'`, then the group of `sed -E 's/^pkgname="(.*)".*/\1/g'`. -/
def lineDeps (pkgname line : Text) : Option Text :=
  if grepPrefix (pkgname ++ "=\"".toList) line then beforeLast ['"'] (line.drop (pkgname.length + 2)) else none

/-- `tr 'a-z-' 'A-Z_'`. -/
def translate (dep : Text) : Text := dep.map fun c => if c = '-' then '_' else c.toUpper

/-- `[ $(grep -c '^symbol=y' confpath) -eq 1 ]`. -/
def grepOnce (confpath : List Text) (symbol : Text) : Bool :=
  confpath.countP (grepPrefix (symbol ++ "=y".toList)) = 1

def dashSymbol (translated : Text) : Text := "CONFIG_".toList ++ translated

/-- What a `|` word stands for when its own symbol is not found: the name and its symbol. -/
def substitute (dep : Text) : Text × Text :=
  if ¬ patchPart <:+: dep then
    (prebuildPart ++ dep, "PREBUILD_".toList ++ translate dep)
  else (replace "_patch_".toList "_unpatch_".toList dep,
    replace "_PATCH_".toList "_UNPATCH_".toList (translate dep))

/-- One iteration of the loop over the words: the name it resolves to, if any. -/
def resolveDep (confpath : List Text) (word : Text) : Option Text :=
  let headchar := word.head?
  let marked := headchar = some '?' ∨ headchar = some '|'
  let condition := if ¬ marked ∧ '@' ∈ word then ((splitOn ['@'] word)[1]?).getD [] else []
  let dep := if marked then word.drop 1
    else if '@' ∈ word then ((splitOn ['@'] word)[0]?).getD [] else word
  if grepOnce confpath (dashSymbol (translate dep)) then
    if condition = [] ∨ grepOnce confpath condition then some dep else none
  else
    let (dep, symbol) := if headchar = some '|' then substitute dep else (dep, translate dep)
    if grepOnce confpath (dashSymbol symbol) then some dep else none

def getDependChecksumAuto (confpath : List Text) (pkgname line : Text) : List Text :=
  match lineDeps pkgname line with
  | none => []
  | some deps => (words deps).filterMap (resolveDep confpath)

end CBuild.Model.ProcessCache
