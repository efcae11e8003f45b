import CBuild.Graph.Search
import CBuild.Model.ProcessCache.Depends

/-! # Dependency diagrams

`gen_depends_image.sh` outside Yocto: `write_rule` writes the edges of a package, and calls itself for the dependences
that are not in `dones`. The variables of the function are global, so the calls share them; the words of a `for` loop
are expanded before its first iteration.
-/

namespace CBuild.Model.GenDependsImage

open Text GenBuildChain ProcessCache

def grepWithin (pattern text : Text) : Bool := text.tails.any (grepPrefix pattern)

/-- Names with a separator around each. -/
def delimited (sep : Char) (names : List Text) : Text := sep :: names.flatMap (· ++ [sep])

/-- `echo "${names}" | grep -c "<sep>${dep}<sep>"`. -/
def isListed (sep : Char) (names : List Text) (dep : Text) : Bool :=
  grepWithin (sep :: (dep ++ [sep])) (delimited sep names)

structure Inputs where
  /-- the lines of the Target file -/
  targetpath : List Text
  /-- the lines of `.config` -/
  confpath : List Text
  /-- the names between the colons of the fifth argument -/
  corepkgs : List Text

/-- The global variables, and the lines of `tofile`. -/
structure Vars where
  target : Text
  dones : List Text
  coreexist : List Text
  out : List Text

/-- `headchar`, `dep` and `condition` of a word. -/
structure Word where
  headchar : Option Char
  dep : Text
  condition : Text

def parseWord (word : Text) : Word :=
  if word.head? = some '?' ∨ word.head? = some '|' then
    { headchar := word.head?, dep := word.drop 1, condition := [] }
  else if '@' ∈ word then
    { headchar := some '@'
      dep := ((splitOn ['@'] word)[0]?).getD []
      condition := ((splitOn ['@'] word)[1]?).getD [] }
  else { headchar := none, dep := word, condition := [] }

def edgeLine (target dep style color label : Text) : Text :=
  "\"".toList ++ target ++ "\" -> \"".toList ++ dep ++ "\" [style = ".toList ++ style ++ ", color = ".toList ++ color ++
    (if label = [] then [] else ", label = \"".toList ++ label ++ "\"".toList) ++ "]".toList

def solid (here : Bool) : Text := if here then "solid".toList else "dashed".toList

def green (here : Bool) : Text := if here then "green".toList else "red".toList

def edgeLines (confpath : List Text) (target word : Text) : List Text :=
  let { headchar, dep, condition } := parseWord word
  let symbol := translate dep
  let here := grepOnce confpath (dashSymbol symbol)
  if headchar = some '?' then [edgeLine target dep "dashed".toList (green here) []]
  else if headchar = some '|' then
    let patch := decide (patchPart <:+: dep)
    let label1 := if patch then "patch".toList else "srcbuild".toList
    let label2 := if patch then "unpatch".toList else "prebuild".toList
    let other := if patch then replace "_PATCH_".toList "_UNPATCH_".toList symbol else "PREBUILD_".toList ++ symbol
    let there := grepOnce confpath (dashSymbol other)
    [edgeLine target dep (solid here) (green here) label1, edgeLine target dep (solid there) (green there) label2]
  else if headchar = some '@' then
    let met := confpath.countP (grepPrefix (condition ++ "=y".toList)) ≠ 0
    [edgeLine target dep "dashed".toList (green (here && met)) condition]
  else [edgeLine target dep "solid".toList (green here) []]

namespace Inputs

variable (i : Inputs)

/-- `grep "^${target}=\".*\""`. -/
def lineOf (target line : Text) : Bool :=
  grepPrefix (target ++ "=\"".toList) line && (line.drop (target.length + 2)).contains '"'

/-- `sed -E "s/^${target}=\"(.*)\" # .*/\1/g"`. -/
def sedDeps (target line : Text) : Text :=
  if grepPrefix (target ++ "=\"".toList) line then
    (beforeLast "\" # ".toList (line.drop (target.length + 2))).getD line
  else line

/-- The words of `deps`; there is none when one of the tests on the way ends the function. -/
def deps (target : Text) : List Text :=
  if target = [] then []
  else words (unlines ((i.targetpath.filter (lineOf target)).map (sedDeps target)))

def head (package : Text) : List Text :=
  ["digraph depends ".toList ++ ['{'], "rankdir=LR".toList,
    "\"".toList ++ package ++ "\" [color = ".toList ++ green (grepOnce i.confpath (dashSymbol (translate package))) ++
      "]".toList]

def note (coreexist : List Text) : Text :=
  "label = \"Note: drop the relationships of  ".toList ++ [' '].intercalate coreexist ++ " \"".toList

end Inputs

end CBuild.Model.GenDependsImage
