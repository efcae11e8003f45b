import CBuild.Model.GenBuildChain.Search
import CBuild.Model.GenPackageInfos.Deptree
import CBuild.Text.Folding

/-! # The lines of the dependency files

The loops of `Deps.add_normal_item` and `Deps.__add_virtual_deps` over the lines of a file, and their regular
expressions. A statement goes on behind a backslash at the end of a line. What is done with a statement depends on the
statement alone, so that the loops are a list of statements here.
-/

namespace CBuild.Model.GenBuildChain

open Text Text.Folding GenPackageInfos

/-- `\w`. -/
def wordChar (c : Char) : Bool := c.isAlphanum || c = '_'

def oneOf (chars : String) (c : Char) : Bool := chars.toList.contains c

/-- What is behind a word that the text begins with. -/
def behind (word : String) (text : Text) : Option Text :=
  if word.toList.isPrefixOf text then some (text.drop word.toList.length) else none

/-- The longest beginning of such characters, and what is behind it. -/
def span (class' : Char → Bool) (text : Text) : Text × Text := (text.takeWhile class', text.dropWhile class')

/-- The same, of one character at least. -/
def span1 (class' : Char → Bool) (text : Text) : Option (Text × Text) :=
  if (text.takeWhile class') = [] then none else some (span class' text)

/-- The groups of a statement. -/
structure Groups where
  first : Text
  target : Text
  targets : Text
  tokens : Text

/-- `#NAME\s*\(\s*` first `\s*\)\s*` target `\s*\(` targets `\)\s*:` tokens. -/
def matchStatement (name : String) (first : Text → Option (Text × Text)) (target targets tokens : Char → Bool)
    (line : Text) : Option Groups := do
  let line ← behind name line
  let line ← behind "(" (skip line)
  let (firstGroup, line) ← first (skip line)
  let line ← behind ")" (skip line)
  let (targetGroup, line) ← span1 target (skip line)
  let line ← behind "(" (skip line)
  let (targetsGroup, line) := span targets line
  let line ← behind ")" line
  let line ← behind ":" (skip line)
  some ⟨firstGroup, targetGroup, targetsGroup, line.takeWhile tokens⟩

/-- `[\s\w\\\|\-\.\?\*&!=,@]`. -/
def depsToken (c : Char) : Bool := blank c || wordChar c || oneOf "\\|-.?*&!=,@" c

/-- `[\s\w\\\|\-\.\?\*&!=,]`. -/
def vdepsToken (c : Char) : Bool := blank c || wordChar c || oneOf "\\|-.?*&!=," c

/-- `[\s\w\\\-\./${}]`. -/
def incdepsToken (c : Char) : Bool := blank c || wordChar c || oneOf "\\-./$\x7b\x7d" c

/-- `[\w\-\./${}]`. -/
def makeChar (c : Char) : Bool := wordChar c || oneOf "-./$\x7b\x7d" c

/-- `[\w\-\.]`. -/
def packageChar (c : Char) : Bool := wordChar c || oneOf "-." c

def matchDeps : Text → Option Groups :=
  matchStatement "#DEPS" (fun text => some (span makeChar text)) packageChar
    (fun c => blank c || wordChar c || oneOf "-.%:" c) depsToken

def matchVdeps : Text → Option Groups :=
  matchStatement "#VDEPS" (span1 wordChar) (fun c => wordChar c || c = '-')
    (fun c => blank c || wordChar c || oneOf "-./" c) vdepsToken

/-- The group has one character at least, so that blanks in front of another character are given back to it. -/
def matchIncdeps (line : Text) : Option Text := do
  let line ← behind "#INCDEPS" line
  let line ← behind ":" (skip line)
  let group := (skip line).takeWhile incdepsToken
  if group ≠ [] then some group
  else if line.takeWhile blank ≠ [] then some ((line.takeWhile blank).drop ((line.takeWhile blank).length - 1))
  else none

/-- `NAME\s*[\?:]*=`, and what is behind it. -/
def assigned (line : Text) : Option Text := behind "=" ((skip line).dropWhile (oneOf "?:"))

def matchCache (line : Text) : Bool :=
  (((behind "CACHE_BUILD" line).bind assigned).bind fun rest => behind "y" (skip rest)).isSome

def matchUrl (line : Text) : Bool := ((behind "SRC_URL" line).bind assigned).isSome

/-- Blanks belong to `.*` as well as to `\s+`. -/
def matchIncrule (line : Text) : Bool :=
  match behind "include" line with
  | some (c :: rest) => blank c && decide ("inc.rule.mk".toList <:+: rest)
  | _ => false

def matchPackage (line : Text) : Option Text := do
  let rest ← (behind "PACKAGE_NAME" line).bind assigned
  (span1 packageChar (skip rest)).map Prod.fst

/-- A line has no blanks at its end. -/
def matchVars (line : Text) : Option (Text × Text) := do
  let (name, rest) ← span1 wordChar line
  let rest ← assigned rest
  if skip rest ≠ [] then some (name, skip rest) else none

/-- One blank at least, and the others. -/
def skip1 : Text → Option Text
  | c :: rest => if blank c then some (skip rest) else none
  | [] => none

def matchFthead (line : Text) : Bool :=
  ((((behind "$(eval" (skip line)).bind skip1).bind (behind "$(call")).bind skip1).bind (fun rest =>
    (behind "ft-config," rest).bind fun rest => (behind "CONFIG_" (skip rest)).bind (span1 wordChar)) |>.isSome

inductive Statement where
  /-- `#DEPS(makestr) target(targets): depends` -/
  | deps (makestr target : Text) (targets depends : List Text)
  /-- one path of `#INCDEPS` -/
  | incdeps (path : Text)
  /-- `attrs.add` -/
  | attr (name : Text)
  | package (name : Text)
  /-- the value of a variable in `VARS` -/
  | var (package name value : Text)
  /-- the text of `ft-config` -/
  | feature (text : Text)
deriving DecidableEq

/-- `match_type`, with the groups of `ret`. -/
inductive MatchType where
  | deps (groups : Groups)
  | incdeps
  | var (name : Text)
  | fthead

/-- The variables of the loop; `featurecfg` is that of `item`. -/
structure Reader where
  matchType : Option MatchType := none
  lastGroup : Text := []
  package : Text := []
  featurecfg : Bool := false

def vars : List Text := ["VERSION", "LICENSE", "LICFILE", "HOMEPAGE", "DESCRIPTION"].map String.toList

/-- `split_str`. -/
def splitChar : MatchType → Char
  | .var name => if name = "DESCRIPTION".toList then '\n' else ' '
  | _ => ' '

/-- `__set_item_deps` sets `featurecfg` for this token. -/
def isFeaturecfg (token : Text) : Bool := token = "featurecfg".toList || token = "*featurecfg".toList

/-- What follows the last line of a statement. -/
def finish (matchType : MatchType) (r : Reader) : Reader × List Statement :=
  match matchType with
  | .deps groups =>
    let depends := words r.lastGroup
    ({ r with matchType := none, featurecfg := groups.target ≠ "ignore".toList && depends.any isFeaturecfg },
      [.deps groups.first groups.target (words groups.targets) depends])
  | .incdeps => ({ r with matchType := none }, (sortOn id (words r.lastGroup)).map .incdeps)
  | .var name => ({ r with matchType := none }, [.var r.package name r.lastGroup])
  | .fthead => ({ r with matchType := none }, [.feature r.lastGroup])

/-- A line that begins a statement, with the text behind which it can go on. -/
def start (matchType : MatchType) (group : Text) (r : Reader) : Reader × List Statement :=
  if group.getLast? = some '\\' then ({ r with matchType := some matchType, lastGroup := strip group.dropLast }, [])
  else finish matchType { r with lastGroup := strip group }

/-- A line that the statement before it goes on in. -/
def goOn (matchType : MatchType) (line : Text) (r : Reader) : Reader × List Statement :=
  if line.getLast? = some '\\' then
    ({ r with lastGroup := r.lastGroup ++ splitChar matchType :: strip line.dropLast }, [])
  else finish matchType { r with lastGroup := r.lastGroup ++ splitChar matchType :: strip line }

/-- A line that no statement goes on in. -/
def beginLine (line : Text) (r : Reader) : Reader × List Statement :=
  match matchDeps line with
  | some groups => start (.deps groups) groups.tokens r
  | none =>
  match matchIncdeps line with
  | some group => start .incdeps group r
  | none =>
    if matchCache line then (r, [.attr "cache".toList])
    else if matchUrl line then (r, [.attr "url".toList])
    else if matchIncrule line then (r, [.attr "unified".toList])
    else
      match matchPackage line with
      | some name => ({ r with package := name }, [.package name])
      | none =>
        match (if r.package ≠ [] then matchVars line else none) with
        | some (name, value) => if name ∈ vars then start (.var name) value r else (r, [])
        | none => if r.featurecfg && matchFthead line then start .fthead line r else (r, [])

def readLine (r : Reader) (line : Text) : Reader × List Statement :=
  match r.matchType with
  | some matchType => goOn matchType (strip line) r
  | none => beginLine (strip line) r

def readDeps (lines : List Text) : List Statement := (readWith readLine {} lines).2

structure VStatement where
  vtype : Text
  target : Text
  infos : List Text
  depends : List Text
deriving DecidableEq

/-- `match_type` with the groups, and `last_group`. -/
structure VReader where
  matchType : Option Groups := none
  lastGroup : Text := []

def vfinish (groups : Groups) (r : VReader) : VReader × List VStatement :=
  ({ r with matchType := none }, [⟨groups.first, groups.target, words groups.targets, words r.lastGroup⟩])

/-- One turn of the loop of `__add_virtual_deps`. -/
def readVline (r : VReader) (line : Text) : VReader × List VStatement :=
  match r.matchType with
  | some groups =>
    if (strip line).getLast? = some '\\' then
      ({ r with lastGroup := r.lastGroup ++ ' ' :: strip (strip line).dropLast }, [])
    else vfinish groups { r with lastGroup := r.lastGroup ++ ' ' :: strip (strip line) }
  | none =>
    match matchVdeps (strip line) with
    | some groups =>
      if groups.tokens.getLast? = some '\\' then (⟨some groups, strip groups.tokens.dropLast⟩, [])
      else vfinish groups { r with lastGroup := strip groups.tokens }
    | none => (r, [])

def readVdeps (lines : List Text) : List VStatement := (readWith readVline {} lines).2

end CBuild.Model.GenBuildChain
