import CBuild.PkgConfig.Reading

/-! # Paths relative to the pkg-config file

`replace_pkgconfig` of `process_sysroot.sh`. The directory is used as a regular expression; it has no special
characters here but dots. File names have no quotes or backslashes. Which characters outside ASCII `\w` takes for letters and
digits, is given.
-/

namespace CBuild.Model.ProcessSysroot

open Text PkgConfig

/-- The pattern `$src` at the beginning of a text. -/
def srcMatches : Text → Text → Bool
  | [], _ => true
  | p :: src, c :: text => ((p = '.' && c ≠ '\n') || p = c) && srcMatches src text
  | _ :: _, [] => false

section

variable (letter : Char → Bool)

/-- The match at the beginning of a text: `$src`, and all path characters that follow. -/
def matchHere (src text : Text) : Option Text :=
  if srcMatches src text then some (text.take src.length ++ (text.drop src.length).takeWhile (pathChar letter)) else none

/-- What `re.sub` keeps and what it finds. -/
inductive Span
  | kept (c : Char)
  | found (path : Text)
deriving DecidableEq

/-- The matches from the left, with the number of characters still to skip. -/
def spansFrom (src : Text) : ℕ → Text → List Span
  | _, [] => []
  | 0, c :: text =>
    match matchHere letter src (c :: text) with
    | some path => .found path :: spansFrom src (path.length - 1) text
    | none => .kept c :: spansFrom src 0 text
  | skip + 1, _ :: text => spansFrom src skip text

def spans (src text : Text) : List Span := spansFrom letter src 0 text

def pcFn (pcPath path : Text) : Text := "${pcfiledir}/".toList ++ relpath path pcPath

def Span.text : Span → Text
  | .kept c => [c]
  | .found path => path

def Span.replaced (pcPath : Text) : Span → Text
  | .kept c => [c]
  | .found path => pcFn pcPath path

/-- The line ends that `read` returns in text mode. -/
def universal : Text → Text
  | [] => []
  | '\r' :: '\n' :: text => '\n' :: universal text
  | c :: text => (if c = '\r' then '\n' else c) :: universal text

/-- The content of a file after its iteration. -/
def replaceContent (src pcPath content : Text) : Text :=
  if src <:+: universal content then (spans letter src (universal content)).flatMap (Span.replaced pcPath) else content

/-- The file is among those that `find $src -name '*.pc'` prints. -/
def isPc (src path : Text) : Bool :=
  (if src.getLast? = some '/' then src else src ++ ['/']).isPrefixOf path && ".pc".toList.isSuffixOf path

/-- `find | xargs`, split again. -/
def pcs (src : Text) (files : List (Text × Text)) : List Text :=
  (files.filter fun file => isPc src file.1).flatMap fun file => words file.1

def replaceFile (src : Text) (files : List (Text × Text)) (pc : Text) : Option (List (Text × Text)) :=
  (files.lookup pc).map fun content =>
    files.map fun file => if file.1 = pc then (pc, replaceContent letter src (dirname pc) content) else file

/-- `replace_pkgconfig`, on the regular files by their paths. -/
def replacePkgconfig (src : Text) (files : List (Text × Text)) : Option (List (Text × Text)) :=
  (pcs src files).foldlM (replaceFile letter src) files

end

end CBuild.Model.ProcessSysroot
