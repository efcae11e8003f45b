import CBuild.Text.Basic
import Mathlib.Data.Char
import Mathlib.Data.List.Lex
import Mathlib.Data.List.Sort

/-! # The checksum of a package's inputs

`get_checksum` and its four contributors, on the lines they append to `checktmp1`. Each selected
file contributes its md5sum line, the downloaded source its md5sum line or its revision, each
enabled dependency the checksum of its archive, and a standing force file its own line. The first
fields of all lines are sorted into `checktmp2`, the append string follows them, and the md5 of
the result is the checksum.

`find` is read off a list of the paths it would visit; the pattern matching of its tests is a
parameter. Paths with quotes or backslashes, which `xargs` would rewrite, are not represented.
-/

namespace CBuild.Model.ProcessCache

/-- A word without blanks: a digest, a revision, or the checksum in an archive's name. -/
structure Key where
  text : Text
  unbroken : ∀ c ∈ text, c ≠ ' ' ∧ c ≠ '\n'
deriving DecidableEq

/-- What stands at a path. A symbolic link is none of the first two. -/
inductive Entry
  | file (content : Text)
  | dir
  | other
deriving DecidableEq

/-- The paths `find` visits, parents first, with what stands there. -/
abbrev FileTree := List (Text × Entry)

namespace FileTree

def content? (tree : FileTree) (path : Text) : Option Text :=
  tree.findSome? fun
    | (p, .file content) => if p = path then some content else none
    | _ => none

def isDir (tree : FileTree) (path : Text) : Bool := (path, Entry.dir) ∈ tree

end FileTree

def atOrBelow (start path : Text) : Bool := path = start || (start ++ ['/']).isPrefixOf path

def basename (path : Text) : Text := (path.reverse.takeWhile (· ≠ '/')).reverse

/-- `findpaths:findstrs:ignoredirs:ignorestrs` with its sub-items. -/
structure FindItem where
  findpaths : List Text
  findstrs : List Text
  ignoredirs : List Text
  ignorestrs : List Text

/-- `cut -d ':' -f n | sed 's/|/ /g'`, split into words by the shell. -/
def cutItem (item : Text) (n : ℕ) : List Text :=
  Text.words (Text.replace ['|'] [' '] ((Text.splitOn [':'] item).getD (n - 1) []))

def FindItem.parse (item : Text) : FindItem :=
  ⟨cutItem item 1, cutItem item 2, cutItem item 3, cutItem item 4⟩

section Find

variable (fnmatch : Text → Text → Bool)

/-- One of the `-prune` tests of `findcmd` holds at the path. -/
def FindItem.prunes (f : FindItem) (path : Text) : Bool :=
  fnmatch "*/.git".toList path || fnmatch "*/.svn".toList path ||
    f.ignoredirs.any (fun d => fnmatch ("*/".toList ++ d) path) ||
    f.ignorestrs.any (fun s => fnmatch s (basename path))

/-- No directory between the start of the search and the path is pruned. -/
def FindItem.visits (f : FindItem) (tree : FileTree) (start path : Text) : Bool :=
  atOrBelow start path && tree.all fun (above, _) =>
    !(atOrBelow start above && (above ++ ['/']).isPrefixOf path && f.prunes fnmatch above)

/-- The paths `findcmd` prints. Without `findstrs` every regular file, else those of a listed name. -/
def FindItem.print (f : FindItem) (tree : FileTree) : List Text :=
  f.findpaths.flatMap fun start => tree.filterMap fun
    | (path, .file _) =>
      if f.visits fnmatch tree start path && !f.prunes fnmatch path &&
          (f.findstrs.isEmpty || f.findstrs.any fun s => fnmatch s (basename path))
      then some path else none
    | _ => none

/-- The files that `xargs md5sum` reads: the words of the printed paths that are files, or the
empty standard input when nothing is printed. -/
def xargsFiles (tree : FileTree) (paths : List Text) : List (Text × Text) :=
  match Text.words (Text.unlines paths) with
  | [] => [(['-'], [])]
  | args => args.filterMap fun path => (tree.content? path).map fun content => (path, content)

/-- One item of `-c`; `none` where the script exits with an error. -/
def extraItem (tree : FileTree) (item : Text) : Option (List (Text × Text)) :=
  if ':' ∈ item then
    let f := FindItem.parse item
    if f.findpaths.all tree.isDir then some (xargsFiles tree (f.print fnmatch tree)) else none
  else match tree.content? item with
    | some content => some [(item, content)]
    | none =>
      if tree.isDir item then
        some (xargsFiles tree (tree.filterMap fun
          | (path, .file _) => if atOrBelow item path then some path else none
          | _ => none))
      else none

/-- The path and the content of every file that the `-c` items select, as often as they do. -/
def extraFiles (tree : FileTree) : List Text → Option (List (Text × Text))
  | [] => some []
  | item :: items => do
    let files ← extraItem fnmatch tree item
    let rest ← extraFiles tree items
    some (files ++ rest)

end Find

/-- What stands at ENV_DOWN_DIR/srcname after the optional fetch. -/
inductive Source
  /-- `-s` is not given. -/
  | unset
  | archive (path content : Text)
  | git (head : Key)
  | svn (revision : Key)
  /-- Neither a file nor a git or svn working copy. -/
  | unsupported
deriving DecidableEq

/-- Everything `get_checksum` reads. The append string is one line of a make variable. -/
structure InputState where
  tree : FileTree
  /-- The words of `-c`. -/
  items : List Text
  source : Source
  /-- The archive checksums that `get_depend_checksum` appends, in its order. -/
  depends : List Key
  appends : Text
  oneLine : '\n' ∉ appends

section Checksum

variable (md5 : Text → Key) (fnmatch : Text → Text → Bool)

def md5sumLine (file : Text × Text) : Text := (md5 file.2).text ++ "  ".toList ++ file.1

def sourceLines : Source → Option (List Text)
  | .unset => some []
  | .archive path content => some [md5sumLine md5 (path, content)]
  | .git head => some [head.text]
  | .svn revision => some [revision.text]
  | .unsupported => none

/-- `checktmp1`: a standing force file's line, source, dependencies, extra files. -/
def checktmp1 (s : InputState) (force : Option Key) : Option (List Text) := do
  let source ← sourceLines md5 s.source
  let extra ← extraFiles fnmatch s.tree s.items
  some (force.toList.map Key.text ++ source ++ s.depends.map Key.text ++
    extra.map (md5sumLine md5))

/-- `cut -d ' ' -f 1`. -/
def firstField (line : Text) : Text := line.takeWhile (· ≠ ' ')

/-- A word of a dash and the letters `n`, `e` and `E`, which the `echo` of bash takes for its options. -/
def echoOption : Text → Bool
  | '-' :: letters => letters ≠ [] && letters.all ("neE".toList.contains ·)
  | _ => false

/-- What `echo` prints of one word: an option is no text, and after `n` there is no line either. -/
def echo (word : Text) : List Text :=
  if echoOption word then if 'n' ∈ word then [] else [[]] else [word]

example : [echo "-nE".toList, echo "-e".toList, echo "-x".toList] = [[], [[]], ["-x".toList]] := by decide

def appendLine (s : InputState) : List Text := if s.appends = [] then [] else echo s.appends

def checktmp2 (s : InputState) (lines : List Text) : Text :=
  Text.unlines ((lines.map firstField).insertionSort (· ≤ ·) ++ appendLine s)

/-- `get_checksum`: the value written to the checksum file. -/
def getChecksum (s : InputState) (force : Option Key) : Option Key := do
  let lines ← checktmp1 md5 fnmatch s force
  some (md5 (checktmp2 s lines))

end Checksum

end CBuild.Model.ProcessCache
