import CBuild.Text.Basic

/-! # Starting a program with its own loader

`execld.c`. The characters of the texts are bytes. What the program finds of the files is what the system calls answer:
`realpath` gives the real path, and what is there is what `access`, `stat` and `fopen` see.
-/

namespace CBuild.Model.Execld

/-- What is at a real path. Only a file that can be read has a content. -/
inductive Kind where
  | directory (searchable : Bool)
  | regular (executable : Bool) (content : Option Text)

structure System where
  realpath : Text → Option Text
  entry : Text → Kind
  empty : realpath [] = none
  slashes : ∀ first second, realpath (first ++ '/' :: '/' :: second) = realpath (first ++ '/' :: second)

namespace System

variable (system : System)

def kind (path : Text) : Option Kind := (system.realpath path).map system.entry

def fileExists (path : Text) : Bool := (system.kind path).isSome

def fileExecutable (path : Text) : Bool :=
  match system.kind path with
  | some (.directory searchable) => searchable
  | some (.regular executable _) => executable
  | none => false

def dirExists (path : Text) : Bool :=
  match system.kind path with
  | some (.directory _) => true
  | _ => false

/-- A file that `execve` starts. -/
def startable (path : Text) : Bool :=
  match system.kind path with
  | some (.regular executable _) => executable
  | _ => false

end System

def joinPath (base rel : Text) : Text :=
  if rel = [] then base
  else if rel.head? = some '/' then rel
  else base ++ (if base ≠ [] ∧ base.getLast? ≠ some '/' then ['/'] else []) ++ rel

/-- What `strtok_r` finds, one after the other. -/
def strtok (delim : Char) (text : Text) : List Text := (text.splitOnP (· = delim)).filter (· ≠ [])

section

variable (system : System)

/-- With the value of `PATH`. -/
def resolveProgramInPath (path : Option Text) (prog : Text) : Option Text :=
  match path with
  | none | some [] => none
  | some path => ((strtok ':' path).map (joinPath · prog)).find? system.fileExecutable

def resolveProgramPath (path : Option Text) (prog : Text) : Option Text :=
  if '/' ∈ prog then some prog else resolveProgramInPath system path prog

end

def getDirname (path : Text) : Text :=
  let dir := ((path.reverse.dropWhile (· ≠ '/')).drop 1).reverse
  if dir = [] then ['/'] else dir

def getBasename (path : Text) : Text := if path = ['/'] then path else (path.reverse.takeWhile (· ≠ '/')).reverse

def isBlank (c : Char) : Bool := c = ' ' || c = '\t' || c = '\r' || c = '\n'

def trim (s : Text) : Text := ((s.dropWhile isBlank).reverse.dropWhile isBlank).reverse

structure Config where
  linker : Option Text := none
  rpathRaw : Option Text := none

/-- The bytes that one `fgets` reads into `line`. -/
def lineMax : ℕ := 4095

/-- What one `fgets` after the other reads, with what it has read and the room that is left. -/
def fgetsFrom : Text → ℕ → Text → List Text
  | line, _, [] => if line = [] then [] else [line]
  | line, room, c :: rest =>
    if c = '\n' ∨ room ≤ 1 then (line ++ [c]) :: fgetsFrom [] lineMax rest else fgetsFrom (line ++ [c]) (room - 1) rest

def fgets (content : Text) : List Text := fgetsFrom [] lineMax content

/-- The text between the first and the last quotation mark, unless there is only one. -/
def unquote (val : Text) : Option Text :=
  let start := (val.dropWhile (· ≠ '"')).drop 1
  if '"' ∈ start then some ((start.reverse.dropWhile (· ≠ '"')).drop 1).reverse else none

/-- One turn of the loop; a string ends at a null byte. -/
def parseLine (cfg : Config) (line : Text) : Config :=
  let line := trim (line.takeWhile (· ≠ '\x00'))
  if line = [] ∨ line.head? = some '#' then cfg
  else if '=' ∈ line then
    let key := trim (line.takeWhile (· ≠ '='))
    match unquote (trim ((line.dropWhile (· ≠ '=')).drop 1)) with
    | some start =>
      if key = "linker".toList then { cfg with linker := some start }
      else if key = "rpath".toList then { cfg with rpathRaw := some start }
      else cfg
    | none => cfg
  else cfg

def parseCfg (content : Text) (cfg : Config) : Config := (fgets content).foldl parseLine cfg

variable (system : System)

/-- A directory can be opened, but nothing can be read from it. -/
def parseCfgFile (cfgPath : Text) (cfg : Config) : Option Config :=
  match system.kind cfgPath with
  | some (.regular _ (some content)) => some (parseCfg content cfg)
  | some (.directory _) => some cfg
  | _ => none

def splitRpath (raw : Option Text) : List Text := ((strtok ';' (raw.getD [])).map trim).filter (· ≠ [])

def makeAbs (baseDir rel : Text) : Text :=
  let joined := joinPath baseDir rel
  (system.realpath joined).getD joined

def parentIsUsr (dir : Text) : Bool := getBasename (getDirname dir) = "usr".toList

/-- With the old value of `LD_LIBRARY_PATH`. -/
def buildLibraryPath (progDir : Text) (rpaths : List Text) (old : Option Text) : Option Text :=
  let absList := (rpaths.map (makeAbs system progDir)).filter system.dirExists
  if absList = [] then none
  else some ([':'].intercalate absList ++ if old.getD [] ≠ [] then ':' :: old.getD [] else [])

/-- A buffer of `PATH_MAX` bytes. -/
def snprintf (path : Text) : Text := path.take 4095

def cfg1 (progPath : Text) : Text := snprintf (getDirname progPath ++ '/' :: (getBasename progPath ++ ".ld.cfg".toList))

def cfg2 (progPath : Text) : Text := snprintf (getDirname progPath ++ "/ld.cfg".toList)

def ldso (progPath : Text) : Text := snprintf (getDirname progPath ++ "/ld.so".toList)

def Config.isSet (cfg : Config) : Bool := cfg.linker.isSome || cfg.rpathRaw.isSome

/-- `cfg` after a file has been read, where it exists. -/
def readCfg (cfgPath : Text) (cfg : Config) : Option Config :=
  if system.fileExists cfgPath then parseCfgFile system cfgPath cfg else none

/-- `cfg`, and `have_cfg`. -/
def findCfg (progPath : Text) : Config × Bool :=
  let first := (readCfg system (cfg1 progPath) {}).getD {}
  if first.isSet then (first, true)
  else
    let second := (readCfg system (cfg2 progPath) first).getD first
    (second, second.isSet)

def defaults (progDir : Text) : List Text :=
  [".".toList, "./lib".toList, "../lib".toList] ++ if parentIsUsr progDir then ["../../lib".toList] else []

/-- `linker_path` and `rpaths`. -/
def findLinker (progPath : Text) : Option (Text × List Text) :=
  let progDir := getDirname progPath
  let (cfg, haveCfg) := findCfg system progPath
  let fallback :=
    if system.fileExecutable (ldso progPath) then some (ldso progPath, defaults progDir) else none
  match haveCfg, cfg.linker with
  | true, some linker =>
    let linkerPath := makeAbs system progDir linker
    if system.fileExists linkerPath then some (linkerPath, splitRpath cfg.rpathRaw) else fallback
  -- A configuration without a linker keeps `have_cfg`.
  | true, none => none
  | false, _ => fallback

/-- A program is started with its arguments and `LD_LIBRARY_PATH`, or `exec` has failed. -/
inductive Outcome where
  | started (path : Text) (argv : List Text) (libraryPath : Option Text)
  | failed

def exec (path : Text) (argv : List Text) (libraryPath : Option Text) : Outcome :=
  if system.startable path then .started path argv libraryPath else .failed

/-- `main` once the real path of the program is known; `argv` is what follows `execld`. -/
def launch (old : Option Text) (argv : List Text) (progPath : Text) : Outcome :=
  match findLinker system progPath with
  | some (linkerPath, rpaths) =>
    exec system linkerPath (linkerPath :: progPath :: argv.drop 1)
      ((buildLibraryPath system (getDirname progPath) rpaths old).or old)
  | none => exec system progPath argv old

def main (path old : Option Text) (argv : List Text) : Outcome :=
  match argv with
  | [] => .failed
  | prog :: _ =>
    match (resolveProgramPath system path prog).bind system.realpath with
    | some progPath => launch system old argv progPath
    | none => .failed

end CBuild.Model.Execld
