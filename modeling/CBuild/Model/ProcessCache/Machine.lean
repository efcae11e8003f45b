import CBuild.Machine.Run
import CBuild.Model.ProcessCache.Checksum

/-! # The build cache of one package

`process_cache.sh` and the `checksum` and `cachebuild` recipes of `inc.rule.mk`, as operations on
the files they read and write: INS_TOPDIR and its flag, the checksum, MATCH and force files, and
the archives in ENV_CACHE_DIR. Each operation returns the new state and whether it exits with
success. What the environment decides (where a build or a download stops, what another work tree
pushes) is data of the event, so every behaviour is the fold of a list of events.

The build output and the checksum are functions of the inputs; the text of a standing force file
is checksummed with them. Unpacking an archive yields the tree that was packed.
-/

namespace CBuild.Model.ProcessCache

/-- `<cache_prefix>--<packname>--<version>--<checksum>.tar.gz`. -/
structure CacheFile (Digest : Type*) where
  cachePrefix : String
  packname : String
  version : String
  checksum : Digest
deriving DecidableEq

/-- The variables that the option loop of the script leaves to all its methods. -/
structure Options where
  packname : String
  version : String
  cacheGrades : List String
  cachePrefix : String

/-- `-p -v -n -g` as the script reads them; `grades` is what `process_machine.sh cache_grades`
prints and `native` is `uname -m` when `-n` is given. -/
def Options.parse (package version : String) (native : Option String) (grades : List String)
    (grade : ℕ) : Options :=
  match native with
  | none =>
    let gradeSel := if grade > grades.length then grades.length else grade
    -- `cut -d ' ' -f 0` prints nothing
    ⟨package, version, grades, if gradeSel = 0 then "" else grades.getD (gradeSel - 1) ""⟩
  | some machine => ⟨package ++ "-native", version, [machine], machine⟩

/-- The force file: the date it was written at, and `once` for `set1force`. -/
structure ForceFile where
  date : Key
  once : Bool
deriving DecidableEq

/-- What the package computes: its image, and the checksum of its inputs together with the date of a force file
that is not `once`, `none` where `get_checksum` exits with an error. -/
structure Recipe (Inputs Tree Digest : Type*) where
  output : Inputs → Tree
  checksum : Inputs → Option Key → Option Digest

section Operations

variable {Inputs Tree Digest : Type*} [DecidableEq Digest]

abbrev CacheDir (Tree Digest : Type*) := CacheFile Digest → Option Tree

/-- The files of one work tree that the cache reads and writes, and the shared archives. -/
structure State (Inputs Tree Digest : Type*) where
  inputs : Inputs
  insdir : Option Tree
  flag : Bool
  checkfile : Option Digest
  matchfile : Bool
  forcefile : Option ForceFile
  cache : CacheDir Tree Digest

def Options.cachefile (o : Options) (checksum : Digest) : CacheFile Digest :=
  ⟨o.cachePrefix, o.packname, o.version, checksum⟩

/-- `del_cache`: the archives of the package under every grade. -/
def delCache (o : Options) (cache : CacheDir Tree Digest) : CacheDir Tree Digest :=
  fun file => if file.packname = o.packname ∧ file.cachePrefix ∈ o.cacheGrades then none else cache file

def store (cache : CacheDir Tree Digest) (file : CacheFile Digest) (image : Tree) :
    CacheDir Tree Digest :=
  fun other => if other = file then some image else cache other

/-- What the environment decides during `checksum`. -/
inductive CheckEnd (Tree : Type*)
  /-- It is stopped in `get_checksum`. -/
  | stopped
  /-- A started mirror download completes. -/
  | complete
  /-- A started mirror download breaks off and leaves a file that unpacks to `part`. -/
  | brokenOff (part : Tree)

/-- `check_cache`. A standing force file makes `get_checksum check` exit before it writes the
checksum file. -/
def checkCache (r : Recipe Inputs Tree Digest) (o : Options) (mirror : CacheDir Tree Digest)
    (s : State Inputs Tree Digest) (env : CheckEnd Tree) : State Inputs Tree Digest × Bool :=
  let s := { s with matchfile := false, checkfile := none }
  if s.forcefile.isSome then (s, true)
  else match env, r.checksum s.inputs none with
    | .stopped, _ | _, none => (s, false)
    | env, some key =>
      let s := { s with checkfile := some key }
      let file := o.cachefile key
      if (s.cache file).isSome then ({ s with matchfile := true }, true)
      else match mirror file with
        | none => (s, true)
        | some image =>
          let s := { s with insdir := none, flag := false, cache := delCache o s.cache }
          match env with
          | .brokenOff part => ({ s with cache := store s.cache file part }, false)
          | _ => ({ s with matchfile := true, cache := store s.cache file image }, true)

/-- `pull_cache`: nothing to do when both INS_TOPDIR and its flag exist. -/
def pullCache (o : Options) (s : State Inputs Tree Digest) : State Inputs Tree Digest × Bool :=
  if s.insdir.isNone || !s.flag then
    match s.checkfile with
    | none => (s, false)
    | some key =>
      match s.cache (o.cachefile key) with
      | none => (s, false)
      | some image => ({ s with insdir := some image, flag := true }, true)
  else (s, true)

/-- `get_checksum` as `push_cache` calls it: a standing force file is checksummed with the
inputs, a `once` file is removed. -/
def redoChecksum (r : Recipe Inputs Tree Digest) (s : State Inputs Tree Digest) :
    State Inputs Tree Digest :=
  match s.forcefile with
  | none => { s with checkfile := r.checksum s.inputs none }
  | some force =>
    if force.once then { s with checkfile := r.checksum s.inputs none, forcefile := none }
    else { s with checkfile := r.checksum s.inputs (some force.date) }

/-- Where `push_cache` ends: it is stopped in `get_checksum`, it is killed after the flag is written or after
`del_cache`, or the archive is moved into ENV_CACHE_DIR. -/
inductive PushEnd
  | stopped | flagged | deleted | moved
deriving DecidableEq

/-- The checksum that names the archive. Only a missing checksum file is computed again. -/
def pushChecksum (r : Recipe Inputs Tree Digest) (s : State Inputs Tree Digest) (env : PushEnd) :
    State Inputs Tree Digest × Option Digest :=
  match s.checkfile with
  | some key => (s, some key)
  | none =>
    let s := redoChecksum r s
    if env = .stopped then ({ s with checkfile := none }, none) else (s, s.checkfile)

def pushCache (r : Recipe Inputs Tree Digest) (o : Options) (s : State Inputs Tree Digest)
    (env : PushEnd) : State Inputs Tree Digest × Bool :=
  match s.insdir with
  | none => (s, false)
  | some image =>
    match pushChecksum r s env with
    | (s, none) => (s, false)
    | (s, some key) =>
      match env with
      | .flagged => ({ s with flag := true }, false)
      | .deleted => ({ s with flag := true, cache := delCache o s.cache }, false)
      | _ => ({ s with
          flag := true, cache := store (delCache o s.cache) (o.cachefile key) image }, true)

/-- Where the `build` recipe ends: before its `rm -rf INS_TOPDIR`, after it with whatever is
installed by then, or complete and followed by `push_cache`. -/
inductive BuildEnd (Tree : Type*)
  | stopped
  | broken (left : Option Tree)
  | built (push : PushEnd)

/-- The commands of the `cachebuild` recipe: `pull_cache` under MATCH, else `build` and then
`push_cache`. -/
def cachebuildCommands (r : Recipe Inputs Tree Digest) (o : Options) (s : State Inputs Tree Digest)
    (env : BuildEnd Tree) : State Inputs Tree Digest × Bool :=
  if s.matchfile then pullCache o s
  else match env with
    | .stopped => (s, false)
    | .broken left => ({ s with insdir := left }, false)
    | .built push => pushCache r o { s with insdir := some (r.output s.inputs) } push

/-- The whole recipe: MATCH is removed once every command succeeded. -/
def cachebuild (r : Recipe Inputs Tree Digest) (o : Options) (s : State Inputs Tree Digest)
    (env : BuildEnd Tree) : State Inputs Tree Digest × Bool :=
  let (s, success) := cachebuildCommands r o s env
  ({ s with matchfile := s.matchfile && !success }, success)

def setForce (s : State Inputs Tree Digest) (date : Key) (once : Bool) :
    State Inputs Tree Digest :=
  { s with forcefile := some ⟨date, once⟩ }

def unsetForce (o : Options) (s : State Inputs Tree Digest) : State Inputs Tree Digest :=
  { s with forcefile := none, insdir := none, flag := false, cache := delCache o s.cache }

/-- One event of the package's life. `foreignPush` is `push_cache` of another work tree that
shares ENV_CACHE_DIR: it may stand at another version or grade, and packs what it built. -/
inductive Event (Inputs Tree : Type*)
  | edit (inputs : Inputs)
  | checksum (env : CheckEnd Tree)
  | cachebuild (env : BuildEnd Tree)
  | setforce (date : Key)
  | set1force (date : Key)
  | unsetforce
  | foreignPush (version : String) (cacheGrades : List String) (cachePrefix : String)
      (inputs : Inputs) (force : Option Key)

/-- One event, and whether its recipe succeeds. -/
def exec (r : Recipe Inputs Tree Digest) (o : Options) (mirror : CacheDir Tree Digest)
    (s : State Inputs Tree Digest) : Event Inputs Tree → State Inputs Tree Digest × Bool
  | .edit inputs => ({ s with inputs := inputs }, true)
  | .checksum env => checkCache r o mirror s env
  | .cachebuild env => cachebuild r o s env
  | .setforce date => (setForce s date false, true)
  | .set1force date => (setForce s date true, true)
  | .unsetforce => (unsetForce o s, true)
  | .foreignPush version cacheGrades cachePrefix inputs force =>
    let o' : Options := ⟨o.packname, version, cacheGrades, cachePrefix⟩
    match r.checksum inputs force with
    | none => (s, false)
    | some key => ({ s with cache := store (delCache o' s.cache) (o'.cachefile key) (r.output inputs) }, true)

/-- A new work tree: nothing built, nothing checked, and the archives others have pushed. -/
def fresh (inputs : Inputs) (cache : CacheDir Tree Digest) : State Inputs Tree Digest :=
  ⟨inputs, none, false, none, false, none, cache⟩

end Operations

end CBuild.Model.ProcessCache
