import CBuild.Machine.Effects
import CBuild.Model.ProcessCache.Machine
import Mathlib.Logic.Function.Basic

/-! # The build cache, effect by effect

`check_cache`, `pull_cache` and `push_cache` as programs of single effects on ENV_CACHE_DIR and on the
output directories of the packages. Each effect may fail or be the last one, and leave less than it should. What
the checksum of the inputs is, and what the mirror has, is data of the call.
-/

namespace CBuild.Model.ProcessCache.Effects

open Machine

variable {Site Tree Digest : Type}

/-- A file with the name of an archive. -/
inductive Archive (Tree : Type)
  | complete (image : Tree)
  | cut
deriving DecidableEq

/-- What a package has in its output directory. -/
structure Work (Tree Digest : Type) where
  insdir : Option Tree
  flag : Bool
  checkfile : Option Digest
  matchfile : Bool
  forcefile : Option ForceFile
  /-- the archives that `tar` wrote beside INS_TOPDIR -/
  packed : CacheFile Digest → Option (Archive Tree)

/-- The output directories, and ENV_CACHE_DIR. -/
structure Files (Site Tree Digest : Type) where
  work : Site → Work Tree Digest
  cache : CacheFile Digest → Option (Archive Tree)

inductive Effect (Tree Digest : Type)
  | rmMatch | rmCheck | rmForce | rmInsdir
  | rmArchives (doomed : CacheFile Digest → Bool)
  | mkdir
  /-- `get_source_checksum`, `get_depend_checksum` and `get_extra_checksum` -/
  | readInputs
  /-- the checksum file -/
  | sum (digest : Digest)
  | wget (file : CacheFile Digest) (image : Tree)
  | unpack (file : CacheFile Digest)
  | pack (file : CacheFile Digest)
  | mv (file : CacheFile Digest)
  | touchMatch | touchFlag

/-- What an effect leaves that does not succeed: nothing is done, all is done, or a part: of the files to remove
some are spared, a file to write is cut, and of INS_TOPDIR and of the checksum file something is there. -/
inductive Left (Tree Digest : Type)
  | untouched
  | whole
  | part (insdir : Option Tree) (checkfile : Option Digest) (spared : CacheFile Digest → Bool)

variable [DecidableEq Site] [DecidableEq Digest]

def Files.setWork (files : Files Site Tree Digest) (site : Site) (work : Work Tree Digest) :
    Files Site Tree Digest :=
  { files with work := Function.update files.work site work }

def Files.setCache (files : Files Site Tree Digest) (file : CacheFile Digest) (archive : Archive Tree) :
    Files Site Tree Digest :=
  { files with cache := Function.update files.cache file (some archive) }

def done (files : Files Site Tree Digest) (site : Site) : Effect Tree Digest → Files Site Tree Digest
  | .rmMatch => files.setWork site { files.work site with matchfile := false }
  | .rmCheck => files.setWork site { files.work site with checkfile := none }
  | .rmForce => files.setWork site { files.work site with forcefile := none }
  | .rmInsdir => files.setWork site { files.work site with insdir := none, flag := false }
  | .rmArchives doomed => { files with cache := fun file => if doomed file then none else files.cache file }
  | .mkdir | .readInputs => files
  | .sum digest => files.setWork site { files.work site with checkfile := some digest }
  | .wget file image => files.setCache file (.complete image)
  | .unpack file =>
    match files.cache file with
    | some (.complete image) => files.setWork site { files.work site with insdir := some image }
    | _ => files
  | .pack file =>
    match (files.work site).insdir with
    | some image => files.setWork site
        { files.work site with packed := Function.update (files.work site).packed file (some (.complete image)) }
    | none => files
  | .mv file =>
    match (files.work site).packed file with
    | some archive => (files.setCache file archive).setWork site
        { files.work site with packed := Function.update (files.work site).packed file none }
    | none => files
  | .touchMatch => files.setWork site { files.work site with matchfile := true }
  | .touchFlag => files.setWork site { files.work site with flag := true }

def cutShort (files : Files Site Tree Digest) (site : Site) (insdir : Option Tree) (checkfile : Option Digest)
    (spared : CacheFile Digest → Bool) : Effect Tree Digest → Files Site Tree Digest
  | .rmInsdir | .unpack _ => files.setWork site { files.work site with insdir }
  | .rmArchives doomed =>
    { files with cache := fun file => if doomed file && !spared file then none else files.cache file }
  | .sum _ => files.setWork site { files.work site with checkfile }
  | .wget file _ => files.setCache file .cut
  | .pack file => files.setWork site
      { files.work site with packed := Function.update (files.work site).packed file (some .cut) }
  | .mv file => if ((files.work site).packed file).isSome then files.setCache file .cut else files
  | _ => files

def leave (files : Files Site Tree Digest) (site : Site) (effect : Effect Tree Digest) :
    Left Tree Digest → Files Site Tree Digest
  | .untouched => files
  | .whole => done files site effect
  | .part insdir checkfile spared => cutShort files site insdir checkfile spared effect

def apply (files : Files Site Tree Digest) (act : Site × Effect Tree Digest) :
    Outcome (Left Tree Digest) → Files Site Tree Digest
  | .success => done files act.1 act.2
  | .failed left | .killed left => leave files act.1 act.2 left

abbrev Script (Site Tree Digest : Type) := Prog (Files Site Tree Digest) (Site × Effect Tree Digest)

section Methods

variable (o : Options) (site : Site)

/-- A command whose exit status is not looked at. -/
def command (effect : Effect Tree Digest) (rest : Script Site Tree Digest) : Script Site Tree Digest :=
  .act (site, effect) fun _ => rest

/-- `get_checksum`, with or without `check`. -/
def getChecksum (check : Bool) (digest : Digest) (rest : Script Site Tree Digest) : Script Site Tree Digest :=
  let sum := .act (site, .readInputs) fun success => if success then command site (.sum digest) rest else .exit
  command site .rmMatch <| command site .rmCheck <| .look fun files =>
    match (files.work site).forcefile with
    | none => command site .mkdir sum
    | some force =>
      if check then .exit
      else command site .mkdir (if force.once then command site .rmForce sum else sum)

def delCache (rest : Script Site Tree Digest) : Script Site Tree Digest :=
  o.cacheGrades.foldr (fun grade rest =>
    command site (.rmArchives fun file => file.packname = o.packname && file.cachePrefix = grade) rest) rest

def checkCache (digest : Digest) (mirror : CacheFile Digest → Option Tree) : Script Site Tree Digest :=
  getChecksum site true digest <| .look fun files =>
    match (files.work site).checkfile with
    | none => .exit
    | some key =>
      let file := o.cachefile key
      if (files.cache file).isSome then command site .touchMatch .exit
      else match mirror file with
        | none => .exit
        | some image =>
          delCache o site <| command site .rmInsdir <| command site .mkdir <|
            .act (site, .wget file image) fun success => if success then command site .touchMatch .exit else .exit

def pullCache : Script Site Tree Digest :=
  .look fun files =>
    if (files.work site).insdir.isNone || !(files.work site).flag then
      match (files.work site).checkfile with
      | none => .exit
      | some key =>
        let file := o.cachefile key
        if (files.cache file).isSome then
          command site .rmInsdir <| command site .mkdir <| command site (.unpack file) <|
            command site .touchFlag .exit
        else .exit
    else .exit

/-- `push_cache`, once there should be a checksum. -/
def pushArchive : Script Site Tree Digest :=
  .look fun files =>
    match (files.work site).checkfile with
    | none => .exit
    | some key =>
      let file := o.cachefile key
      command site .touchFlag <| command site (.pack file) <| delCache o site <| command site .mkdir <|
        command site (.mv file) .exit

def pushCache (digest : Digest) : Script Site Tree Digest :=
  .look fun files =>
    if (files.work site).insdir.isNone then .exit
    else if (files.work site).checkfile.isNone then getChecksum site false digest (pushArchive o site)
    else pushArchive o site

end Methods

inductive Call (Tree Digest : Type)
  | check (digest : Digest) (mirror : CacheFile Digest → Option Tree)
  | pull
  | push (digest : Digest)

def Call.script (o : Options) (site : Site) : Call Tree Digest → Script Site Tree Digest
  | .check digest mirror => checkCache o site digest mirror
  | .pull => pullCache o site
  | .push digest => pushCache o site digest

/-- What happens next: a method is called, an effect ends, or, while no method runs, a package is built or its
force file set. -/
inductive Event (Site Tree Digest : Type)
  | call (site : Site) (o : Options) (call : Call Tree Digest)
  | ends (outcome : Outcome (Left Tree Digest))
  | build (site : Site) (insdir : Option Tree) (flag : Bool)
  | setForce (site : Site) (forcefile : Option ForceFile)

abbrev System (Site Tree Digest : Type) := Process (Files Site Tree Digest) (Site × Effect Tree Digest)

/-- While no method runs. -/
def System.between (s : System Site Tree Digest) (files : Files Site Tree Digest) : System Site Tree Digest :=
  match s.prog with
  | .exit => ⟨files, .exit⟩
  | _ => s

def step (s : System Site Tree Digest) : Event Site Tree Digest → System Site Tree Digest
  | .call site o call => s.start (call.script o site)
  | .ends outcome => s.advance apply outcome
  | .build site insdir flag => s.between (s.state.setWork site { s.state.work site with insdir, flag })
  | .setForce site forcefile => s.between (s.state.setWork site { s.state.work site with forcefile })

end CBuild.Model.ProcessCache.Effects
