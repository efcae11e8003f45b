import CBuild.Git.Clone

/-! # Fetching from git

`do_fetch` of `fetch_package.sh` for the method git: the working copy ENV_DOWN_DIR/<package>, its checksum
record, and one tarball for each request.
-/

namespace CBuild.Model.FetchPackage

open CBuild.Git

variable {Commit : Type}

/-- The url list of a git package; a name that is not given is empty. -/
structure Wanted (Commit : Type) where
  branch : Text := []
  tag : Text := []
  rev : Option Commit := none

/-- ENV_DOWN_DIR: the working copy, its record `checksum/<package>.md5`, and the tarballs. -/
structure GitDir (Commit : Type) where
  package : Option (Clone Commit) := none
  checksrc : Option Commit := none
  tarballs : Text → Option (Clone Commit) := fun _ => none

section

variable (hash : Commit → Text)

/-- `packname`, without what is the same for all requests of a package. -/
def Wanted.packname (wanted : Wanted Commit) : Text :=
  "br.".toList ++ wanted.branch ++ "-rev.".toList ++ wanted.tag ++ (wanted.rev.map hash).getD []

def Wanted.plain (wanted : Wanted Commit) : Bool := wanted.tag = [] && wanted.rev.isNone

/-- What follows the last slash. -/
def lastField (text : Text) : Text := (text.reverse.takeWhile (· ≠ '/')).reverse

/-- `git branch -a | grep 'HEAD' | awk -F '/' '{print $NF}'`, a line for each match. -/
def headFields (clone : Clone Commit) : List Text :=
  let hasHead (name : Text) : Bool := "HEAD".toList <:+: name
  (if clone.current.isNone then ["* (HEAD detached)".toList] else []) ++
  ((clone.current.toList ++ clone.others.map Prod.fst).filter hasHead).map lastField ++
  [lastField clone.originHead] ++
  ((clone.tracking.map Prod.fst).filter hasHead).map lastField

/-- The branch that the incremental fetch looks for. More than one line is no name of a branch. -/
def wantedBranch (wanted : Wanted Commit) (clone : Clone Commit) : Option Text :=
  if wanted.branch = [] then
    match headFields clone with
    | [name] => some name
    | _ => none
  else some wanted.branch

end

section

variable [DecidableEq Commit] (history : History Commit) (remote : Remote Commit) (wanted : Wanted Commit)

/-- Commands that end with an exit leave the working copy behind. -/
abbrev Attempt (Commit α : Type) := Except (Clone Commit) α

/-- A command on the working copy, or the exit when it fails. -/
def orExit (clone : Clone Commit) (after : Option (Clone Commit)) : Attempt Commit (Clone Commit) :=
  match after with
  | some after => .ok after
  | none => .error clone

def checkoutBranch (clone : Clone Commit) : Attempt Commit (Clone Commit) :=
  if wanted.branch ≠ [] then orExit clone (clone.checkout wanted.branch) else .ok clone

def resetTag (clone : Clone Commit) : Attempt Commit (Clone Commit) :=
  if wanted.tag ≠ [] then orExit clone (clone.resetTo wanted.tag) else .ok clone

def resetRev (clone : Clone Commit) : Attempt Commit (Clone Commit) :=
  match wanted.rev with
  | some rev => orExit clone (clone.reset rev)
  | none => .ok clone

/-- `git clone`, and what is wanted of it. -/
def cloneFresh : Attempt Commit (Clone Commit) := do
  let clone ← checkoutBranch wanted (Clone.ofRemote history remote)
  let clone ← resetTag wanted clone
  resetRev wanted clone

/-- The branch that is wanted is checked out, and whether it was another one. -/
def switchBranch (clone : Clone Commit) : Attempt Commit (Clone Commit × Bool) :=
  let branch := wantedBranch wanted clone
  if branch = clone.current ∧ branch.isSome then .ok (clone, false)
  else
    let clone := clone.pull history remote
    match branch.bind (clone.checkout ·) with
    | some clone => .ok (clone, true)
    | none => .error clone

/-- The working copy is brought to the tip, the tag or the commit, and whether something was done. -/
def moveHead (clone : Clone Commit) : Attempt Commit (Clone Commit × Bool) :=
  if wanted.plain then
    let pulled := clone.pull history remote
    .ok (pulled, pulled.commit ≠ clone.commit)
  else if wanted.tag ≠ [] ∧ clone.tagsAtHead ≠ [wanted.tag] then
    let clone := clone.pull history remote
    (orExit clone (clone.resetTo wanted.tag)).map fun clone => (clone, true)
  else
    match wanted.rev with
    | some rev =>
      if rev ≠ clone.commit then
        let clone := clone.pull history remote
        (orExit clone (clone.reset rev)).map fun clone => (clone, true)
      else .ok (clone, false)
    | none => .ok (clone, false)

variable (hash : Commit → Text) (mirror : Text → Option (Clone Commit)) (down : GitDir Commit)

/-- The working copy from the tarball of the request or from the mirror. A tarball is unpacked only when the
record is there and the working copy is not; else all three are removed first. -/
def unpack : GitDir Commit :=
  let packname := wanted.packname hash
  if down.checksrc.isSome && (down.tarballs packname).isSome then
    { down with package := down.tarballs packname, checksrc := none }
  else
    { package := mirror packname, checksrc := none, tarballs := Function.update down.tarballs packname (mirror packname) }

/-- The tarball is made of the working copy, and its HEAD is recorded. -/
def store (clone : Clone Commit) (down : GitDir Commit) : GitDir Commit :=
  { package := some clone, checksrc := some clone.commit
    tarballs := Function.update down.tarballs (wanted.packname hash) (some clone) }

/-- An exit leaves no tarball of the request and no record. -/
def leave (clone : Clone Commit) (down : GitDir Commit) : GitDir Commit :=
  { package := some clone, checksrc := none
    tarballs := Function.update down.tarballs (wanted.packname hash) none }

/-- Where the working copy or its record is missing. -/
def fetchFresh : GitDir Commit × Bool :=
  let down := unpack wanted hash mirror down
  match down.package with
  | none =>
    match cloneFresh history remote wanted with
    | .ok clone => (store wanted hash clone down, true)
    | .error clone => (leave wanted hash clone down, false)
  | some clone =>
    if wanted.plain then
      let pulled := clone.pull history remote
      if pulled.commit ≠ clone.commit then (store wanted hash pulled down, true)
      else ({ down with package := some pulled, checksrc := some pulled.commit }, true)
    else ({ down with checksrc := some clone.commit }, true)

def fetchAgain (clone : Clone Commit) : GitDir Commit × Bool :=
  match switchBranch history remote wanted clone with
  | .error clone => (leave wanted hash clone down, false)
  | .ok (clone, switched) =>
    match moveHead history remote wanted clone with
    | .error clone => (leave wanted hash clone down, false)
    | .ok (clone, moved) =>
      if switched || moved || (down.tarballs (wanted.packname hash)).isNone then (store wanted hash clone down, true)
      else ({ down with package := some clone }, true)

/-- `do_fetch` for the method git, and whether it succeeds. -/
def doFetchGit : GitDir Commit × Bool :=
  match down.package with
  | some clone =>
    if down.checksrc.isNone then fetchFresh history remote wanted hash mirror down
    else fetchAgain history remote wanted hash down clone
  | none => fetchFresh history remote wanted hash mirror down

end

end CBuild.Model.FetchPackage
