import CBuild.Svn.History
import Mathlib.Logic.Function.Basic

/-! # Fetching from svn

`do_fetch` of `fetch_package.sh` for the method svn: the working copy ENV_DOWN_DIR/<package>, its checksum
record, and one tarball for each request. A working copy is its base revision.
-/

namespace CBuild.Model.FetchPackage

open CBuild.Svn

/-- ENV_DOWN_DIR: the base of the working copy, the record `checksum/<package>.md5`, and the bases in the
tarballs `<package>-svn-rev.<rev>.tar.gz`. -/
structure SvnDir where
  package : Option ℕ := none
  checksrc : Option ℕ := none
  tarballs : Option ℕ → Option ℕ := fun _ => none

/-- Where the caller is: in no working copy, in one of another repository with some last revision, or in
ENV_DOWN_DIR/<package>. -/
inductive Cwd
  | outside
  | other (head : ℕ)
  | package

/-- `svn update -q -r $rev` where the caller is, when ENV_DOWN_DIR/<package> has been removed before. -/
def Cwd.update (rev : ℕ) : Cwd → Bool
  | .outside | .package => false
  | .other head => rev ≤ head

section

variable {Files : Type} (history : History Files) (head : ℕ) (rev : Option ℕ)

/-- The tarball is made of the working copy, and its last change is recorded. -/
def storeSvn (base : ℕ) (down : SvnDir) : SvnDir where
  package := some base
  checksrc := some (history.lastChange base)
  tarballs := Function.update down.tarballs rev (some base)

/-- An exit leaves no tarball of the request and no record. -/
def leaveSvn (base : ℕ) (down : SvnDir) : SvnDir where
  package := some base
  checksrc := none
  tarballs := Function.update down.tarballs rev none

/-- The working copy from the tarball of the request or from the mirror. A tarball is unpacked only when the
record is there and the working copy is not; else all three are removed first. -/
def unpackSvn (mirror : Option ℕ → Option ℕ) (down : SvnDir) : SvnDir :=
  if down.checksrc.isSome && (down.tarballs rev).isSome then
    { down with package := down.tarballs rev, checksrc := none }
  else
    { package := mirror rev, checksrc := none, tarballs := Function.update down.tarballs rev (mirror rev) }

variable (cwd : Cwd) (mirror : Option ℕ → Option ℕ) (down : SvnDir)

/-- Where the working copy or its record is missing. -/
def fetchFreshSvn : SvnDir × Bool :=
  let down := unpackSvn rev mirror down
  match down.package, rev with
  | none, none => (storeSvn history rev head down, true)
  | none, some r =>
    -- the update is not made in the working copy
    if cwd.update r then (storeSvn history rev head down, true) else (leaveSvn rev head down, false)
  | some base, some _ => ({ down with checksrc := some (history.lastChange base) }, true)
  | some base, none =>
    if history.lastChange base ≠ history.lastChange head then (storeSvn history rev head down, true)
    else ({ down with package := some head, checksrc := some (history.lastChange head) }, true)

def fetchAgainSvn (base : ℕ) : SvnDir × Bool :=
  match rev with
  | some r =>
    if r ≠ history.lastChange base then
      if history.Exists head r then (storeSvn history rev r down, true) else (leaveSvn rev head down, false)
    else if (down.tarballs rev).isNone then (storeSvn history rev base down, true)
    else (down, true)
  | none =>
    if history.lastChange base ≠ history.lastChange head ∨ (down.tarballs rev).isNone then
      (storeSvn history rev head down, true)
    else ({ down with package := some head }, true)

/-- `do_fetch` for the method svn, and whether it succeeds. -/
def doFetchSvn : SvnDir × Bool :=
  match down.package with
  | some base =>
    if down.checksrc.isNone then fetchFreshSvn history head rev cwd mirror down
    else fetchAgainSvn history head rev down base
  | none => fetchFreshSvn history head rev cwd mirror down

end

end CBuild.Model.FetchPackage
