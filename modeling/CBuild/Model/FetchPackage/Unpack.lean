import CBuild.Machine.Effects
import CBuild.Model.FetchPackage.Archive
import CBuild.Model.FetchPackage.Git
import CBuild.Model.FetchPackage.Svn

/-! # Unpacking a download

`do_unpack` of `fetch_package.sh`, effect by effect, on `$outdir/$outname` and its checksum file. Each effect may
fail or be the last one and leave less than it should. `do_fetch` of each method is one step.
-/

namespace CBuild.Model.FetchPackage

open Machine Text

/-- `do_fetch` of one method, and what `do_unpack` sees of ENV_DOWN_DIR. -/
structure Fetcher where
  Down : Type
  Call : Type
  Content : Type
  Record : Type
  recordEq : DecidableEq Record
  package : Down → Option Content
  checksrc : Down → Option Record
  /-- the checksum or revision of a download -/
  sum : Content → Record
  fetch : Call → Down → Down × Bool
  /-- `rm -rf` of the package and of its record, as far as it comes -/
  remove : Bool → Bool → Down → Down
  /-- the method is git or svn, which `do_unpack` copies -/
  copied : Bool

instance (f : Fetcher) : DecidableEq f.Record := f.recordEq

def archives {Content : Type} (md5sum : Content → Text) : Fetcher where
  Down := DownDir Content
  Call := Text × Downloads Content
  Content := Content
  Record := Text
  recordEq := inferInstance
  package := DownDir.package
  checksrc := DownDir.checksrc
  sum := md5sum
  fetch call down := doFetch md5sum call.1 call.2 down
  remove package checksrc down :=
    ⟨if package then none else down.package, if checksrc then none else down.checksrc⟩
  copied := false

/-- A git repository, and what its mirror has. -/
structure GitCall (Commit : Type) where
  remote : Git.Remote Commit
  wanted : Wanted Commit
  mirror : Text → Option (Git.Clone Commit)

def gitClones {Commit : Type} [DecidableEq Commit] (history : Git.History Commit) (hash : Commit → Text) :
    Fetcher where
  Down := GitDir Commit
  Call := GitCall Commit
  Content := Git.Clone Commit
  Record := Commit
  recordEq := inferInstance
  package := GitDir.package
  checksrc := GitDir.checksrc
  sum := Git.Clone.commit
  fetch call down := doFetchGit history call.remote call.wanted hash call.mirror down
  remove package checksrc down :=
    { down with
      package := if package then none else down.package
      checksrc := if checksrc then none else down.checksrc }
  copied := true

/-- The last revision, the url list, the directory of the caller, and what the mirror has. -/
structure SvnCall where
  head : ℕ
  rev : Option ℕ
  cwd : Cwd
  mirror : Option ℕ → Option ℕ

def svnCopies {Files : Type} (history : Svn.History Files) : Fetcher where
  Down := SvnDir
  Call := SvnCall
  Content := ℕ
  Record := ℕ
  recordEq := inferInstance
  package := SvnDir.package
  checksrc := SvnDir.checksrc
  sum := history.lastChange
  fetch call down := doFetchSvn history call.head call.rev call.cwd call.mirror down
  remove package checksrc down :=
    { down with
      package := if package then none else down.package
      checksrc := if checksrc then none else down.checksrc }
  copied := true

/-- What `$outdir/$outname` holds: all of one download and nothing else, or anything else. -/
inductive Tree (Content : Type)
  | whole (content : Content)
  | other

/-- What the checksum file holds: a record, or what is no record; that may be nothing. -/
inductive Mark (Record : Type)
  | record (record : Record)
  | cut (empty : Bool)
deriving DecidableEq

/-- ENV_DOWN_DIR, `$outdir/$outname` and `${checkdst}`, and whether `do_unpack` has returned success. -/
structure Work (f : Fetcher) where
  down : f.Down
  outname : Option (Tree f.Content) := none
  checkdst : Option (Mark f.Record) := none
  returned : Bool := false

inductive Effect
  /-- `rm -rf $outdir/$outname ${checkdst}` -/
  | rmOutname
  | mkdir
  /-- `unzip`, `tar` or `cp` -/
  | unpack
  /-- `rm -rf ${ENV_DOWN_DIR}/$package ${checksrc}` -/
  | rmPackage
  /-- `cp -fp ${checksrc} ${checkdst}` -/
  | copyRecord
  /-- `do_unpack` returns 0 -/
  | finish

inductive Extent
  | nothing | part | all
deriving DecidableEq

/-- How far an effect came that does not succeed: with the directory or download, and with the record; a part of a
record may be anything. -/
structure Left (Record : Type) where
  tree : Extent
  record : Extent
  mark : Mark Record

section

variable (f : Fetcher) (unpacks : f.Content → Bool)

/-- What is at `$outdir/$outname` when all is unpacked; a download that has nothing of this name leaves it. -/
def unpacked (s : Work f) : Option (Tree f.Content) :=
  match f.package s.down with
  | none => s.outname
  | some content =>
    if unpacks content then some (if s.outname.isNone then .whole content else .other) else s.outname

/-- What is there when a part is unpacked. -/
def begun (s : Work f) : Option (Tree f.Content) :=
  match f.package s.down with
  | none => s.outname
  | some content => if unpacks content then some .other else s.outname

def done (s : Work f) : Effect → Work f
  | .rmOutname => { s with outname := none, checkdst := none }
  | .mkdir => s
  | .unpack => { s with outname := unpacked f unpacks s }
  | .rmPackage => { s with down := f.remove true true s.down }
  | .copyRecord =>
    match f.checksrc s.down with
    | some record => { s with checkdst := some (.record record) }
    | none => s
  | .finish => { s with returned := true }

def leaves (s : Work f) (left : Left f.Record) : Effect → Work f
  | .rmOutname =>
    { s with
      outname := match left.tree with
        | .nothing => s.outname
        | .part => s.outname.map fun _ => .other
        | .all => none
      checkdst := if left.record = .all then none else s.checkdst }
  | .unpack =>
    match left.tree with
    | .nothing => s
    | .part => { s with outname := begun f unpacks s }
    | .all => done f unpacks s .unpack
  | .rmPackage => { s with down := f.remove (left.tree = .all) (left.record = .all) s.down }
  | .copyRecord =>
    match left.record with
    | .nothing => s
    | .part => { s with checkdst := some left.mark }
    | .all => done f unpacks s .copyRecord
  | .mkdir | .finish => s

def apply (s : Work f) (effect : Effect) : Outcome (Left f.Record) → Work f
  | .success => done f unpacks s effect
  | .failed left | .killed left => leaves f unpacks s left effect

/-- `"$(cat ${checksrc})" = "$(cat ${checkdst})"`, where `${checkdst}` is there. -/
def sameRecord (checksrc : Option f.Record) (checkdst : Mark f.Record) : Bool :=
  match checksrc, checkdst with
  | some record, mark => mark = .record record
  | none, mark => mark = .cut true

abbrev Script := Prog (Work f) Effect

/-- A command whose exit status is not looked at. -/
def command (effect : Effect) (rest : Script f) : Script f := .act effect fun _ => rest

def doUnpack : Script f :=
  let finish := command f .finish .exit
  .look fun s =>
    if s.outname.isSome && s.checkdst.any (sameRecord f (f.checksrc s.down)) then finish
    else
      command f .rmOutname <| command f .mkdir <| .act .unpack fun success =>
        if success || f.copied then .act .copyRecord fun success => if success then finish else .exit
        else command f .rmPackage .exit

/-- The script is called, with or without `outdir` and `outname`, or an effect of `do_unpack` ends. -/
inductive Event (f : Fetcher)
  | call (call : f.Call) (unpack : Bool)
  | ends (outcome : Outcome (Left f.Record))

/-- `exec_main` runs `do_unpack` when `do_fetch` does not exit. One call runs at a time. -/
def step (p : Process (Work f) Effect) : Event f → Process (Work f) Effect
  | .call call unpack =>
    match p.prog with
    | .exit =>
      let (down, success) := f.fetch call p.state.down
      let s := { p.state with down, returned := false }
      if success && unpack then ⟨s, (doUnpack f).settle s⟩ else ⟨s, .exit⟩
    | _ => p
  | .ends outcome => p.advance (apply f unpacks) outcome

end

end CBuild.Model.FetchPackage
