import CBuild.Files.Directory
import CBuild.Text.Basic

/-! # Filling a sysroot

`process_sysroot.sh link`, `install` and `release`, into an empty directory. A name has nothing in it
that the shell splits or expands. Hard links show what their files hold, and links to symbolic
links are symbolic links.
-/

namespace CBuild.Model.ProcessSysroot

open Text Files

structure FileName where
  text : Text
  nonempty : text ≠ []
  plain : ∀ c ∈ text, blank c = false ∧ c ∉ ['/', '*', '?', '[', ']']
  entry : text ≠ ['.'] ∧ text ≠ ['.', '.']

theorem FileName.text_inj {first second : FileName} : first.text = second.text ↔ first = second := by
  constructor
  · intro same
    cases first
    cases same
    rfl
  · exact congrArg FileName.text

instance instDecidableEqFileName : DecidableEq FileName := fun _ _ => decidable_of_iff _ FileName.text_inj

/-- `ls` and `*` leave the name out. -/
def FileName.hidden (name : FileName) : Bool := name.text.head? = some '.'

inductive Content
  | file (bytes : List UInt8)
  | symlink (target : Text)
deriving DecidableEq

abbrev Sysroot := Directory FileName Content

/-- `$s/$v`. -/
def below (s : Text) (v : FileName) : Text := s ++ '/' :: v.text

/-- The directories that `link_sysroot` passes over. -/
def passesOver (s : Text) (v : FileName) : Bool :=
  if v.text ∈ ["locale".toList, "man".toList, "info".toList, "doc".toList, "license".toList] then
    "/share".toList.isSuffixOf s
  else if v.text = "Help".toList then "/share/cmake".toList <:+: s
  else false

/-- The directories that `link_sysroot` copies. -/
def copies (s : Text) (v : FileName) : Bool :=
  v.text = "terminfo".toList && ("/share".toList.isSuffixOf s || "/lib".toList.isSuffixOf s)

/-- `link_sysroot`; the directory `$s` holds the entries. -/
def linkSysroot (s : Text) : Sysroot → Sysroot
  | .nil => .nil
  | .leaf v content rest =>
    if v.hidden then linkSysroot s rest else .leaf v content (linkSysroot s rest)
  | .dir v entries rest =>
    if v.hidden then linkSysroot s rest
    else if passesOver s v then linkSysroot s rest
    else if copies s v then .dir v entries (linkSysroot s rest)
    else .dir v (linkSysroot (below s v) entries) (linkSysroot s rest)

/-- `install_sysroot`: `cp -drf $1/* $2`. -/
def installSysroot (entries : Sysroot) : Sysroot := entries.restrict (!·.hidden)

def isArchive (v : FileName) : Bool := ".a".toList.isSuffixOf v.text || ".la".toList.isSuffixOf v.text

def leavesOut (s : Text) (v : FileName) : Bool :=
  if v.text ∈ ["include".toList, "pkgconfig".toList, "aclocal".toList, "cmake".toList] then true
  else if v.text ∈ ["locale".toList, "man".toList, "info".toList, "doc".toList] then "/share".toList.isSuffixOf s
  else if v.text = "Help".toList then "/share/cmake".toList <:+: s
  else false

/-- The directories that `release_sysroot_without_check` copies; `src` is the top. -/
def copiesWhole (src s : Text) (v : FileName) : Bool :=
  if v.text ∈ ["bin".toList, "sbin".toList, "libexec".toList] then true
  else if v.text ∈ ["etc".toList, "srv".toList, "com".toList, "var".toList, "run".toList] then s = src
  else if v.text = "terminfo".toList then "/share".toList.isSuffixOf s || "/lib".toList.isSuffixOf s
  else false

def releaseSysrootWithCheck (s : Text) : Sysroot → Sysroot
  | .nil => .nil
  | .leaf v content rest =>
    if v.hidden || isArchive v then releaseSysrootWithCheck s rest
    else .leaf v content (releaseSysrootWithCheck s rest)
  | .dir v entries rest =>
    if v.hidden || leavesOut s v then releaseSysrootWithCheck s rest
    else .dir v (releaseSysrootWithCheck (below s v) entries) (releaseSysrootWithCheck s rest)

/-- `release_sysroot_without_check`; `cp -drf $s/$v/*` copies what has no hidden name directly in `$s/$v`. -/
def releaseSysrootWithoutCheck (src s : Text) : Sysroot → Sysroot
  | .nil => .nil
  | .leaf v content rest =>
    if v.hidden || isArchive v then releaseSysrootWithoutCheck src s rest
    else .leaf v content (releaseSysrootWithoutCheck src s rest)
  | .dir v entries rest =>
    if v.hidden || leavesOut s v then releaseSysrootWithoutCheck src s rest
    else if copiesWhole src s v then
      .dir v (entries.restrict (!·.hidden)) (releaseSysrootWithoutCheck src s rest)
    else .dir v (releaseSysrootWithoutCheck src (below s v) entries) (releaseSysrootWithoutCheck src s rest)

def releaseSysroot (src : Text) (entries : Sysroot) : Sysroot := releaseSysrootWithoutCheck src src entries

end CBuild.Model.ProcessSysroot
