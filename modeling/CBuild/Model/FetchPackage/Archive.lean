import CBuild.Text.Basic

/-! # Fetching archives

`fetch_package.sh`: the list of urls, and `do_fetch` for the methods tar and zip, on the package file
in ENV_DOWN_DIR and its checksum record. What the mirror and the upstream servers deliver is data of
the call: a download can fail, deliver anything, or leave part of a file behind.
-/

namespace CBuild.Model.FetchPackage

open Text

/-- What the url list sets; an item that is not given is empty. -/
structure Request where
  url : Text
  branch : Text := []
  tag : Text := []
  rev : Text := []
  md5 : Text := []
deriving DecidableEq

def readItem (request : Request) (item : Text) : Request :=
  if "branch=".toList.isPrefixOf item then { request with branch := item.drop 7 }
  else if "tag=".toList.isPrefixOf item then { request with tag := item.drop 4 }
  else if "rev=".toList.isPrefixOf item then { request with rev := item.drop 4 }
  else if "md5=".toList.isPrefixOf item then { request with md5 := item.drop 4 }
  else request

/-- `<url>;<item>;...`: a later item replaces an earlier one. -/
def parseUrls (urls : Text) : Request :=
  match splitOn [';'] urls with
  | [] => { url := [] }
  | url :: items => items.foldl readItem { url }

/-- `ENV_DOWN_DIR/<package>`, and its record `checksum/<package>.md5`. -/
structure DownDir (Content : Type) where
  package : Option Content
  checksrc : Option Text
deriving DecidableEq

/-- What the downloads of one call deliver. -/
structure Downloads (Content : Type) where
  /-- ENV_MIRROR_URL is set, and `wget --spider` finds the package there -/
  mirrored : Bool
  /-- what `wget` from the mirror leaves -/
  mirror : Option Content
  /-- whether each upstream `wget` succeeds, and what it leaves -/
  upstream : List (Bool × Option Content)

section

variable {Content : Type} (md5sum : Content → Text)

/-- `md5sum <file> | cut -d ' ' -f 1`; nothing when there is no file. -/
def rmd5 (file : Option Content) : Text := (file.map md5sum).getD []

/-- The mirror's file, unless it has another checksum than the given one. -/
def fetchMirror (md5 : Text) (downloads : Downloads Content) : Option Content :=
  if downloads.mirrored then
    if md5 ≠ [] ∧ md5 ≠ rmd5 md5sum downloads.mirror then none else downloads.mirror
  else none

/-- The first upstream download that succeeds; what a failed one leaves is removed. -/
def fetchUpstream : List (Bool × Option Content) → Option Content
  | [] => none
  | (success, file) :: rest => if success then file else fetchUpstream rest

/-- The directory after the checks that decide `download_req`, and after the mirror. -/
def prepare (md5 : Text) (downloads : Downloads Content) (dir : DownDir Content) : DownDir Content :=
  if dir.package.isSome ∧ md5 ≠ [] ∧ md5 = rmd5 md5sum dir.package then dir
  else ⟨fetchMirror md5sum md5 downloads, none⟩

/-- `case $method in zip|tar)`, once the package file is there or every download failed. -/
def accept (md5 : Text) (package : Option Content) (checksrc : Option Text) : DownDir Content × Bool :=
  match package with
  | none => (⟨none, checksrc⟩, false)
  | some file =>
    if md5 ≠ [] ∧ md5 ≠ md5sum file then (⟨none, checksrc⟩, false)
    else (⟨some file, some (md5sum file)⟩, true)

def doFetch (md5 : Text) (downloads : Downloads Content) (dir : DownDir Content) : DownDir Content × Bool :=
  if dir.package.isNone ∨ dir.checksrc.isNone then
    let dir := prepare md5sum md5 downloads dir
    accept md5sum md5 (dir.package.or (fetchUpstream downloads.upstream)) dir.checksrc
  else (dir, true)

end

end CBuild.Model.FetchPackage
