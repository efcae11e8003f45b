import CBuild.Machine.Make
import CBuild.Model.GenBuildChain.MakeDeps

/-! # The rules of the Makefile

What make reads of the rules that `Deps.gen_make` writes for building packages: `<package>`,
`<package>_psysroot`, `<package>_install`, `<package>_isysroot`, their `_single` forms, and
`finaldeps`. The conditionals are resolved by `.config`, and `$(<package>-deps)` is `makeDeps`. Of
a command, only its package and what it does are kept.
-/

namespace CBuild.Model.GenBuildChain

open Machine.Make

structure SysrootSettings where
  disIsysroot : Bool := true
  disGsysroot : Bool := false

/-- What the name of a target has after the name of its package. -/
inductive Suffix
  | plain | single | psysroot | psysrootSingle | install | installSingle | isysroot
deriving DecidableEq

def Suffix.text : Suffix → Text
  | .plain => []
  | .single => "_single".toList
  | .psysroot => "_psysroot".toList
  | .psysrootSingle => "_psysroot_single".toList
  | .install => "_install".toList
  | .installSingle => "_install_single".toList
  | .isysroot => "_isysroot".toList

def makeTarget (package : Text) (suffix : Suffix) : Text := package ++ suffix.text

theorem Suffix.text_injective : Function.Injective Suffix.text := by
  intro first second same
  cases first <;> cases second <;> first | rfl | exact absurd same (by decide)

@[simp] theorem makeTarget_inj {package : Text} {first second : Suffix} :
    makeTarget package first = makeTarget package second ↔ first = second :=
  ⟨fun same => Suffix.text_injective (List.append_cancel_left same), fun same => same ▸ rfl⟩

@[simp] theorem makeTarget_plain (package : Text) : makeTarget package .plain = package :=
  List.append_nil package

/-- What a command of a recipe does. -/
inductive Command
  /-- `begin=$@` is sent to the progress bar -/
  | beginNote
  | checksum
  /-- `make psysroot` of a package whose cache matched -/
  | psysrootMatched
  | prepare
  | compile
  | imageDir
  /-- installs into the image directory -/
  | image
  | endNote
  | sysrootDir
  /-- installs into the global system root -/
  | gsysInstall
  /-- installs into the system root of the calling package -/
  | isysInstall
  /-- `@` -/
  | nothing
deriving DecidableEq

structure Action where
  package : Text
  command : Command
deriving DecidableEq

abbrev MakeLine := Line Text Action
abbrev MakeRule := Rule Text Action

/-- `pkg_flags`, and whether `prepare` is among the targets. -/
structure PkgFlags where
  final : Bool
  unified : Bool
  empty : Bool
  psysroot : Bool
  isysroot : Bool
  cache : Bool
  deps : Bool
  prepare : Bool
deriving DecidableEq

def hasDeps (item : Item) : Bool := item.asdeps ≠ [] || item.awdeps ≠ [] || item.ideps ≠ []

/-- `item['targets']`, as the settings of the system roots change it. -/
def sysrootTargets (settings : SysrootSettings) (item : Item) : List Text :=
  let psysroot := "psysroot".toList
  let targets :=
    if hasDeps item then
      if psysroot ∉ item.targets ∧ settings.disGsysroot then item.targets ++ [psysroot] else item.targets
    else item.targets.erase psysroot
  if settings.disIsysroot then targets.erase "isysroot".toList else targets

def pkgFlags (settings : SysrootSettings) (finallyList : List Text) (item : Item) : PkgFlags :=
  let targets := sysrootTargets settings item
  { final := finallyList.contains item.target
    unified := targets.contains "unified".toList
    empty := targets.contains "empty".toList
    psysroot := targets.contains "psysroot".toList
    isysroot := targets.contains "isysroot".toList
    cache := targets.contains "cache".toList
    deps := hasDeps item
    prepare := targets.contains "prepare".toList }

section Package

variable (package : Text) (flags : PkgFlags)

/-- A command of the package. -/
def command (command : Command) : MakeLine := .run ⟨package, command⟩

def cacheStr : List MakeLine := if flags.cache then [command package .checksum] else []

/-- Preparing the private system root: the package's own makefile does it when the package is unified
with a cache, and leaves it out when the cache matched. -/
def psysrootLine (matched : Bool) : MakeLine :=
  if flags.unified && flags.cache && matched then command package .psysrootMatched
  else .make (makeTarget package .psysroot)

def compileStr : List MakeLine :=
  [command package .beginNote] ++ (if flags.prepare then [command package .prepare] else []) ++
    [command package .compile] ++
    (if flags.isysroot then [command package .imageDir, command package .image] else []) ++
    [command package .endNote]

def psysrootRules (matched : Bool) (deps : List Text) : List MakeRule :=
  (if flags.deps then
    [{ targets := [makeTarget package .psysroot], prereqs := deps.map (makeTarget · .isysroot) }]
  else [{ targets := [makeTarget package .psysroot], recipe := some [command package .nothing] }]) ++
  if !flags.empty && flags.deps && flags.psysroot then
    [{ targets := [makeTarget package .psysrootSingle]
       recipe := some (cacheStr package flags ++ [psysrootLine package flags matched]) }]
  else []

def finaldeps : Text := "finaldeps".toList

def allRules (matched : Bool) (deps : List Text) : List MakeRule :=
  if flags.empty then
    [{ targets := [makeTarget package .plain], prereqs := if flags.deps then deps else []
       recipe := some [command package .beginNote, command package .endNote] }]
  else
    let build := cacheStr package flags ++ compileStr package flags
    (if flags.final then [{ targets := [makeTarget package .plain], prereqs := [finaldeps] }] else []) ++
    if flags.deps then
      [if flags.psysroot then
        { targets := [makeTarget package .plain], prereqs := deps
          recipe := some (cacheStr package flags ++ [psysrootLine package flags matched] ++
            compileStr package flags) }
      else
        { targets := [makeTarget package .plain], prereqs := deps.map (makeTarget · .install)
          recipe := some build },
       { targets := [makeTarget package .single], recipe := some build }]
    else if flags.final then
      [{ targets := [makeTarget package .plain, makeTarget package .single], recipe := some build }]
    else [{ targets := [makeTarget package .plain], recipe := some build }]

def installRules (deps : List Text) : List MakeRule :=
  [{ targets := [makeTarget package .install]
     prereqs := makeTarget package .plain :: deps.map (makeTarget · .install) },
   { targets := [makeTarget package .install, makeTarget package .installSingle]
     recipe := some (if flags.empty then [command package .nothing]
       else [command package .sysrootDir, command package .gsysInstall]) }]

def isysrootRules : List MakeRule :=
  [{ targets := [makeTarget package .isysroot]
     prereqs := if flags.deps then [makeTarget package .psysroot] else []
     recipe := some [command package (if flags.empty then .nothing else .isysInstall)] }]

end Package

/-- The rules of a package; those of a package that is not enabled are not read. -/
def packageRules (settings : SysrootSettings) (config : Config) (matched : Text → Bool)
    (finallyList : List Text) (item : Item) : Option (List MakeRule) := do
  let deps ← makeDeps config item
  let flags := pkgFlags settings finallyList item
  some (if config.EnabledName item.target then
    psysrootRules item.target flags (matched item.target) deps ++
    allRules item.target flags (matched item.target) deps ++
    installRules item.target flags deps ++ isysrootRules item.target flags
  else [])

/-- `finaldeps` waits for the packages that are neither native nor finally packages. -/
def finalRules (config : Config) (finallyList targetList : List Text) : List MakeRule :=
  if finallyList = [] then []
  else (targetList.filter fun dep =>
      dep ∉ finallyList ∧ isNative dep = false ∧ config.EnabledName dep).map fun dep =>
    { targets := [finaldeps], prereqs := [dep] }

theorem finalRules_cases {config : Config} {finallyList targetList : List Text} {rule : MakeRule}
    (inside : rule ∈ finalRules config finallyList targetList) : finallyList ≠ [] ∧ ∃ dep ∈ targetList,
      rule = { targets := [finaldeps], prereqs := [dep] } ∧
      dep ∉ finallyList ∧ isNative dep = false ∧ config.EnabledName dep := by
  unfold finalRules at inside
  split at inside
  · exact absurd inside List.not_mem_nil
  · next some =>
    obtain ⟨dep, listed, rfl⟩ := List.mem_map.mp inside
    obtain ⟨listed, chosen⟩ := List.mem_filter.mp listed
    exact ⟨some, dep, listed, rfl, of_decide_eq_true chosen⟩

def allPackageRules (settings : SysrootSettings) (config : Config) (matched : Text → Bool)
    (finallyList : List Text) (actualList : List Item) : Option (List (List MakeRule)) :=
  actualList.mapM (packageRules settings config matched finallyList)

def genMake (settings : SysrootSettings) (config : Config) (matched : Text → Bool)
    (finallyList : List Text) (actualList : List Item) : Option (List MakeRule) := do
  let packages ← allPackageRules settings config matched finallyList actualList
  some (finalRules config finallyList (actualList.map (·.target)) ++ packages.flatten)

end CBuild.Model.GenBuildChain
