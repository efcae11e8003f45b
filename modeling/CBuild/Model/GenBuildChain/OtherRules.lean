import CBuild.Model.GenBuildChain.GenMake

/-! # The other rules of the Makefile

The rules that `Deps.gen_make` writes besides those for building: releasing, cleaning, caching,
fetching, the targets that a package lists itself, and what stands for a package that is not
enabled. `none` is the index error of a target with a colon and without a double colon.
-/

namespace CBuild.Model.GenBuildChain

open Text Machine.Make

/-- What a command of these recipes does. -/
inductive OtherCommand
  /-- `@` -/
  | nothing
  /-- a goal of the package's own makefile -/
  | own (goal : Text)
  /-- the goal `$(patsubst <package>_%,%,$@)` of the package's own makefile -/
  | stem
  /-- the same without `_single` -/
  | stemSingle
  /-- the name of the package is shown -/
  | note
  /-- the image is installed with the option `release` -/
  | imageRelease
  /-- the package is not enabled -/
  | notEnabled
deriving DecidableEq

structure OtherAction where
  package : Text
  command : OtherCommand
deriving DecidableEq

abbrev OtherLine := Line Text OtherAction
abbrev OtherRule := Rule Text OtherAction

def ignoreTargets : List Text :=
  ["unified", "direct", "empty", "prepare", "all", "clean", "distclean", "install", "release", "norelease", "psysroot",
    "isysroot", "noisysroot", "finally", "union", "native", "cache", "url", "singletask", "jobserver"].map
    String.toList

def realTargets (item : Item) : List Text := item.targets.filter (· ∉ ignoreTargets)

/-- The dependences of a group of targets: those of the package, or their own. -/
inductive GroupDeps
  | package
  | own (deps : List Text)
deriving DecidableEq

/-- One target with colons: its names and its own dependences. -/
def splitGroup (target : Text) : Option (List Text × GroupDeps) :=
  match splitOn "::".toList target with
  | first :: second :: _ => some (splitOn [':'] first, .own (if second ≠ [] then splitOn [':'] second else []))
  | _ => none

def otherTargets (item : Item) : Option (List (List Text × GroupDeps)) := do
  let plain := (realTargets item).filter (':' ∉ ·)
  let groups ← ((realTargets item).filter (':' ∈ ·)).mapM splitGroup
  some ((if plain ≠ [] then [(plain, .package)] else []) ++ groups)

def subTarget (package name : Text) : Text := package ++ '_' :: name

/-- `sub_targets`: the names together, and each pattern for itself. -/
def subTargets (package : Text) (names : List Text) : List (List Text) :=
  let plain := names.filter ('%' ∉ ·)
  (if plain ≠ [] then [plain.map (subTarget package)] else []) ++
    (names.filter ('%' ∈ ·)).map fun name => [subTarget package name]

def subPsysroot (package : Text) (deps : List Text) : Text :=
  package ++ "-sub-".toList ++ ['-'].intercalate deps ++ "_psysroot".toList

section Package

variable (package : Text) (flags : PkgFlags)

def otherCommand (command : OtherCommand) : OtherLine := .run ⟨package, command⟩

/-- `unionstr` before a goal. -/
def unionGoal (union : Bool) (goal : String) : Text :=
  (if union then package ++ ['-'] else []) ++ goal.toList

/-- Whether the text of the dependences is not empty; blanks do not count for make. -/
def depstr (deps : List Text) : Bool := deps ≠ [] && deps ≠ [[]]

/-- The rules of a list of targets with these dependences. -/
def subRules (union matched : Bool) (packageDeps : List Text) (targets : List Text) : GroupDeps → List OtherRule
  | .package =>
    if flags.deps then
      [{ targets
         prereqs := if flags.psysroot then packageDeps else packageDeps.map (makeTarget · .install)
         recipe := some ((if flags.psysroot then
           [if flags.unified && flags.cache && matched then otherCommand package (.own (unionGoal package union "psysroot"))
            else .make (makeTarget package .psysroot)] else []) ++ [otherCommand package .stem]) },
       { targets := targets.map (· ++ "_single".toList), recipe := some [otherCommand package .stemSingle] }]
    else [{ targets, recipe := some [otherCommand package .stem] }]
  | .own deps =>
    (if flags.psysroot && deps ≠ [] then
      [{ targets := [subPsysroot package deps]
         prereqs := (deps.filter (· ≠ [])).map (makeTarget · .isysroot) }] else []) ++
    if (if flags.psysroot then depstr deps else deps ≠ []) then
      [{ targets
         prereqs := if flags.psysroot then deps.filter (· ≠ []) else deps.map (makeTarget · .install)
         recipe := some ((if flags.psysroot then [.make (subPsysroot package deps)] else []) ++
           [otherCommand package .stem]) },
       { targets := targets.map (· ++ "_single".toList), recipe := some [otherCommand package .stemSingle] }]
    else [{ targets, recipe := some [otherCommand package .stem] }]

def groupRules (union matched : Bool) (packageDeps : List Text) (groups : List (List Text × GroupDeps)) :
    List OtherRule :=
  groups.flatMap fun group =>
    (subTargets package group.1).flatMap fun targets => subRules package flags union matched packageDeps targets group.2

end Package

end CBuild.Model.GenBuildChain
