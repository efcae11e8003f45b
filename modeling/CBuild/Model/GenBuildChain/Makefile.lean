import CBuild.Model.GenBuildChain.OtherRules

/-! # The whole Makefile

All rules that `Deps.gen_make` writes: those for building, those for releasing, cleaning, caching and fetching, the
targets that the packages list, and the system level ones. A package that is not enabled has a rule and a pattern
rule that report it. `.PHONY` lines are left out.
-/

namespace CBuild.Model.GenBuildChain

open Text Machine.Make

abbrev AnyAction := Action ⊕ OtherAction
abbrev AnyRule := Rule Text AnyAction

def actionLine {ε δ : Type} (f : ε → δ) : Line Text ε → Line Text δ
  | .run action => .run (f action)
  | .make goal => .make goal

def ruleOf {ε δ : Type} (f : ε → δ) (rule : Rule Text ε) : Rule Text δ where
  targets := rule.targets
  prereqs := rule.prereqs
  recipe := rule.recipe.map fun lines => lines.map (actionLine f)

section Package

variable (package : Text) (targets : List Text)

def lists (name : String) : Bool := targets.contains name.toList

def goalCommand (goal : String) : OtherLine := otherCommand package (.own (unionGoal package (lists targets "union") goal))

def releaseRules (flags : PkgFlags) (release : Bool) (reldeps : List Text) : List OtherRule :=
  if release then
    [{ targets := [subTarget package "release".toList]
       prereqs := reldeps.map (subTarget · "release".toList)
       recipe := some (if lists targets "norelease" then [otherCommand package .nothing]
        else [otherCommand package .note, if flags.isysroot then otherCommand package .imageRelease
          else goalCommand package targets (if lists targets "release" then "release" else "install")]) }]
  else []

def cleanRules (flags : PkgFlags) : List OtherRule :=
  [{ targets := [subTarget package "clean".toList]
     recipe := some [if flags.empty then otherCommand package .nothing else goalCommand package targets "clean"] }] ++
  if lists targets "distclean" then
    [{ targets := [subTarget package "distclean".toList], recipe := some [goalCommand package targets "distclean"] }]
  else []

/-- The targets of one rule that passes the name on to the package's own makefile. -/
def passedRule (names : List String) : OtherRule where
  targets := names.map fun name => subTarget package name.toList
  recipe := some [otherCommand package .stem]

def cacheRules (flags : PkgFlags) : List OtherRule :=
  if flags.cache then [passedRule package ["setforce", "set1force", "unsetforce"]] else []

def urlRules : List OtherRule :=
  if lists targets "url" then [passedRule package ["dofetch", "status", "setdev", "unsetdev"]] else []

/-- What stands for a package that is not enabled. -/
def disabledRules : List OtherRule :=
  [{ targets := [package], recipe := some [otherCommand package .notEnabled] },
   { targets := [subTarget package ['%']], recipe := some [otherCommand package .notEnabled] }]

end Package

/-- The rules of a package that `packageRules` has not. -/
def otherRules (settings : SysrootSettings) (config : Config) (matched : Text → Bool) (finallyList : List Text)
    (item : Item) : Option (List OtherRule) := do
  let deps ← makeDeps config item
  let reldeps ← makeReldeps config finallyList item
  let groups ← otherTargets item
  let flags := pkgFlags settings finallyList item
  let targets := sysrootTargets settings item
  some (if config.EnabledName item.target then
    releaseRules item.target targets flags (releaseFlag finallyList item) reldeps ++
    cleanRules item.target targets flags ++ cacheRules item.target flags ++ urlRules item.target targets ++
    groupRules item.target flags (lists targets "union") (matched item.target) deps groups
  else disabledRules item.target)

def wholeRules (settings : SysrootSettings) (config : Config) (matched : Text → Bool) (finallyList : List Text)
    (item : Item) : Option (List AnyRule) := do
  let own ← packageRules settings config matched finallyList item
  let other ← otherRules settings config matched finallyList item
  some (own.map (ruleOf Sum.inl) ++ other.map (ruleOf Sum.inr))

/-- What a package adds to `ALL_TARGETS`, and so on. -/
structure SystemVars where
  allTargets : List Text := []
  allCaches : List Text := []
  allFetches : List Text := []
  allStatuses : List Text := []
  allReleases : List Text := []
  allCleans : List Text := []

def SystemVars.append (first second : SystemVars) : SystemVars where
  allTargets := first.allTargets ++ second.allTargets
  allCaches := first.allCaches ++ second.allCaches
  allFetches := first.allFetches ++ second.allFetches
  allStatuses := first.allStatuses ++ second.allStatuses
  allReleases := first.allReleases ++ second.allReleases
  allCleans := first.allCleans ++ second.allCleans

/-- The variables, from an enabled package. -/
def systemVars (settings : SysrootSettings) (config : Config) (finallyList : List Text) (item : Item) : SystemVars :=
  let flags := pkgFlags settings finallyList item
  let url := lists (sysrootTargets settings item) "url"
  let named (name : String) : Text := subTarget item.target name.toList
  if config.EnabledName item.target then
    { allTargets := [if flags.final then named "install" else item.target]
      allCaches := if flags.cache then [item.target] else []
      allFetches := if url then [named "dofetch"] else []
      allStatuses := if url then [named "status"] else []
      allReleases := if releaseFlag finallyList item then [named "release"] else []
      allCleans := [named "clean"] }
  else {}

def systemRules (vars : SystemVars) : List AnyRule :=
  [{ targets := ["all_targets".toList], prereqs := vars.allTargets },
   { targets := ["all_caches".toList], prereqs := vars.allCaches },
   { targets := ["all_fetches".toList], prereqs := vars.allFetches },
   { targets := ["all_statuses".toList], prereqs := vars.allStatuses },
   { targets := ["all_releases".toList], prereqs := vars.allReleases },
   { targets := ["all_cleans".toList], prereqs := vars.allCleans }]

def genMakefile (settings : SysrootSettings) (config : Config) (matched : Text → Bool) (finallyList : List Text)
    (actualList : List Item) : Option (List AnyRule) := do
  let packages ← actualList.mapM (wholeRules settings config matched finallyList)
  let vars := (actualList.map (systemVars settings config finallyList)).foldr SystemVars.append {}
  some ((finalRules config finallyList (actualList.map (·.target))).map (ruleOf Sum.inl) ++ packages.flatten ++
    systemRules vars)

end CBuild.Model.GenBuildChain
