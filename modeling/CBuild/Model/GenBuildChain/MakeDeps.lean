import CBuild.Model.GenBuildChain.CheckItem

/-! # The dependency variables of the Makefile

What the conditionals that `Deps.gen_make` writes put into `<package>-deps` and `<package>-reldeps`
when make reads them with `.config`. `none` is the error of a condition that does not split in two.
-/

namespace CBuild.Model.GenBuildChain

open Text

/-- The condition around one weak or conditional dependence, and the name it adds. -/
def weakCondition (config : Config) (dep : Text) : Option (List Text) :=
  if '@' ∈ dep then do
    let (dep, cond) ← splitIdep dep
    some (if config.EnabledName dep ∧ config.Enabled cond then [dep] else [])
  else some (if config.EnabledName dep then [dep] else [])

/-- The value of `<package>-deps`; undefined, so empty, for a package that is not enabled. -/
def makeDeps (config : Config) (item : Item) : Option (List Text) := do
  let weak ← (item.awdeps ++ item.ideps).mapM (weakCondition config)
  some (if config.EnabledName item.target then weak.flatten ++ item.asdeps else [])

/-- `'-native'` at the end of the name. -/
def isNative (name : Text) : Bool := nativePart.isSuffixOf name

/-- `pkg_flags['release']`: native packages and finally packages have no release rule. -/
def releaseFlag (finallyList : List Text) (item : Item) : Bool :=
  !(isNative item.target || finallyList.contains item.target)

def makeReldeps (config : Config) (finallyList : List Text) (item : Item) : Option (List Text) := do
  let weak ← (item.awdeps ++ item.ideps).mapM (weakCondition config)
  some (if config.EnabledName item.target ∧ releaseFlag finallyList item then
    (weak.flatten ++ item.asdeps).filter (!isNative ·) else [])

/-- The Makefile that is read with `.config` has the rule `<name>_release`. -/
def ReleaseRule (config : Config) (finallyList : List Text) (actualList : List Item) (name : Text) : Prop :=
  ∃ item ∈ actualList, item.target = name ∧ config.EnabledName name ∧ releaseFlag finallyList item = true

/-- The packages whose release rules make reaches from `<package>_release`. -/
inductive Released (config : Config) (finallyList : List Text) (actualList : List Item) (package : Text) :
    Text → Prop
  | root : ReleaseRule config finallyList actualList package →
      Released config finallyList actualList package package
  | dep {item : Item} {deps : List Text} {dep : Text} :
      Released config finallyList actualList package item.target → item ∈ actualList →
      makeReldeps config finallyList item = some deps → dep ∈ deps →
      ReleaseRule config finallyList actualList dep →
      Released config finallyList actualList package dep

end CBuild.Model.GenBuildChain
