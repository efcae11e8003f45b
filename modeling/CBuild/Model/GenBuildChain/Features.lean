import CBuild.Model.GenBuildChain.MakeDeps
import CBuild.Model.GenBuildChain.NativeDeps

/-! # Feature options

The statements `$(eval $(call ft-config,CONFIG_F,enable,disable,depends,extracfg))` of a `mk.deps` file, as
`inc.env.mk`, `Deps.add_normal_item` and `Deps.__write_one_kconfig` read them.
-/

namespace CBuild.Model.GenBuildChain

open Text

/-- The fields of a statement, as the regular expression matches them. There is no blank beside the name: with one
the expression still matches, while make reads a symbol that is never set. -/
structure FtConfig where
  /-- what follows `CONFIG_` -/
  config : Text
  enable : Text := []
  disable : Text := []
  depends : Text := []
  extracfg : Text := []
  plain : '@' ∉ config

namespace FtConfig

/-- The symbol that `ft-config` reads, with or without `NATIVE_BUILD`. -/
def symbol (native : Bool) (st : FtConfig) : Text :=
  "CONFIG_".toList ++ st.config ++ if native then "_NATIVE".toList else []

def value (config : Config) (native : Bool) (st : FtConfig) : Text :=
  if config.Enabled (st.symbol native) then st.enable else st.disable

def names (st : FtConfig) : List Text := (words st.depends).filter (· ≠ "selected".toList)

end FtConfig

def removeConfigPrefix (expr : Text) : Text :=
  subIdents (fun name => if "CONFIG_".toList.isPrefixOf name then name.drop 7 else name) expr

/-- The branch of `add_normal_item` for the statement. -/
def Item.addFeature (prependFlag : Bool) (item : Item) (st : FtConfig) : Item :=
  { item with
    ideps := item.ideps ++ st.names.map (· ++ "@@".toList ++ st.symbol false)
    features := item.features ++ [
      { config := st.config
        default := if "selected".toList ∈ words st.depends then ['y'] else ['n']
        depends := st.names
        extracfg := if prependFlag then st.extracfg else removeConfigPrefix st.extracfg }] }

/-- The item of a package with `featurecfg`, after all statements. -/
def Item.addFeatures (prependFlag : Bool) (item : Item) (statements : List FtConfig) : Item :=
  statements.foldl (Item.addFeature prependFlag) item

/-- `__check_shared_kconfig`: the packages that share a Kconfig file with this one. -/
def sharedTargets (reg : Registry) (target : Text) : List Text :=
  ((reg.kconfigDict.find? (target ∈ ·.2)).map Prod.snd).getD []

/-- The features whose blocks `__write_one_kconfig` writes: with a shared Kconfig file, those of the last package
that shares it. -/
def writtenFeatures (reg : Registry) (item : Item) : List Feature :=
  if item.conf = "kconfig".toList then
    if (sharedTargets reg item.target).getLast? = some item.target then item.features else []
  else item.features

/-- The symbols of `.config` that the blocks define, whatever `config_prepend` is. -/
def featureSymbols (reg : Registry) (item : Item) : List Text :=
  (writtenFeatures reg item).map fun feature => "CONFIG_".toList ++ feature.config

end CBuild.Model.GenBuildChain
