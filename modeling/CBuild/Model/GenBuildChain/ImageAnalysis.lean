import CBuild.Model.GenBuildChain.Item
import CBuild.Model.GenPackageInfos.Deptree

/-! # The recipes of the image

`Deps.gen_yocto_target`, and `do_image_analysis`, which reads the recipes back from that file and the
selection from `.config`. Of the two files it writes, the recipes are kept.
-/

namespace CBuild.Model.GenBuildChain

open Text GenPackageInfos

/-- `gen_yocto_target`: a line for each poky recipe, and one for each item. -/
def genYoctoTarget (pokyNames : List Text) (actualList : List Item) : List Text :=
  pokyNames.map (fun name => name ++ "=\"\" # localsrc".toList) ++
    actualList.map fun item =>
      item.target ++ '=' :: '"' :: [' '].intercalate (item.asdeps ++ item.awdeps) ++ "\" # ".toList ++ item.src

/-- `per_line.split('=')[0].strip()`. -/
def readRecipe (line : Text) : Text := strip ((splitOn ['='] line).headD [])

/-- `config_list`: what `.config` enables among the recipes. -/
def configList (targetLines configLines : List Text) : List Text :=
  (readConfigs configLines).filter (· ∈ targetLines.map readRecipe)

def imageInstall (ignoreRecipes targetLines configLines : List Text) : List Text :=
  (configList targetLines configLines).filter (· ∉ ignoreRecipes)

/-- `'-patch-' in item or '-unpatch-' in item`. -/
def isPatchRecipe (name : Text) : Bool := decide (patchPart <:+: name) || decide (unpatchPart <:+: name)

def patchDepends (targetLines configLines : List Text) : List Text :=
  (configList targetLines configLines).filter (isPatchRecipe ·)

end CBuild.Model.GenBuildChain
