import CBuild.Model.GenBuildChain.MakeDeps
import CBuild.Model.GenBuildChain.Search
import CBuild.Text.Path

/-! # Native copies of packages

`Deps.__get_native_deps` copies the item of a package that is built for the host, too. Its names get
the suffix of native packages; `none` is the index error of a malformed target, or a condition that
does not split in two.
-/

namespace CBuild.Model.GenBuildChain

open Text

/-- The identifiers of a text, each replaced; `token` has been read before. -/
def subIdentsFrom (f : Text → Text) : Text → Text → Text
  | token, [] => if token = [] then [] else f token
  | token, c :: rest =>
    if token = [] then
      if c.isAlpha || c = '_' then subIdentsFrom f [c] rest else c :: subIdentsFrom f [] rest
    else if c.isAlphanum || c = '_' then subIdentsFrom f (token ++ [c]) rest
    else f token ++ c :: subIdentsFrom f [] rest

/-- `self.RegexDict['CFGTOKEN'].sub`. -/
def subIdents (f : Text → Text) (expr : Text) : Text := subIdentsFrom f [] expr

def ensureNativeSuffix (expr : Text) : Text :=
  subIdents (fun name => if "_NATIVE".toList <:+ name then name else name ++ "_NATIVE".toList) expr

section

variable (uniPackages : List Text) (target : Text)

def nativeTarget (given : Text) : Option (List Text) :=
  if ':' ∈ given then
    match splitOn "::".toList given with
    | first :: second :: _ =>
      let deps := switchNative uniPackages target (splitOn [':'] second)
      if deps ≠ [] then some [first ++ "::".toList]
      else some [first ++ "::".toList ++ [':'].intercalate deps]
    | _ => none
  else some (if given ≠ "release".toList then [given] else [])

def nativeTargets (item : Item) : Option (List Text) :=
  if item.vtype ≠ .package then some (switchNative uniPackages target item.targets)
  else (item.targets.mapM (nativeTarget uniPackages target)).map List.flatten

/-- The conditional dependences; `seen` are the names so far. -/
def nativeIdeps (conf : Text) (seen : List Text) : List Text → Option (List Text)
  | [] => some []
  | idep :: ideps => do
    let (dep, cond) ← splitIdep idep
    let splitStr := if "@@".toList <:+: idep then "@@".toList else ['@']
    let dep := toNative uniPackages dep
    if dep ≠ target ∧ dep ∉ seen then do
      let rest ← nativeIdeps conf (seen ++ [dep]) ideps
      let cond := if conf = "kconfig".toList then cond else cond ++ "_NATIVE".toList
      some ((dep ++ splitStr ++ cond) :: rest)
    else nativeIdeps conf seen ideps

def nativeFeature (feature : Feature) : Feature where
  config := feature.config ++ "_NATIVE".toList
  default := feature.default
  depends := switchNative uniPackages target feature.depends
  extracfg := if feature.extracfg ≠ [] then ensureNativeSuffix feature.extracfg else []

end

/-- The native package shares the Kconfig file of the package. -/
def shareNative (target native : Text) : List (Text × List Text) → List (Text × List Text)
  | [] => []
  | (path, shared) :: rest =>
    if target ∈ shared then (path, shared ++ [native]) :: rest else (path, shared) :: shareNative target native rest

/-- The Kconfig file of the native package beside that of the package, when there is one. -/
def nativeConf (pathExists : Text → Bool) (target native conf : Text) : Text :=
  let baseconf := (splitPath conf).2
  if target <:+: baseconf then
    let nativeconf := joinPath (dirname conf) (replace target native baseconf)
    if pathExists nativeconf then nativeconf else []
  else []

def Item.getNativeDeps (pathExists : Text → Bool) (uniPackages : List Text) (reg : Registry) (item : Item) :
    Option (Registry × Item) := do
  let target := item.target ++ nativePart
  let switch := switchNative uniPackages target
  let targets ← nativeTargets uniPackages target item
  let ideps ← nativeIdeps uniPackages target item.conf [] item.ideps
  let shared := item.conf = "kconfig".toList
  some (if shared then { reg with kconfigDict := shareNative item.target target reg.kconfigDict } else reg,
    { item with
      target, targets, ideps
      asdeps := switch item.asdeps
      vsdeps := switch item.vsdeps
      awdeps := switch item.awdeps
      vwdeps := switch item.vwdeps
      cdeps := switch item.cdeps
      select := switch item.select
      imply := switch item.imply
      features := item.features.map (nativeFeature uniPackages target)
      wrule := (item.wrule.map switch).filter (· ≠ [])
      conf :=
        if item.conf = [] ∨ shared then item.conf else nativeConf pathExists item.target target item.conf
      edeps := []
      acount := 0
      default := false })

end CBuild.Model.GenBuildChain
