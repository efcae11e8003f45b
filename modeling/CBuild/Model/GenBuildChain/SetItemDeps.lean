import CBuild.Model.GenBuildChain.Item

/-! # Parsing dependency tokens

`Deps.__set_item_deps`: the tokens of a statement fill the dependency fields of its item, one
after the other. A token that makes the script index an empty string raises an error, here `none`.
-/

namespace CBuild.Model.GenBuildChain

open Text

/-- The fields of `Deps` that parsing tokens updates: which targets share a Kconfig file, and the
packages with a configured version. -/
structure Registry where
  kconfigDict : List (Text × List Text) := []
  verCfgSet : List Text := []

/-- `self.KconfigDict[conf].append(target)`, for a possibly new key. -/
def Registry.share (reg : Registry) (conf target : Text) : Registry :=
  if reg.kconfigDict.any (·.1 = conf) then
    { reg with kconfigDict := reg.kconfigDict.map fun (key, shared) =>
        if key = conf then (key, shared ++ [target]) else (key, shared) }
  else { reg with kconfigDict := reg.kconfigDict ++ [(conf, [target])] }

/-- The leading `&` and `?` of a token, in any order: their numbers and what follows them. -/
def markers (dep : Text) : ℕ × ℕ × Text :=
  let head := dep.takeWhile fun c => c = '&' || c = '?'
  (head.count '&', head.count '?', dep.drop head.length)

/-- `'||' if '||' in dep else '|'`. -/
def splitStr (dep : Text) : Text := if ['|', '|'] <:+: dep then ['|', '|'] else ['|']

/-- The alternatives of a selected or-token, and the token. An omitted first alternative is
written out as `*build-x`, `prebuild-x` and, at the end, `x`. -/
def expandSelect (dep : Text) : List Text × Text :=
  let subdeps := splitOn (splitStr dep) dep
  match subdeps with
  | [] :: subdep :: rest =>
    let subdeps := ("*build-".toList ++ subdep) :: ("prebuild-".toList ++ subdep) :: rest ++ [subdep]
    (subdeps, (splitStr dep).intercalate subdeps)
  | _ => (subdeps, dep)

/-- The alternatives of a weak or-token, with `prebuild-x` for an omitted first one. -/
def expandWeak (dep : Text) : List Text :=
  match splitOn (splitStr dep) dep with
  | [] :: subdep :: rest => ("prebuild-".toList ++ subdep) :: subdep :: rest
  | subdeps => subdeps

def Item.addStrong (item : Item) (isVirtual : Bool) (dep : Text) : Item :=
  if isVirtual then { item with vsdeps := item.vsdeps ++ [dep] }
  else { item with asdeps := item.asdeps ++ [dep] }

def Item.addWeak (item : Item) (isVirtual : Bool) (deps : List Text) : Item :=
  if isVirtual then { item with vwdeps := item.vwdeps ++ deps }
  else { item with awdeps := item.awdeps ++ deps }

/-- The alternatives of a selected or-token. The source appends the whole token, not the
alternative: `dep[1:]` to the virtual and `dep` to the actual weak dependences. -/
def Item.addAlternatives (item : Item) (dep : Text) : List Text → Option Item
  | [] => some item
  | [] :: _ => none
  | (c :: _) :: rest =>
    if c = '*' then Item.addAlternatives { item with vwdeps := item.vwdeps ++ [dep.drop 1] } dep rest
    else Item.addAlternatives { item with awdeps := item.awdeps ++ [dep] } dep rest

def Item.addMarked (item : Item) (isVirtual : Bool) (token : Text) : Option Item := do
  let (ampNum, queNum, dep) := markers token
  let (item, dep) ←
    if ampNum = 2 || ampNum = 1 then do
      let (item, dep) ←
        if '|' ∈ dep then do
          let (subdeps, dep) := expandSelect dep
          let item ← item.addAlternatives dep subdeps
          some (item, dep)
        else some (item, dep)
      some (if ampNum = 2 then { item with select := item.select ++ [dep] }
        else { item with imply := item.imply ++ [dep] }, dep)
    else some (item, dep)
  some (if queNum ≠ 0 then item.addWeak isVirtual [dep] else item)

/-- One iteration of the loop of `__set_item_deps`. -/
def setItemDep (reg : Registry) (item : Item) (token : Text) : Option (Registry × Item) :=
  let isVirtual := token.head? = some '*'
  let dep := if isVirtual then token.drop 1 else token
  if dep = "kconfig".toList then
    some (reg.share item.conf item.target, { item with conf := "kconfig".toList })
  else if dep = "nokconfig".toList then some (reg, { item with conf := [] })
  else if dep = "versioncfg".toList then
    let package := replace "prebuild-".toList [] (replace "-native".toList [] item.target)
    some ({ reg with verCfgSet := reg.verCfgSet.insert package }, { item with versioncfg := true })
  else if dep = "featurecfg".toList then some (reg, { item with featurecfg := true })
  else if dep = "unselect".toList then some (reg, { item with default := false })
  else if dep = "selected".toList then some (reg, { item with default := true })
  else match dep with
    | [] => none
    | c :: rest =>
      if c = '!' then some (reg, { item with cdeps := item.cdeps ++ [rest] })
      else if '@' ∈ dep then some (reg, { item with ideps := item.ideps ++ [dep] })
      else if c = '&' || c = '?' then (item.addMarked isVirtual dep).map fun item => (reg, item)
      else if '=' ∈ dep then some (reg, { item with edeps := item.edeps ++ [dep] })
      else if '|' ∈ dep then
        let subdeps := expandWeak dep
        let item := item.addWeak isVirtual subdeps
        some (reg, { item with wrule := item.wrule ++ [subdeps] })
      else some (reg, item.addStrong isVirtual dep)

/-- `__set_item_deps`, up to the membership test it ends with. -/
def setItemDeps (reg : Registry) (item : Item) : List Text → Option (Registry × Item)
  | [] => some (reg, item)
  | dep :: deps => do
    let (reg, item) ← setItemDep reg item dep
    setItemDeps reg item deps

end CBuild.Model.GenBuildChain
