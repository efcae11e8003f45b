import CBuild.Model.GenBuildChain.Item

/-! # Writing the `depends on` line

The part of `Deps.__write_one_kconfig` that turns the dependencies of an item into conjuncts, and
the expression they are joined to. `none` is an index error, for an environment dependency without
a comparison sign.
-/

namespace CBuild.Model.GenBuildChain

open Text

def prependedSymbol (prependFlag : Bool) (name : Text) : Text :=
  (if prependFlag then "CONFIG_".toList else []) ++ escapeToupper name

/-- The name whose symbol a missing source path depends on. -/
def srcPathExisted : Text := "src-path-existed".toList

def orJoin (texts : List Text) : Text := " || ".toList.intercalate texts

def bracketed (text : Text) : Text := '(' :: (text ++ [')'])

def ruleConjunct (prependFlag bracketFlag : Bool) (rule : List Text) : Text :=
  match rule with
  | [dep] => prependedSymbol prependFlag dep
  | _ =>
    let alternatives := orJoin (rule.map (prependedSymbol prependFlag))
    if bracketFlag then bracketed alternatives else alternatives

/-- `'"$(%s)"="%s"' % (env_name, t)`, or with `!=`. -/
def envComparison (sign name value : Text) : Text :=
  ['"', '$', '('] ++ (name ++ ([')', '"'] ++ (sign ++ ('"' :: (value ++ ['"'])))))

def envConjuncts (bracketFlag : Bool) (dep : Text) : Option (List Text) :=
  if "!=".toList <:+: dep then
    match splitOn "!=".toList dep with
    | name :: vals :: _ => some ((splitOn [','] vals).map (envComparison "!=".toList name))
    | _ => none
  else
    match splitOn ['='] dep with
    | name :: vals :: _ =>
      let alternatives := orJoin ((splitOn [','] vals).map (envComparison ['='] name))
      some [if bracketFlag then bracketed alternatives else alternatives]
    | _ => none

/-- The list `deps` that the line is joined from. `pathExists` is `os.path.exists`. -/
def dependsConjuncts (prependFlag : Bool) (pathExists : Text → Bool) (item : Item) :
    Option (List Text) := do
  let deps := item.asdeps.map (prependedSymbol prependFlag) ++
    item.vsdeps.map (prependedSymbol prependFlag) ++
    item.cdeps.map (fun dep => '!' :: prependedSymbol prependFlag dep)
  let bracketFlag := !deps.isEmpty || item.wrule.length > 1 || !item.edeps.isEmpty
  let deps := deps ++ item.wrule.map (ruleConjunct prependFlag bracketFlag)
  let bracketFlag := !deps.isEmpty || item.edeps.length > 1
  let envs ← item.edeps.mapM (envConjuncts bracketFlag)
  let deps := deps ++ envs.flatten
  some (if item.src ≠ [] ∧ pathExists item.src = false then
    deps ++ [prependedSymbol prependFlag srcPathExisted] else deps)

/-- The expression after `depends on`; no line is written when there are no conjuncts. -/
def dependsExpr (deps : List Text) : Option Text :=
  if deps = [] then none else some (" && ".toList.intercalate deps)

end CBuild.Model.GenBuildChain
