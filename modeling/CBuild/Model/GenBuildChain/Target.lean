import CBuild.Model.GenBuildChain.CheckItem

/-! # The line of an item in the Target file

`Deps.gen_normal_target`. Weak dependences are marked in a copy of the list, each at its first
unmarked occurrence: `?` for a name that may be disabled, `|` for one with a substitute, and no
mark for one that a rule or a selection enables. A prebuilt package or an unpatching package whose
partner is in the list is left out.
-/

namespace CBuild.Model.GenBuildChain

open Text

/-- The rules and selections that make a mark unnecessary. -/
def Item.rules (item : Item) : List Text := item.wrule.flatten ++ item.select

/-- `?` or, for a name in the given list, `+`, which is taken off again in the end. -/
def unlessIn (names : List Text) (dep : Text) : Text := if dep ∈ names then '+' :: dep else '?' :: dep

/-- What replaces a weak dependence in the list; `none` when it is removed. -/
def Item.mark (item : Item) (dep : Text) : Option Text :=
  if prebuildPart <:+: dep then
    if replaceOnce prebuildPart [] dep ∈ item.awdeps then none
    else some (unlessIn item.rules dep)
  else if prebuildPart ++ dep ∈ item.awdeps then some ('|' :: dep)
  else if unpatchPart <:+: dep then
    if replaceOnce unpatchPart patchPart dep ∈ item.awdeps then none
    else some (unlessIn item.rules dep)
  else if patchPart <:+: dep then
    if replaceOnce unpatchPart patchPart dep ∈ item.awdeps then some ('|' :: dep)
    else some (unlessIn item.select dep)
  else some (unlessIn item.rules dep)

/-- `__replace_list`: only the first occurrence is replaced. -/
def replaceList (ori rep : Text) : List Text → List Text
  | [] => []
  | text :: rest => if text = ori then rep :: rest else text :: replaceList ori rep rest

/-- One iteration of the loop over `item['awdeps']`, on the copy. -/
def Item.markStep (item : Item) (awdeps : List Text) (dep : Text) : List Text :=
  match item.mark dep with
  | none => awdeps.erase dep
  | some marked => replaceList dep marked awdeps

def Item.markedAwdeps (item : Item) : List Text := item.awdeps.foldl item.markStep item.awdeps

/-- The words between the quotation marks. -/
def Item.dvars (item : Item) : List Text :=
  (item.markedAwdeps.map fun dep => if dep.head? = some '+' then dep.drop 1 else dep) ++
    item.ideps.map (replace ['@', '@'] ['@']) ++ item.asdeps

def Item.targetLine (item : Item) : Text :=
  item.target ++ ("=\"".toList ++ ([' '].intercalate item.dvars ++ ("\" # ".toList ++ item.path)))

end CBuild.Model.GenBuildChain
