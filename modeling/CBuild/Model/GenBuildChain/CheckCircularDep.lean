import CBuild.Model.GenBuildChain.CheckItem

/-! # The check for circular dependences

`Deps.check_circular_dep` moves the packages whose counter is zero to the new ActualList and counts them
off in those that wait. The packages of FinallyList carry one count more, which is taken off once
nothing else is left.
-/

namespace CBuild.Model.GenBuildChain

open Text

/-- `if target in deps: acount -= 1`. -/
def Item.meet (deps : List Text) (target : Text) (item : Item) : Item :=
  if target ∈ deps then { item with acount := item.acount - 1 } else item

/-- What a package that is moved counts off in one that waits. -/
def Item.countOff (itema itemb : Item) : Item :=
  (((itemb.meet itemb.asdeps itema.target).meet itemb.awdeps itema.target).meet
    (itemb.ideps.map idepName) itema.target)

/-- The loop of `check_circular_dep`, with the new ActualList; `none` when the fuel runs out. -/
def checkCircularLoop (finallyList : List Text) : ℕ → Bool → List Item → List Item → Option (ℤ × List Item)
  | 0, _, _, _ => none
  | fuel + 1, finallyFlag, temp, actualList =>
    let lista := temp.filter (·.acount = 0)
    let listb := temp.filter (·.acount ≠ 0)
    if temp.isEmpty then some (0, actualList)
    else if ¬ lista.isEmpty then
      checkCircularLoop finallyList fuel finallyFlag
        (lista.foldl (fun listb itema => listb.map itema.countOff) listb) (actualList ++ lista)
    else if finallyFlag then
      checkCircularLoop finallyList fuel false (listb.map fun itemb => itemb.meet finallyList itemb.target) actualList
    else some (-1, actualList)

/-- `check_circular_dep`. Each turn of the loop moves a package, but for the turn that ends the wait
of the packages of FinallyList. -/
def checkCircularDep (finallyList : List Text) (actualList : List Item) : Option (ℤ × List Item) :=
  checkCircularLoop finallyList (actualList.length + 2) true actualList []

end CBuild.Model.GenBuildChain
