import CBuild.Model.GenBuildChain.Menus
import Mathlib.Logic.Function.Basic

/-! # The statements of the placement

`Deps.__add_item_to_list` with the lists that it appends to. Python knows an item by its identity, which is a number
here; the end of `refs` is the head of the list.
-/

namespace CBuild.Model.GenBuildChain

open Text

/-- `self.ItemList`, the `member` lists and `refs`. -/
structure Lists where
  itemList : List ℕ := []
  member : ℕ → List ℕ := fun _ => []
  refs : List (List ℕ) := []

namespace Lists

/-- `ref['member'].append(item)`, or `self.ItemList.append(item)`. -/
def append (st : Lists) (item : ℕ) : Option ℕ → Lists
  | none => { st with itemList := st.itemList ++ [item] }
  | some ref => { st with member := Function.update st.member ref (st.member ref ++ [item]) }

def pop (st : Lists) : Lists := { st with refs := st.refs.tail }

/-- How a turn of the loop ends. -/
inductive Turn where
  | again (st : Lists)
  /-- The loop is left with `item_list`. -/
  | leave (st : Lists) (itemList : Option ℕ)
  | returned (st : Lists)

variable (node : ℕ → Node) (item : ℕ)

def owner (level : List ℕ) : Option ℕ := level.find? fun ref => within (node item).spath (node ref).spath

/-- What follows the branch for menus; `none` is an IndexError. -/
def placeBelow (st : Lists) : Option Turn :=
  match st.refs with
  | [] => none
  | [_] => some (.returned (st.append item none))
  | _ :: second :: _ =>
    match owner node item second with
    | some ref => some (.returned (st.append item (some ref)))
    | none => some (.again st.pop)

def turn (st : Lists) : Option Turn :=
  match st.refs with
  | [] => some (.leave st none)
  | top :: rest =>
    match owner node item top with
    | some ref => some (.leave st (some ref))
    | none => do
      let last ← top.getLast?
      if within (node item).path (node last).path then
        if (node item).vtype.isMenu then
          if (node item).path = (node last).path then placeBelow node item { st with refs := (top ++ [item]) :: rest }
          else
            match owner node item top with
            | some ref => some (.leave (st.append item (some ref)) none)
            | none => some (.again st.pop)
        else placeBelow node item st
      else some (.again st.pop)

def leave (st : Lists) (itemList : Option ℕ) : Lists :=
  let st := st.append item itemList
  if (node item).vtype.isMenu then { st with refs := [item] :: st.refs } else st

/-- So many turns; `none` is an error, or that they are not enough. -/
def addItemToList : ℕ → Lists → Option Lists
  | 0, _ => none
  | turns + 1, st =>
    match turn node item st with
    | none => none
    | some (.again st) => addItemToList turns st
    | some (.leave st itemList) => some (leave node item st itemList)
    | some (.returned st) => some st

end Lists

end CBuild.Model.GenBuildChain
