import CBuild.Model.GenBuildChain.Item
import CBuild.Text.Path

/-! # Placing items in the forest

`Deps.__add_item_to_list`. `refs` is a stack of lists of menus that are still open; an item joins
the member list of the first open menu whose virtual path it lies within, and lists are popped by
real paths. The top of the stack, `refs[-1]`, is the head of the list here.
-/

namespace CBuild.Model.GenBuildChain

open Text

/-- What the placement of an item reads of it. Only a choice has targets here: what `targets` holds
for a package is not read. -/
structure Node where
  path : Text
  spath : Text
  vtype : VType
  target : Text
  targets : List Text := []
deriving DecidableEq

/-- A list in `refs`, which is never empty. -/
structure Level where
  menus : List Node
  nonempty : menus ≠ []
deriving DecidableEq

namespace Level

def single (item : Node) : Level := ⟨[item], by simp⟩

def push (level : Level) (item : Node) : Level := ⟨level.menus ++ [item], by simp⟩

def last (level : Level) : Node := level.menus.getLast level.nonempty

/-- The first menu of the list whose virtual path the item lies within. -/
def owner (level : Level) (item : Node) : Option Node :=
  level.menus.find? fun ref => within item.spath ref.spath

end Level

/-- The item whose member list the item joins, `none` for ItemList, and `refs` afterwards. -/
def findPlace (item : Node) : List Level → Option Node × List Level
  | [] => (none, if item.vtype.isMenu then [.single item] else [])
  | top :: rest =>
    match top.owner item with
    | some ref => (some ref, if item.vtype.isMenu then .single item :: top :: rest else top :: rest)
    | none =>
      if within item.path top.last.path then
        -- a menu below the directory repeats the search that just failed, and pops
        if item.vtype.isMenu ∧ item.path ≠ top.last.path then findPlace item rest
        else
          let top := if item.vtype.isMenu then top.push item else top
          match rest with
          | [] => (none, [top])
          | second :: lower =>
            match second.owner item with
            | some ref => (some ref, top :: second :: lower)
            | none => findPlace item (second :: lower)
      else findPlace item rest

inductive Call
  /-- `vitem['member'].append(item)` in `__get_append_flag` -/
  | choose (choice item : Node)
  /-- `self.__add_item_to_list(item, refs)` -/
  | addItemToList (item : Node)
  /-- `self.ActualList.append(item)` -/
  | actual (item : Node)
deriving DecidableEq

def actualList (calls : List Call) : List Node :=
  calls.filterMap fun
    | .actual item => some item
    | _ => none

/-- The forest so far, as the appends that made it, and `refs`. -/
structure Menus where
  placed : List (Node × Option Node) := []
  refs : List Level := []
deriving DecidableEq

def Menus.perform (st : Menus) : Call → Menus
  | .choose choice item => { st with placed := st.placed ++ [(item, some choice)] }
  | .addItemToList item =>
    let (ref, refs) := findPlace item st.refs
    ⟨st.placed ++ [(item, ref)], refs⟩
  | .actual _ => st

end CBuild.Model.GenBuildChain
