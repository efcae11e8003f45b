import CBuild.Model.GenBuildChain.Names

/-! # Items of the build chain

The dictionary that `__init_item` fills, field by field. The member list of a menu or a choice is
not a field: the forest of items keeps it.
-/

namespace CBuild.Model.GenBuildChain

/-- `item['vtype']`; `package` is the empty string of an actual package. -/
inductive VType
  | package | menuconfig | config | menuchoice | choice
deriving DecidableEq, Repr

namespace VType

def isChoice : VType → Bool
  | .menuchoice | .choice => true
  | _ => false

def isMenu : VType → Bool
  | .menuconfig | .menuchoice => true
  | _ => false

end VType

structure Feature where
  config : Text
  default : Text
  depends : List Text
  extracfg : Text
deriving DecidableEq

/-- An item as `__init_item` leaves it, up to the member list. -/
structure Item where
  path : Text := []
  mpath : Text := []
  spath : Text := []
  src : Text := []
  make : Text := []
  vtype : VType := .package
  target : Text := []
  targets : List Text := []
  /-- actual strong dependences -/
  asdeps : List Text := []
  /-- virtual strong dependences -/
  vsdeps : List Text := []
  /-- actual weak dependences -/
  awdeps : List Text := []
  /-- virtual weak dependences -/
  vwdeps : List Text := []
  /-- condition weak dependences -/
  ideps : List Text := []
  /-- weak dependence rules -/
  wrule : List (List Text) := []
  /-- conflict dependences -/
  cdeps : List Text := []
  /-- env dependences -/
  edeps : List Text := []
  /-- actual dependence items count -/
  acount : ℤ := 0
  select : List Text := []
  imply : List Text := []
  versioncfg : Bool := false
  featurecfg : Bool := false
  features : List Feature := []
  default : Bool := true
  conf : Text := []
deriving DecidableEq

end CBuild.Model.GenBuildChain
