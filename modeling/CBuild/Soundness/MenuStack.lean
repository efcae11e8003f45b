import CBuild.Machine.Run
import CBuild.Model.GenBuildChain.Menus
import Mathlib.Logic.Relation

/-! # The stack of open menus

What one placement can do to the stack: it pops lists that do not own the item, and then the item
joins the first list that owns it, opening a list of its own if it is a menu, or the list of its own
directory. An owner's virtual path contains that of the item.
-/

namespace CBuild.Soundness.MenuStack

open CBuild.Text CBuild.Machine CBuild.Model.GenBuildChain

def opened (item : Node) (refs : List Level) : List Level :=
  if item.vtype.isMenu then .single item :: refs else refs

def joined (item : Node) (top : Level) : Level := if item.vtype.isMenu then top.push item else top

/-- The place of an item, from the stack before and with the stack after. -/
inductive Placed (item : Node) : List Level → Option Node → List Level → Prop
  | empty : Placed item [] none (opened item [])
  | owned {top : Level} {rest : List Level} {ref : Node} : top.owner item = some ref →
      Placed item (top :: rest) (some ref) (opened item (top :: rest))
  | bottom {top : Level} : top.owner item = none → within item.path top.last.path = true →
      Placed item [top] none [joined item top]
  | beside {top second : Level} {lower : List Level} {ref : Node} : top.owner item = none →
      within item.path top.last.path = true → second.owner item = some ref →
      Placed item (top :: second :: lower) (some ref) (joined item top :: second :: lower)
  | pop {top : Level} {rest refs : List Level} {parent : Option Node} : top.owner item = none →
      Placed item rest parent refs → Placed item (top :: rest) parent refs

theorem findPlace_placed (item : Node) (refs : List Level) :
    Placed item refs (findPlace item refs).1 (findPlace item refs).2 := by
  fun_induction findPlace item refs with
  | case1 => exact .empty
  | case2 top rest ref owner => exact .owned owner
  | case3 top rest owner inside deeper ih => exact .pop owner ih
  | case4 top owner inside same => exact .bottom owner inside
  | case5 top owner inside same joined second lower ref under => exact .beside owner inside under
  | case6 top owner inside same second lower under ih => exact .pop owner ih
  | case7 top rest owner outside ih => exact .pop owner ih

def menus (refs : List Level) : List Node := refs.flatMap Level.menus

theorem mem_menus {refs : List Level} {menu : Node} :
    menu ∈ menus refs ↔ ∃ level ∈ refs, menu ∈ level.menus := List.mem_flatMap

theorem mem_of_owner {level : Level} {item ref : Node} (owner : level.owner item = some ref) :
    ref ∈ level.menus ∧ within item.spath ref.spath = true :=
  ⟨List.mem_of_find?_eq_some owner, by simpa using List.find?_some owner⟩

theorem not_within_of_owner {level : Level} {item menu : Node} (owner : level.owner item = none)
    (member : menu ∈ level.menus) : within item.spath menu.spath = false := by
  simpa using List.find?_eq_none.mp owner menu member

theorem mem_joined {item menu : Node} {top : Level} (member : menu ∈ (joined item top).menus) :
    menu ∈ top.menus ∨ menu = item ∧ item.vtype.isMenu = true := by
  unfold joined at member
  split at member
  · next isMenu =>
    rcases List.mem_append.mp member with old | new
    · exact .inl old
    · exact .inr ⟨List.mem_singleton.mp new, isMenu⟩
  · exact .inl member

theorem mem_opened {item menu : Node} {refs : List Level} (member : menu ∈ menus (opened item refs)) :
    menu ∈ menus refs ∨ menu = item ∧ item.vtype.isMenu = true := by
  unfold opened at member
  split at member
  · next isMenu =>
    rcases mem_menus.mp member with ⟨level, inside, here⟩
    rcases List.mem_cons.mp inside with rfl | inside
    · exact .inr ⟨List.mem_singleton.mp here, isMenu⟩
    · exact .inl (mem_menus.mpr ⟨level, inside, here⟩)
  · exact .inl member

namespace Placed

variable {item : Node} {refs refs' : List Level} {parent : Option Node}

/-- The parent is an open menu that owns the item. -/
theorem parent_mem (placed : Placed item refs parent refs') {ref : Node} (same : parent = some ref) :
    ref ∈ menus refs ∧ within item.spath ref.spath = true := by
  induction placed with
  | empty => cases same
  | owned owner =>
    cases same
    obtain ⟨member, inside⟩ := mem_of_owner owner
    exact ⟨mem_menus.mpr ⟨_, List.mem_cons_self .., member⟩, inside⟩
  | bottom => cases same
  | beside _ _ owner =>
    cases same
    obtain ⟨member, inside⟩ := mem_of_owner owner
    exact ⟨mem_menus.mpr ⟨_, List.mem_cons_of_mem _ (List.mem_cons_self ..), member⟩, inside⟩
  | pop _ _ ih =>
    obtain ⟨member, inside⟩ := ih same
    obtain ⟨level, here, member⟩ := mem_menus.mp member
    exact ⟨mem_menus.mpr ⟨level, List.mem_cons_of_mem _ here, member⟩, inside⟩

/-- An open menu was open before, or is the item. -/
theorem menus_subset (placed : Placed item refs parent refs') {menu : Node} (member : menu ∈ menus refs') :
    menu ∈ menus refs ∨ menu = item ∧ item.vtype.isMenu = true := by
  induction placed with
  | empty => exact mem_opened member
  | owned _ => exact mem_opened member
  | bottom _ _ =>
    obtain ⟨level, here, member⟩ := mem_menus.mp member
    rw [List.mem_singleton.mp here] at member
    exact (mem_joined member).imp_left fun old => mem_menus.mpr ⟨_, List.mem_singleton_self _, old⟩
  | beside _ _ _ =>
    obtain ⟨level, here, member⟩ := mem_menus.mp member
    rcases List.mem_cons.mp here with rfl | here
    · exact (mem_joined member).imp_left fun old => mem_menus.mpr ⟨_, List.mem_cons_self .., old⟩
    · exact .inl (mem_menus.mpr ⟨level, List.mem_cons_of_mem _ here, member⟩)
  | pop _ _ ih =>
    refine (ih member).imp_left fun old => ?_
    obtain ⟨level, here, member⟩ := mem_menus.mp old
    exact mem_menus.mpr ⟨level, List.mem_cons_of_mem _ here, member⟩

end Placed

end CBuild.Soundness.MenuStack
