import CBuild.Soundness.Dangling

/-! # Menus that `check_item` leaves without members

`check_item` takes out a menu or a choice that has no members when the walk reaches it. Its members
are visited only afterwards, and they may all be taken out then, so that a menu whose members are
empty menus stays and holds nothing. Whether a choice counts as empty depends on the poky recipes
that are still to be had at its turn.
-/

namespace CBuild.Soundness.EmptyMenus

open CBuild.Text CBuild.Model.GenBuildChain CBuild.Soundness.Dangling

/-- `'choice' in item['vtype'] or 'menu' in item['vtype']`. -/
def IsMenu (item : Item) : Prop := (item.vtype.isChoice || item.vtype.isMenu) = true

instance (item : Item) : Decidable (IsMenu item) := inferInstanceAs (Decidable (_ = true))

/-- No menu or choice of the forest has an empty member list. -/
def NoEmpty : Forest → Prop
  | .nil => True
  | .cons item member rest => (IsMenu item → member ≠ .nil) ∧ NoEmpty member ∧ NoEmpty rest

instance : DecidablePred NoEmpty := go where
  go : (forest : Forest) → Decidable (NoEmpty forest)
    | .nil => .isTrue trivial
    | .cons _ member rest =>
      have := go member
      have := go rest
      inferInstanceAs (Decidable (_ ∧ _ ∧ _))

def menuNames (forest : Forest) : List Text := (forest.items.filter (IsMenu ·)).map (·.target)

def packages (forest : Forest) : List (Text × Text) :=
  (forest.items.filter (·.vtype = .package)).map fun item => (item.target, item.path)

/-- What a walk should leave: nothing empty, what left the forest is out of VirtualList too, and every
package is still there, in order. -/
structure Tidy (forest left : Forest) (st final : CheckState) : Prop where
  filled : NoEmpty left
  virtual : ∀ others, st.virtualList.Perm (menuNames forest ++ others) →
    final.virtualList.Perm (menuNames left ++ others)
  packages : (packages forest).Sublist (packages left)

/-- Every item of the list is a menu or a choice without members that finds no recipe at its turn. -/
def Emptied (pokyNames : List Text) : Forest → CheckState → Prop
  | .nil, _ => True
  | .cons item member rest, st =>
    member = .nil ∧ IsMenu item ∧ (checkChoice pokyNames item st).2.1 = [] ∧
      Emptied pokyNames rest ((checkChoice pokyNames item st).2.2.drop item.target)

/-- No menu or choice with members but without recipes has only members of that kind. -/
def Filled (pokyNames : List Text) : Forest → CheckState → Prop
  | .nil, _ => True
  | .cons item member rest, st =>
    let moved := (checkChoice pokyNames item st).2.1
    let st' := (checkChoice pokyNames item st).2.2
    if member.isNil && moved.isEmpty && (item.vtype.isChoice || item.vtype.isMenu) then
      Filled pokyNames rest (st'.drop item.target)
    else
      (IsMenu item → moved = [] → ¬ Emptied pokyNames member st') ∧
        Filled pokyNames member st' ∧ Filled pokyNames rest (visits pokyNames member st').2

instance (pokyNames : List Text) (forest : Forest) (st : CheckState) : Decidable (Emptied pokyNames forest st) :=
  go forest st where
  go : (forest : Forest) → (st : CheckState) → Decidable (Emptied pokyNames forest st)
    | .nil, _ => .isTrue trivial
    | .cons item _ rest, st =>
      have := go rest ((checkChoice pokyNames item st).2.2.drop item.target)
      inferInstanceAs (Decidable (_ ∧ _ ∧ _ ∧ _))

instance (pokyNames : List Text) (forest : Forest) (st : CheckState) : Decidable (Filled pokyNames forest st) :=
  go forest st where
  go : (forest : Forest) → (st : CheckState) → Decidable (Filled pokyNames forest st)
    | .nil, _ => .isTrue trivial
    | .cons item member rest, st =>
      have := go rest ((checkChoice pokyNames item st).2.2.drop item.target)
      have := go member (checkChoice pokyNames item st).2.2
      have := go rest (visits pokyNames member (checkChoice pokyNames item st).2.2).2
      inferInstanceAs (Decidable (if _ = true then _ else
        (IsMenu item → (checkChoice pokyNames item st).2.1 = [] →
          ¬ Emptied pokyNames member (checkChoice pokyNames item st).2.2) ∧ _ ∧ _))

theorem append_eq_nil {first second : Forest} :
    first.append second = .nil ↔ first = .nil ∧ second = .nil := by
  cases first <;> simp [Forest.append]

theorem leaves_eq_nil {list : List Item} : Forest.leaves list = .nil ↔ list = [] := by
  cases list <;> simp [Forest.leaves]

theorem noEmpty_append {first second : Forest} :
    NoEmpty (first.append second) ↔ NoEmpty first ∧ NoEmpty second := by
  induction first with
  | nil => simp [Forest.append, NoEmpty]
  | cons item member rest _ ih => simp [Forest.append, NoEmpty, ih, and_assoc]

/-- Packages have no member list to fill. -/
theorem noEmpty_leaves {list : List Item} (recipes : ∀ item ∈ list, item.vtype = .package) :
    NoEmpty (.leaves list) := by
  induction list with
  | nil => trivial
  | cons item list ih =>
    have package := recipes item (List.mem_cons_self ..)
    refine ⟨fun menu => ?_, trivial, ih fun other member => recipes other (List.mem_cons_of_mem _ member)⟩
    simp [IsMenu, package, VType.isChoice, VType.isMenu] at menu

theorem filterItem_path {strict : Bool} {targetList : List Text} {item kept : Item}
    (success : filterItem strict targetList item = some kept) : kept.path = item.path := by
  simp only [filterItem, bind, Option.bind_eq_some_iff] at success
  obtain ⟨wrule, _, select, _, imply, _, result⟩ := success
  cases result
  rfl

theorem checkChoice_path {pokyNames : List Text} {item : Item} {st : CheckState} :
    (checkChoice pokyNames item st).1.path = item.path := by
  unfold checkChoice
  split <;> rfl

/-- The recipes that join a choice are packages of the list they are filtered from. -/
theorem moved_packages {strict : Bool} {targetList : List Text} {moved left : List Item}
    (success : moved.mapM (filterItem strict targetList) = some left)
    (recipes : ∀ item ∈ moved, item.vtype = .package) : ∀ item ∈ left, item.vtype = .package := by
  intro item member
  obtain ⟨recipe, inside, found⟩ := (CBuild.Data.mem_of_mapM success).mp member
  rw [(filterItem_frame found).1]
  exact recipes recipe inside

theorem menuNames_cons (item : Item) (member rest : Forest) :
    menuNames (.cons item member rest) =
      (if IsMenu item then [item.target] else []) ++ (menuNames member ++ menuNames rest) := by
  unfold menuNames
  split <;> simp [*]

theorem menuNames_append (first second : Forest) :
    menuNames (first.append second) = menuNames first ++ menuNames second := by
  simp [menuNames]

theorem menuNames_leaves {list : List Item} (recipes : ∀ item ∈ list, item.vtype = .package) :
    menuNames (.leaves list) = [] := by
  have noMenu : ∀ item ∈ list, ¬ IsMenu item := fun item member menu => by
    simp [IsMenu, recipes item member, VType.isChoice, VType.isMenu] at menu
  simpa [menuNames, List.filter_eq_nil_iff] using noMenu

theorem packages_cons (item : Item) (member rest : Forest) :
    packages (.cons item member rest) =
      (if item.vtype = .package then [(item.target, item.path)] else []) ++
        (packages member ++ packages rest) := by
  unfold packages
  split <;> simp [*]

theorem packages_append (first second : Forest) :
    packages (first.append second) = packages first ++ packages second := by
  simp [packages]

theorem checkChoice_virtualList {pokyNames : List Text} {item : Item} {st : CheckState} :
    (checkChoice pokyNames item st).2.2.virtualList = st.virtualList := by
  unfold checkChoice
  split <;> rfl

/-- An item that stays is a menu as before, under its name. -/
theorem kept_menu {strict : Bool} {item filtered : Item} {st : CheckState}
    (found : filterItem strict st.targetList item = some filtered) (pokyNames : List Text) (st' : CheckState) :
    (IsMenu (checkChoice pokyNames filtered st').1 ↔ IsMenu item) ∧
      (checkChoice pokyNames filtered st').1.target = item.target := by
  obtain ⟨sameType, sameTarget, sameTargets, _, _⟩ := filterItem_frame found
  obtain ⟨_, keptType, keptTarget, _⟩ := @checkChoice_frame pokyNames _ _ st' sameType sameTargets
  exact ⟨by rw [IsMenu, IsMenu, keptType], keptTarget.trans sameTarget⟩

/-- An item that stays is a package as before, under its name and file. -/
theorem kept_package {strict : Bool} {item filtered : Item} {st : CheckState}
    (found : filterItem strict st.targetList item = some filtered) (pokyNames : List Text) (st' : CheckState) :
    (if (checkChoice pokyNames filtered st').1.vtype = .package then
        [((checkChoice pokyNames filtered st').1.target, (checkChoice pokyNames filtered st').1.path)] else []) =
      if item.vtype = .package then [(item.target, item.path)] else [] := by
  obtain ⟨sameType, sameTarget, sameTargets, _, _⟩ := filterItem_frame found
  obtain ⟨_, keptType, keptTarget, _⟩ := @checkChoice_frame pokyNames _ _ st' sameType sameTargets
  rw [keptType, keptTarget.trans sameTarget, checkChoice_path, filterItem_path found]

/-- Nothing is left of a list exactly when each of its items is taken out. -/
theorem left_nil_iff {strict : Bool} {pokyNames : List Text} {forest left : Forest} {st final : CheckState}
    (success : checkItem strict pokyNames forest st = some (left, final)) :
    left = .nil ↔ Emptied pokyNames forest st := by
  induction forest generalizing st left final with
  | nil =>
    cases success
    simp [Emptied]
  | cons item member rest _ restNil =>
    obtain ⟨_, _, ⟨rfl, noMoved, virtual, after⟩ | ⟨stays, _, _, _, _, _, _, _, rfl⟩⟩ := checkItem_cons success
    · rw [restNil after, Emptied]
      exact ⟨fun rest => ⟨rfl, virtual, noMoved, rest⟩, fun all => all.2.2.2⟩
    · refine ⟨nofun, fun ⟨empty, virtual, noMoved, _⟩ => absurd ?_ stays⟩
      rw [empty, noMoved, Forest.isNil, List.isEmpty_nil, Bool.and_self, Bool.true_and]
      exact virtual

/-- No menu is left empty exactly when no menu held only what the walk takes out. -/
theorem noEmpty_iff {strict : Bool} {pokyNames : List Text} {forest left : Forest} {st final : CheckState}
    (success : checkItem strict pokyNames forest st = some (left, final)) :
    NoEmpty left ↔ Filled pokyNames forest st := by
  induction forest generalizing st left final with
  | nil =>
    cases success
    simp [NoEmpty, Filled]
  | cons item member rest memberFilled restFilled =>
    obtain ⟨filtered, found, ⟨rfl, noMoved, virtual, after⟩ |
      ⟨stays, memberLeft, st₁, movedLeft, restLeft, inside, filteredMoved, after, rfl⟩⟩ :=
      checkItem_cons success
    · rw [restFilled after, Filled, if_pos (by simp [Forest.isNil, noMoved, virtual])]
    · have recipes := moved_packages filteredMoved checkChoice_recipes.1
      have noneMoved : movedLeft = [] ↔ (checkChoice pokyNames item st).2.1 = [] := by
        have lengths := (CBuild.Data.mapM_eq_some_iff.mp filteredMoved).length_eq
        rw [← List.length_eq_zero_iff, ← lengths, List.length_eq_zero_iff]
      have holds : (IsMenu (checkChoice pokyNames filtered st).1 →
          memberLeft.append (.leaves movedLeft) ≠ .nil) ↔
          (IsMenu item → (checkChoice pokyNames item st).2.1 = [] →
            ¬ Emptied pokyNames member (checkChoice pokyNames item st).2.2) := by
        rw [(kept_menu found pokyNames st).1, ne_eq, append_eq_nil, leaves_eq_nil, noneMoved, left_nil_iff inside]
        tauto
      rw [NoEmpty, holds, noEmpty_append, memberFilled inside, restFilled after, Filled, if_neg stays,
        (checkItem_traces inside).1]
      simp [noEmpty_leaves recipes]

/-- What leaves the forest leaves VirtualList, as often. -/
theorem virtualList_count {strict : Bool} {pokyNames : List Text} {forest left : Forest}
    {st final : CheckState} (success : checkItem strict pokyNames forest st = some (left, final))
    (name : Text) (within : (menuNames forest).count name ≤ st.virtualList.count name) :
    final.virtualList.count name + (menuNames forest).count name =
      st.virtualList.count name + (menuNames left).count name := by
  induction forest generalizing st left final with
  | nil =>
    cases success
    rfl
  | cons item member rest memberCount restCount =>
    rw [menuNames_cons, List.count_append, List.count_append] at within
    rw [menuNames_cons, List.count_append, List.count_append]
    obtain ⟨filtered, found, ⟨rfl, noMoved, virtual, after⟩ |
      ⟨stays, memberLeft, st₁, movedLeft, restLeft, inside, filteredMoved, after, rfl⟩⟩ :=
      checkItem_cons success
    · have menu : IsMenu item := virtual
      have erased : ((checkChoice pokyNames item st).2.2.drop item.target).virtualList.count name =
          st.virtualList.count name - [item.target].count name := by
        rw [CheckState.drop, checkChoice_virtualList, List.count_erase, List.count_singleton]
      rw [if_pos menu, show menuNames .nil = [] from rfl, List.count_nil] at within ⊢
      have later := restCount after (by omega)
      omega
    · obtain ⟨keptType, keptTarget⟩ := kept_menu found pokyNames st
      have recipes := moved_packages filteredMoved checkChoice_recipes.1
      rw [menuNames_cons, menuNames_append, menuNames_leaves recipes, List.append_nil, List.count_append,
        List.count_append, keptTarget]
      simp only [keptType]
      have members := memberCount inside (by rw [checkChoice_virtualList]; omega)
      rw [checkChoice_virtualList] at members
      have later := restCount after (by omega)
      omega

/-- Packages are never taken out, and they keep their order. -/
theorem packages_kept {strict : Bool} {pokyNames : List Text} {forest left : Forest} {st final : CheckState}
    (success : checkItem strict pokyNames forest st = some (left, final)) :
    (packages forest).Sublist (packages left) := by
  induction forest generalizing st left final with
  | nil =>
    cases success
    exact .refl _
  | cons item member rest memberKept restKept =>
    obtain ⟨filtered, found, ⟨rfl, noMoved, virtual, after⟩ |
      ⟨stays, memberLeft, st₁, movedLeft, restLeft, inside, filteredMoved, after, rfl⟩⟩ :=
      checkItem_cons success
    · have menu : item.vtype ≠ .package := fun package => by
        simp [package, VType.isChoice, VType.isMenu] at virtual
      rw [packages_cons, if_neg menu]
      exact restKept after
    · rw [packages_cons, packages_cons, packages_append, kept_package found pokyNames st]
      refine .append (.refl _) (.append ?_ (restKept after))
      exact (memberKept inside).trans (List.sublist_append_left ..)

/-- The walk leaves a tidy forest exactly when no menu or choice that has members, and gets no recipe,
has only members that are menus or choices without members and without recipes. -/
theorem tidy_iff (strict : Bool) (pokyNames : List Text) (forest left : Forest) (st final : CheckState)
    (success : checkItem strict pokyNames forest st = some (left, final)) :
    Tidy forest left st final ↔ Filled pokyNames forest st := by
  refine ⟨fun tidy => (noEmpty_iff success).mp tidy.filled, fun filled => ?_⟩
  refine ⟨(noEmpty_iff success).mpr filled, fun others complete => ?_, packages_kept success⟩
  rw [List.perm_iff_count] at complete ⊢
  intro name
  have before := complete name
  rw [List.count_append] at before ⊢
  have counted := virtualList_count success name (by omega)
  omega

def outerMenu : Forest :=
  .cons { target := "outer".toList, vtype := .menuconfig }
    (.cons { target := "inner".toList, vtype := .menuconfig } .nil .nil) .nil

def outerState : CheckState where
  targetList := ["outer".toList, "inner".toList]
  virtualList := ["outer".toList, "inner".toList]
  poky := .none

/-- The inner menu is taken out, and the outer one stays without members. -/
theorem outerMenu_left_empty :
    ∃ left final, checkItem true [] outerMenu outerState = some (left, final) ∧
      ¬ Tidy outerMenu left outerState final :=
  ⟨_, _, rfl, fun tidy => absurd tidy.filled (by decide)⟩

def nestedMenus : Forest :=
  .cons { target := "outer".toList, vtype := .menuconfig }
    (.cons { target := "inner".toList, vtype := .menuconfig } .nil
      (.cons { target := "tools".toList, vtype := .menuconfig }
        (.cons { target := "lib".toList } .nil .nil) .nil)) .nil

def nestedState : CheckState where
  targetList := ["outer".toList, "inner".toList, "tools".toList, "lib".toList]
  virtualList := ["outer".toList, "inner".toList, "tools".toList]
  poky := .none

/-- The inner menu is taken out, of VirtualList as well, and the menus around it and beside it have members. -/
theorem nestedMenus_tidy : ∃ left final, checkItem true [] nestedMenus nestedState = some (left, final) ∧
    final.virtualList = ["outer".toList, "tools".toList] ∧ Tidy nestedMenus left nestedState final :=
  ⟨_, _, rfl, rfl, (tidy_iff true [] nestedMenus _ nestedState _ rfl).mpr (by decide)⟩

end CBuild.Soundness.EmptyMenus
