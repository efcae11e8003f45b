import CBuild.Soundness.EmptyMenus

/-! # Poky recipes that move into choices

`check_item` takes a recipe that a choice lists out of PokyList, keeps it in PokyMoved and makes it a
member of the choice. Later choices that list the name find the recipe gone. A listed name that is a
target is kept as it stands, whether or not a recipe has it too.
-/

namespace CBuild.Soundness.PokyRecipes

open CBuild.Data CBuild.Text CBuild.Model.GenBuildChain CBuild.Soundness.Dangling
  CBuild.Soundness.EmptyMenus

/-- The items of the list itself. -/
def roots : Forest → List Item
  | .nil => []
  | .cons item _ rest => item :: roots rest

def choices : Forest → List (Item × List Item)
  | .nil => []
  | .cons item member rest =>
    (if item.vtype.isChoice then [(item, roots member)] else []) ++ (choices member ++ choices rest)

/-- Every choice with every one of its members. -/
def memberships (forest : Forest) : List (Item × Item) :=
  (choices forest).flatMap fun (choice, members) => members.map (choice, ·)

/-- The item is the recipe, whatever its dependences have become. -/
def IsRecipe (recipe item : Item) : Prop :=
  item.vtype = .package ∧ item.target = recipe.target ∧ item.path = recipe.path

instance (recipe item : Item) : Decidable (IsRecipe recipe item) :=
  inferInstanceAs (Decidable (_ ∧ _ ∧ _))

/-- What is left of a choice: the same choice, with some of its targets in their order. -/
def Narrowed (left choice : Item) : Prop :=
  left.target = choice.target ∧ left.path = choice.path ∧ left.targets.Sublist choice.targets

/-- What becomes of the recipes. `known` are the names that a choice may list besides its members. -/
structure RecipesKept (known : List Text) (pokyList : List Item) (forest left : Forest) (poky : Poky) :
    Prop where
  permutation : (poky.pokyList ++ poky.pokyMoved).Perm pokyList
  member : ∀ recipe ∈ poky.pokyMoved, (∀ item ∈ forest.items, ¬ IsRecipe recipe item) →
    ∃ choice kept, (memberships left).filter (IsRecipe recipe ·.2) = [(choice, kept)] ∧
      recipe.target ∈ choice.targets
  listed : ∀ choice ∈ choices left, ∀ name ∈ choice.1.targets, name ∈ pokyList.map (·.target) →
    name ∈ known ∨ ∃ member ∈ choice.2, member.vtype = .package ∧ member.target = name
  ordered : List.SublistForall₂ Narrowed ((choices left).map Prod.fst) ((choices forest).map Prod.fst)

theorem roots_append (first second : Forest) : roots (first.append second) = roots first ++ roots second := by
  induction first with
  | nil => rfl
  | cons item member rest _ ih => simp [Forest.append, roots, ih]

theorem roots_leaves (list : List Item) : roots (.leaves list) = list := by
  induction list with
  | nil => rfl
  | cons item list ih => simp [Forest.leaves, roots, ih]

theorem choices_append (first second : Forest) :
    choices (first.append second) = choices first ++ choices second := by
  induction first with
  | nil => rfl
  | cons item member rest _ ih => simp [Forest.append, choices, ih]

/-- Recipes hold no choices. -/
theorem choices_leaves {list : List Item} (recipes : ∀ item ∈ list, item.vtype = .package) :
    choices (.leaves list) = [] := by
  induction list with
  | nil => rfl
  | cons item list ih =>
    have package := recipes item (List.mem_cons_self ..)
    have rest := ih fun other member => recipes other (List.mem_cons_of_mem _ member)
    simp [Forest.leaves, choices, rest, package, VType.isChoice]

theorem memberships_cons (item : Item) (member rest : Forest) :
    memberships (.cons item member rest) =
      (if item.vtype.isChoice then (roots member).map (item, ·) else []) ++
        (memberships member ++ memberships rest) := by
  rw [memberships, choices]
  split <;> simp [memberships]

theorem memberships_append (first second : Forest) :
    memberships (first.append second) = memberships first ++ memberships second := by
  simp [memberships, choices_append]

theorem memberships_leaves {list : List Item} (recipes : ∀ item ∈ list, item.vtype = .package) :
    memberships (.leaves list) = [] := by
  simp [memberships, choices_leaves recipes]

/-- The members of the choices are items of the forest. -/
theorem roots_subset (forest : Forest) : roots forest ⊆ forest.items := by
  induction forest with
  | nil => simp [roots]
  | cons item member rest _ ih =>
    intro other inside
    rcases List.mem_cons.mp inside with rfl | inside
    · simp
    · simp [ih inside]

theorem memberships_subset {forest : Forest} {pair : Item × Item} (inside : pair ∈ memberships forest) :
    pair.2 ∈ forest.items := by
  induction forest with
  | nil => contradiction
  | cons item member rest memberInside restInside =>
    rw [memberships_cons, List.mem_append, List.mem_append] at inside
    rcases inside with own | below | after
    · split at own
      · obtain ⟨other, root, rfl⟩ := List.mem_map.mp own
        simp [roots_subset member root]
      · contradiction
    · simp [memberInside below]
    · simp [restInside after]

/-- What a choice makes of its targets: those that are kept, in order, and the recipes among them. -/
structure Chosen (targetList deps targets : List Text) (moved : List Item) (poky poky' : Poky) : Prop where
  ordered : targets.Sublist deps
  listed : ∀ recipe ∈ moved, recipe.target ∈ targets
  known : ∀ name ∈ targets, name ∈ targetList ∨ ∃ recipe ∈ moved, recipe.target = name
  stock : poky.pokyList.Perm (moved ++ poky'.pokyList)
  moved : poky'.pokyMoved = poky.pokyMoved ++ moved

theorem chooseTargets_chosen (targetList pokyNames deps : List Text) (poky : Poky) :
    Chosen targetList deps (chooseTargets targetList pokyNames deps poky).1
      (chooseTargets targetList pokyNames deps poky).2.1 poky
      (chooseTargets targetList pokyNames deps poky).2.2 := by
  induction deps generalizing poky with
  | nil => exact ⟨.refl _, by simp [chooseTargets], by simp [chooseTargets], .refl _, by simp [chooseTargets]⟩
  | cons dep deps ih =>
    unfold chooseTargets
    by_cases target : dep ∈ targetList
    · rw [if_pos target]
      obtain ⟨ordered, listed, known, stock, moved⟩ := ih poky
      refine ⟨ordered.cons_cons dep, fun recipe inside => List.mem_cons_of_mem _ (listed recipe inside), ?_,
        stock, moved⟩
      exact List.forall_mem_cons.mpr ⟨.inl target, known⟩
    · rw [if_neg target]
      cases found : (if dep ∈ pokyNames then poky.pokyList.find? (·.target = dep) else none) with
      | none =>
        obtain ⟨ordered, listed, known, stock, moved⟩ := ih poky
        exact ⟨ordered.cons dep, listed, known, stock, moved⟩
      | some recipe =>
        obtain ⟨inside, named⟩ : recipe ∈ poky.pokyList ∧ recipe.target = dep := by
          split at found
          · exact ⟨List.mem_of_find?_eq_some found, by simpa using List.find?_some found⟩
          · contradiction
        obtain ⟨ordered, listed, known, stock, moved⟩ := ih (poky.move recipe)
        refine ⟨ordered.cons_cons dep, ?_, ?_, ?_, by simpa [Poky.move] using moved⟩
        · refine List.forall_mem_cons.mpr ⟨named ▸ List.mem_cons_self .., fun other there => ?_⟩
          exact List.mem_cons_of_mem _ (listed other there)
        · refine List.forall_mem_cons.mpr ⟨.inr ⟨recipe, List.mem_cons_self .., named⟩, fun name there => ?_⟩
          refine (known name there).imp_right fun moved => ?_
          obtain ⟨other, there, same⟩ := moved
          exact ⟨other, List.mem_cons_of_mem _ there, same⟩
        · exact (List.perm_cons_erase inside).trans (stock.cons recipe)

/-- The frame of `check_item` around one choice: a choice narrows, another item keeps its targets. -/
theorem checkChoice_chosen {strict : Bool} {pokyNames : List Text} {item filtered : Item} {st : CheckState}
    (found : filterItem strict st.targetList item = some filtered) :
    Narrowed (checkChoice pokyNames filtered st).1 item ∧
      (item.vtype.isChoice → Chosen st.targetList item.targets (checkChoice pokyNames filtered st).1.targets
        (checkChoice pokyNames item st).2.1 st.poky (checkChoice pokyNames item st).2.2.poky) ∧
      (¬ item.vtype.isChoice → (checkChoice pokyNames item st).2.1 = [] ∧
        (checkChoice pokyNames item st).2.2 = st) := by
  obtain ⟨sameType, sameTarget, sameTargets, _, _⟩ := filterItem_frame found
  have samePath := filterItem_path found
  have chosen := chooseTargets_chosen st.targetList pokyNames item.targets st.poky
  unfold checkChoice
  rw [sameType, sameTargets]
  split
  · next choice =>
    exact ⟨⟨sameTarget, samePath, chosen.ordered⟩, fun _ => chosen, fun other => absurd choice other⟩
  · next other =>
    exact ⟨⟨sameTarget, samePath, sameTargets ▸ .refl _⟩, fun choice => absurd choice other, fun _ => ⟨rfl, rfl⟩⟩

/-- What a walk does to the recipes: `gone` are those that it moves. -/
structure Moves (forest left : Forest) (st final : CheckState) (gone : List Item) : Prop where
  stock : st.poky.pokyList.Perm (gone ++ final.poky.pokyList)
  moved : final.poky.pokyMoved = st.poky.pokyMoved ++ gone
  counted : ∀ recipe, (memberships left).countP (IsRecipe recipe ·.2) =
    (memberships forest).countP (IsRecipe recipe ·.2) + gone.countP (IsRecipe recipe ·)
  homes : ∀ recipe ∈ gone, ∃ pair ∈ memberships left, IsRecipe recipe pair.2 ∧
    recipe.target ∈ pair.1.targets
  listed : ∀ choice ∈ choices left, ∀ name ∈ choice.1.targets, name ∈ st.targetList ∨
    ∃ member ∈ choice.2, member.vtype = .package ∧ member.target = name
  ordered : List.SublistForall₂ Narrowed ((choices left).map Prod.fst) ((choices forest).map Prod.fst)

/-- Filtering changes neither whether an item is a recipe nor which. -/
theorem isRecipe_filterItem {strict : Bool} {targetList : List Text} {item kept recipe : Item}
    (found : filterItem strict targetList item = some kept) : IsRecipe recipe kept ↔ IsRecipe recipe item := by
  obtain ⟨sameType, sameTarget, _⟩ := filterItem_frame found
  rw [IsRecipe, sameType, sameTarget, filterItem_path found, IsRecipe]

theorem countP_mapM {strict : Bool} {targetList : List Text} {moved left : List Item}
    (success : moved.mapM (filterItem strict targetList) = some left) (recipe : Item) :
    left.countP (IsRecipe recipe ·) = moved.countP (IsRecipe recipe ·) := by
  have related := mapM_eq_some_iff.mp success
  clear success
  induction related with
  | nil => rfl
  | cons found _ ih => simp only [List.countP_cons, ih, isRecipe_filterItem found]

/-- The recipes of a list stay in it. -/
theorem countP_roots {strict : Bool} {pokyNames : List Text} {forest left : Forest} {st final : CheckState}
    (success : checkItem strict pokyNames forest st = some (left, final)) (recipe : Item) :
    (roots left).countP (IsRecipe recipe ·) = (roots forest).countP (IsRecipe recipe ·) := by
  induction forest generalizing st left final with
  | nil =>
    cases success
    rfl
  | cons item member rest _ restCount =>
    obtain ⟨filtered, found, ⟨rfl, noMoved, virtual, after⟩ |
      ⟨stays, memberLeft, st₁, movedLeft, restLeft, inside, filteredMoved, after, rfl⟩⟩ :=
      checkItem_cons success
    · have other : ¬ IsRecipe recipe item := fun ⟨package, _⟩ => by
        simp [package, VType.isChoice, VType.isMenu] at virtual
      rw [restCount after, roots, List.countP_cons_of_neg (by simpa using other)]
    · have same : IsRecipe recipe (checkChoice pokyNames filtered st).1 ↔ IsRecipe recipe item := by
        obtain ⟨sameType, _, sameTargets, _⟩ := filterItem_frame found
        obtain ⟨⟨sameTarget, samePath, _⟩, _⟩ := @checkChoice_chosen _ pokyNames _ _ _ found
        rw [IsRecipe, (checkChoice_frame sameType sameTargets).2.1, sameTarget, samePath, IsRecipe]
      simp only [roots, List.countP_cons, restCount after, same]

theorem isRecipe_self {recipe : Item} (package : recipe.vtype = .package) : IsRecipe recipe recipe :=
  ⟨package, rfl, rfl⟩

/-- What a turn takes out of PokyList it adds to PokyMoved. -/
theorem checkChoice_stock {strict : Bool} {pokyNames : List Text} {item filtered : Item} {st : CheckState}
    (found : filterItem strict st.targetList item = some filtered) :
    st.poky.pokyList.Perm
        ((checkChoice pokyNames item st).2.1 ++ (checkChoice pokyNames item st).2.2.poky.pokyList) ∧
      (checkChoice pokyNames item st).2.2.poky.pokyMoved =
        st.poky.pokyMoved ++ (checkChoice pokyNames item st).2.1 := by
  obtain ⟨_, chosen, same⟩ := @checkChoice_chosen _ pokyNames _ _ _ found
  by_cases choice : item.vtype.isChoice
  · exact ⟨(chosen choice).stock, (chosen choice).moved⟩
  · simp [same choice]

theorem targetList_subset {strict : Bool} {pokyNames : List Text} {forest left : Forest}
    {st final : CheckState} (success : checkItem strict pokyNames forest st = some (left, final)) :
    final.targetList ⊆ st.targetList := by
  rw [(checkItem_traces success).2.final]
  exact (List.diff_sublist ..).subset

theorem memberships_kept {kept : Item} {memberLeft restLeft : Forest} {movedLeft : List Item}
    (recipes : ∀ item ∈ movedLeft, item.vtype = .package) :
    memberships (.cons kept (memberLeft.append (.leaves movedLeft)) restLeft) =
      (if kept.vtype.isChoice then (roots memberLeft ++ movedLeft).map (kept, ·) else []) ++
        (memberships memberLeft ++ memberships restLeft) := by
  rw [memberships_cons, memberships_append, memberships_leaves recipes, List.append_nil, roots_append,
    roots_leaves]

theorem choices_kept {kept : Item} {memberLeft restLeft : Forest} {movedLeft : List Item}
    (recipes : ∀ item ∈ movedLeft, item.vtype = .package) :
    choices (.cons kept (memberLeft.append (.leaves movedLeft)) restLeft) =
      (if kept.vtype.isChoice then [(kept, roots memberLeft ++ movedLeft)] else []) ++
        (choices memberLeft ++ choices restLeft) := by
  rw [choices, choices_append, choices_leaves recipes, List.append_nil, roots_append, roots_leaves]

/-- A choice that leaves without members takes no recipe with it. -/
theorem Moves.dropped {strict : Bool} {pokyNames : List Text} {item filtered : Item} {rest left : Forest}
    {st final : CheckState} {gone : List Item}
    (found : filterItem strict st.targetList item = some filtered)
    (noMoved : (checkChoice pokyNames item st).2.1 = [])
    (after : Moves rest left ((checkChoice pokyNames item st).2.2.drop item.target) final gone) :
    Moves (.cons item .nil rest) left st final gone := by
  obtain ⟨stock, moved⟩ := @checkChoice_stock _ pokyNames _ _ _ found
  have sameList := (@checkChoice_recipes pokyNames item st).2
  rw [noMoved, List.nil_append] at stock
  rw [noMoved, List.append_nil] at moved
  refine ⟨stock.trans after.stock, after.moved.trans (by rw [CheckState.drop, moved]), fun recipe => ?_,
    after.homes, fun choice inside name there => ?_, ?_⟩
  · rw [after.counted, memberships_cons]
    simp [roots, memberships, choices]
  · refine (after.listed choice inside name there).imp_left fun target => ?_
    rw [CheckState.drop, sameList] at target
    exact List.mem_of_mem_erase target
  · rw [choices, choices, List.map_append]
    exact sublistForall₂_append .nil after.ordered

section Kept

variable {item kept : Item} {member rest memberLeft restLeft : Forest} {taken movedLeft memberGone restGone : List Item}
  (choiceType : kept.vtype.isChoice = item.vtype.isChoice) (recipes : ∀ item ∈ movedLeft, item.vtype = .package)

include choiceType recipes

/-- A choice has the recipes of its members and those that it takes. -/
theorem countP_kept {recipe : Item} (none : ¬ item.vtype.isChoice → taken = [])
    (moved : movedLeft.countP (IsRecipe recipe ·) = taken.countP (IsRecipe recipe ·))
    (inside : (roots memberLeft).countP (IsRecipe recipe ·) = (roots member).countP (IsRecipe recipe ·))
    (below : (memberships memberLeft).countP (IsRecipe recipe ·.2) =
      (memberships member).countP (IsRecipe recipe ·.2) + memberGone.countP (IsRecipe recipe ·))
    (after : (memberships restLeft).countP (IsRecipe recipe ·.2) =
      (memberships rest).countP (IsRecipe recipe ·.2) + restGone.countP (IsRecipe recipe ·)) :
    (memberships (.cons kept (memberLeft.append (.leaves movedLeft)) restLeft)).countP (IsRecipe recipe ·.2) =
      (memberships (.cons item member rest)).countP (IsRecipe recipe ·.2) +
        (taken ++ (memberGone ++ restGone)).countP (IsRecipe recipe ·) := by
  rw [memberships_kept recipes, memberships_cons]
  simp only [List.countP_append, choiceType]
  by_cases choice : item.vtype.isChoice
  · simp only [choice, if_true, List.countP_map, List.countP_append, Function.comp_def]
    omega
  · rw [none choice]
    simp only [choice, if_false, List.countP_nil, Bool.false_eq_true]
    omega

theorem homes_kept
    (taken_home : ∀ recipe ∈ taken, item.vtype.isChoice ∧ recipe.target ∈ kept.targets ∧
      ∃ other ∈ movedLeft, IsRecipe recipe other)
    (below : ∀ recipe ∈ memberGone, ∃ pair ∈ memberships memberLeft, IsRecipe recipe pair.2 ∧
      recipe.target ∈ pair.1.targets)
    (after : ∀ recipe ∈ restGone, ∃ pair ∈ memberships restLeft, IsRecipe recipe pair.2 ∧
      recipe.target ∈ pair.1.targets) :
    ∀ recipe ∈ taken ++ (memberGone ++ restGone),
      ∃ pair ∈ memberships (.cons kept (memberLeft.append (.leaves movedLeft)) restLeft),
        IsRecipe recipe pair.2 ∧ recipe.target ∈ pair.1.targets := by
  rw [memberships_kept recipes, List.forall_mem_append, List.forall_mem_append]
  refine ⟨fun recipe member => ?_, fun recipe member => ?_, fun recipe member => ?_⟩
  · obtain ⟨choice, target, other, there, same⟩ := taken_home recipe member
    refine ⟨(kept, other), ?_, same, target⟩
    rw [choiceType, if_pos choice]
    simp [there]
  · obtain ⟨pair, there, facts⟩ := below recipe member
    exact ⟨pair, by simp [there], facts⟩
  · obtain ⟨pair, there, facts⟩ := after recipe member
    exact ⟨pair, by simp [there], facts⟩

/-- What a choice lists is a target, or the name of a recipe that it has or takes. -/
theorem listed_kept {targetList laterList : List Text} (shrinks : laterList ⊆ targetList)
    (here : item.vtype.isChoice → ∀ name ∈ kept.targets, name ∈ targetList ∨
      ∃ other ∈ movedLeft, other.target = name)
    (below : ∀ choice ∈ choices memberLeft, ∀ name ∈ choice.1.targets, name ∈ targetList ∨
      ∃ member ∈ choice.2, member.vtype = .package ∧ member.target = name)
    (after : ∀ choice ∈ choices restLeft, ∀ name ∈ choice.1.targets, name ∈ laterList ∨
      ∃ member ∈ choice.2, member.vtype = .package ∧ member.target = name) :
    ∀ choice ∈ choices (.cons kept (memberLeft.append (.leaves movedLeft)) restLeft), ∀ name ∈ choice.1.targets,
      name ∈ targetList ∨ ∃ member ∈ choice.2, member.vtype = .package ∧ member.target = name := by
  rw [choices_kept recipes, List.forall_mem_append, List.forall_mem_append]
  refine ⟨fun choice there name target => ?_, below, fun choice there name target => ?_⟩
  · split at there
    · next isChoice =>
      obtain rfl := List.mem_singleton.mp there
      refine (here (choiceType ▸ isChoice) name target).imp_right ?_
      rintro ⟨other, there, same⟩
      exact ⟨other, by simp [there], recipes other there, same⟩
    · contradiction
  · exact (after choice there name target).imp_left fun known => shrinks known

end Kept

/-- A choice that stays keeps the recipes of its members and gains those it takes. -/
theorem Moves.kept {strict : Bool} {pokyNames : List Text} {item filtered : Item}
    {member rest memberLeft restLeft : Forest} {movedLeft memberGone restGone : List Item}
    {st st₁ final : CheckState} (found : filterItem strict st.targetList item = some filtered)
    (inside : checkItem strict pokyNames member (checkChoice pokyNames item st).2.2 = some (memberLeft, st₁))
    (filteredMoved : (checkChoice pokyNames item st).2.1.mapM (filterItem strict st₁.targetList) = some movedLeft)
    (below : Moves member memberLeft (checkChoice pokyNames item st).2.2 st₁ memberGone)
    (after : Moves rest restLeft st₁ final restGone) :
    Moves (.cons item member rest)
      (.cons (checkChoice pokyNames filtered st).1 (memberLeft.append (.leaves movedLeft)) restLeft) st final
      ((checkChoice pokyNames item st).2.1 ++ (memberGone ++ restGone)) := by
  obtain ⟨stock, moved⟩ := @checkChoice_stock _ pokyNames _ _ _ found
  obtain ⟨movedRecipes, sameList⟩ := @checkChoice_recipes pokyNames item st
  obtain ⟨narrowed, chosen, same⟩ := @checkChoice_chosen _ pokyNames _ _ _ found
  have keptType : (checkChoice pokyNames filtered st).1.vtype = item.vtype :=
    (checkChoice_frame (filterItem_frame found).1 (filterItem_frame found).2.2.1).2.1
  have recipes := moved_packages filteredMoved movedRecipes
  have countMoved := countP_mapM filteredMoved
  have countRoots := countP_roots inside
  have findMoved {recipe : Item} (member : recipe ∈ (checkChoice pokyNames item st).2.1) :=
    exists_of_mapM filteredMoved member
  have shrinks := targetList_subset inside
  rw [sameList] at shrinks
  generalize (checkChoice pokyNames filtered st).1 = kept at *
  generalize (checkChoice pokyNames item st).2.1 = taken at *
  generalize (checkChoice pokyNames item st).2.2 = st' at *
  have choiceType : kept.vtype.isChoice = item.vtype.isChoice := by rw [keptType]
  refine ⟨?_, ?_, fun recipe => ?_, ?_, ?_, ?_⟩
  · rw [List.append_assoc, List.append_assoc]
    exact stock.trans ((below.stock.trans (after.stock.append_left _)).append_left _)
  · rw [after.moved, below.moved, moved, List.append_assoc, List.append_assoc]
  · exact countP_kept choiceType recipes (fun other => (same other).1) (countMoved recipe) (countRoots recipe)
      (below.counted recipe) (after.counted recipe)
  · refine homes_kept choiceType recipes (fun recipe member => ?_) below.homes after.homes
    have choice : item.vtype.isChoice := by
      by_contra other
      rw [(same other).1] at member
      contradiction
    obtain ⟨other, there, filteredRecipe⟩ := findMoved member
    exact ⟨choice, (chosen choice).listed recipe member, other, there,
      (isRecipe_filterItem filteredRecipe).mpr (isRecipe_self (movedRecipes recipe member))⟩
  · refine listed_kept choiceType recipes shrinks (fun choice name target => ?_)
      (sameList ▸ below.listed) after.listed
    refine ((chosen choice).known name target).imp_right ?_
    rintro ⟨recipe, member, rfl⟩
    obtain ⟨other, there, filteredRecipe⟩ := findMoved member
    exact ⟨other, there, (filterItem_frame filteredRecipe).2.1⟩
  · rw [choices_kept recipes, choices, List.map_append, List.map_append, List.map_append, List.map_append,
      choiceType]
    refine sublistForall₂_append ?_ (sublistForall₂_append below.ordered after.ordered)
    split
    · exact .cons narrowed .nil
    · exact .nil

/-- Every walk moves some of the recipes, each to the first choice that lists it and cannot keep the
name as it stands. -/
theorem checkItem_moves {strict : Bool} {pokyNames : List Text} {forest left : Forest} {st final : CheckState}
    (success : checkItem strict pokyNames forest st = some (left, final)) :
    ∃ gone, Moves forest left st final gone := by
  induction forest generalizing st left final with
  | nil =>
    cases success
    exact ⟨[], .refl _, by simp, by simp [memberships, choices], by simp, by simp [choices], .nil⟩
  | cons item member rest memberMoves restMoves =>
    obtain ⟨filtered, found, ⟨rfl, noMoved, virtual, after⟩ |
      ⟨stays, memberLeft, st₁, movedLeft, restLeft, inside, filteredMoved, after, rfl⟩⟩ :=
      checkItem_cons success
    · obtain ⟨gone, moves⟩ := restMoves after
      exact ⟨gone, moves.dropped found noMoved⟩
    · obtain ⟨memberGone, below⟩ := memberMoves inside
      obtain ⟨restGone, later⟩ := restMoves after
      exact ⟨_, below.kept found inside filteredMoved later⟩

theorem countP_isRecipe {gone : List Item} (distinct : (gone.map (·.target)).Nodup) (recipe : Item) :
    gone.countP (IsRecipe recipe ·) ≤ 1 := by
  calc gone.countP (IsRecipe recipe ·)
      ≤ gone.countP (·.target == recipe.target) :=
        List.countP_mono_left fun item _ same => by simpa using (of_decide_eq_true same).2.1
    _ = (gone.map (·.target)).count recipe.target := by rw [List.count, List.countP_map]; rfl
    _ ≤ 1 := List.nodup_iff_count_le_one.mp distinct _

/-- Recipes with distinct names are neither lost nor doubled: a choice gains each one that moves,
under its name, and otherwise lists only what is a target when the walk starts. -/
theorem recipes_kept (actualList virtualList : List Item) (poky : Poky) (forest left : Forest)
    (final : CheckState) (start : poky.pokyMoved = []) (distinct : (poky.pokyList.map (·.target)).Nodup)
    (success : yoctoCheck actualList virtualList poky forest = some (left, final)) :
    RecipesKept (yoctoTargets actualList virtualList) poky.pokyList forest left final.poky := by
  obtain ⟨gone, moves⟩ := checkItem_moves success
  have moved : final.poky.pokyMoved = gone := by rw [moves.moved, start, List.nil_append]
  refine ⟨?_, fun recipe member fresh => ?_, fun choice inside name target _ => ?_, moves.ordered⟩
  · rw [moved]
    exact List.perm_append_comm.trans moves.stock.symm
  · rw [moved] at member
    obtain ⟨⟨choice, kept⟩, inside, same, listed⟩ := moves.homes recipe member
    refine ⟨choice, kept, eq_singleton_of_mem (List.mem_filter.mpr ⟨inside, by simpa using same⟩) ?_, listed⟩
    have before : (memberships forest).countP (IsRecipe recipe ·.2) = 0 :=
      List.countP_eq_zero.mpr fun pair there => by simpa using fresh pair.2 (memberships_subset there)
    have goneNames : (gone.map (·.target)).Nodup := by
      have all := (moves.stock.map (·.target)).nodup_iff.mp distinct
      rw [List.map_append] at all
      exact all.of_append_left
    rw [← List.countP_eq_length_filter, moves.counted, before, Nat.zero_add]
    exact countP_isRecipe goneNames recipe
  · exact moves.listed choice inside name target

/-- The recipe `tools` of a layer that the user did not write. -/
def toolsRecipe : Poky where
  pokyList := [{ target := "tools".toList, path := "poky/tools".toList }]
  pokyMoved := []
  recipes := by simp

def editorItem : Item := { target := "editor".toList, path := "user/editor".toList }

def toolsConfig : Item := { target := "tools".toList, vtype := .config }

/-- A choice in the directory of the user's recipe, between it and `tools`. -/
def editorChoice : Item :=
  { target := "editors".toList, vtype := .menuchoice, targets := ["editor".toList, "tools".toList] }

/-- The choice gains the recipe that it lists. -/
theorem editorChoice_gains :
    RecipesKept (yoctoTargets [editorItem] [editorChoice]) toolsRecipe.pokyList
      (.cons editorChoice (.leaves [editorItem]) .nil)
      (.cons editorChoice (.leaves (editorItem :: toolsRecipe.pokyList)) .nil) ⟨[], toolsRecipe.pokyList, by simp⟩ :=
  recipes_kept [editorItem] [editorChoice] toolsRecipe (.cons editorChoice (.leaves [editorItem]) .nil) _
    ⟨["editor".toList], ["editors".toList], ⟨[], toolsRecipe.pokyList, by simp⟩⟩ rfl (by decide) (by decide)

/-- A virtual item has the name of the recipe: the choice lists the name, without having a member or
there being a package of that name. -/
theorem toolsConfig_not_known :
    ∃ left final, yoctoCheck [editorItem] [editorChoice, toolsConfig] toolsRecipe
        (.cons editorChoice (.leaves [editorItem]) (.leaves [toolsConfig])) = some (left, final) ∧
      ¬ RecipesKept ([editorItem].map (·.target)) toolsRecipe.pokyList
        (.cons editorChoice (.leaves [editorItem]) (.leaves [toolsConfig])) left final.poky :=
  ⟨_, _, rfl, fun kept => absurd (kept.listed (editorChoice, [editorItem]) (by decide) "tools".toList
    (by decide) (by decide)) (by decide)⟩

end CBuild.Soundness.PokyRecipes
