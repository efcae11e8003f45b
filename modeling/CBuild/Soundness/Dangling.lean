import CBuild.Model.GenBuildChain.CheckItem
import CBuild.Data.List

/-! # References that `check_item` leaves behind

`check_item` filters the references of an item against the target list as it stands when the walk
reaches the item, and empty menus met later in the walk still leave the list. The visits of a walk
record the target list of each turn and whether the item is taken out. A reference survives and
dangles exactly when its name is a target at the item's turn and every occurrence of that name
leaves the list afterwards.
-/

namespace CBuild.Soundness.Dangling

open CBuild.Data CBuild.Text CBuild.Model.GenBuildChain

/-- The names an item refers to, outside `asdeps`. -/
def refs (item : Item) : List Text :=
  item.vsdeps ++ item.awdeps ++ item.vwdeps ++ item.cdeps ++ item.select ++ item.imply ++
    item.ideps.map idepName ++ item.wrule.flatten

/-- Every name left in the forest is still a target. -/
def NoDangling (forest : Forest) (targetList : List Text) : Prop :=
  ∀ item ∈ forest.items, ∀ name ∈ refs item, name ∈ targetList

/-- One turn of the walk: the item as it was, the target list it is filtered against, and whether
it is taken out as an empty menu or choice. -/
structure Visit where
  item : Item
  targetList : List Text
  dropped : Bool

/-- The alternatives of an or-token, without the marker of a virtual name. -/
def alternatives (dep : Text) : List Text :=
  (splitOn (splitStr dep) dep).map fun subdep => if subdep.head? = some '*' then subdep.drop 1 else subdep

/-- The tokens of `select` or `imply` name a target, or have it as the first alternative of an
or-token that is one. -/
def Selects (deps targetList : List Text) (name : Text) : Prop :=
  name ∈ deps ∨ ∃ dep ∈ deps, '|' ∈ dep ∧ (alternatives dep).find? (· ∈ targetList) = some name

/-- Filtering the item against a target list leaves a reference to the name. A choice loses its
select and imply. -/
def Keeps (item : Item) (targetList : List Text) (name : Text) : Prop :=
  name ∈ targetList ∧
    (name ∈ item.vsdeps ∨ name ∈ item.awdeps ∨ name ∈ item.vwdeps ∨ name ∈ item.cdeps ∨
      name ∈ item.ideps.map idepName ∨ name ∈ item.wrule.flatten ∨
      item.vtype.isChoice = false ∧
        (Selects item.select targetList name ∨ Selects item.imply targetList name))

/-- The turns of `check_item` in order, and the state they lead to. -/
def visits (pokyNames : List Text) : Forest → CheckState → List Visit × CheckState
  | .nil, st => ([], st)
  | .cons item member rest, st =>
    let moved := (checkChoice pokyNames item st).2.1
    let st' := (checkChoice pokyNames item st).2.2
    if member.isNil && moved.isEmpty && (item.vtype.isChoice || item.vtype.isMenu) then
      let (later, final) := visits pokyNames rest (st'.drop item.target)
      (⟨item, st.targetList, true⟩ :: later, final)
    else
      let (inside, st₁) := visits pokyNames member st'
      let (later, final) := visits pokyNames rest st₁
      (⟨item, st.targetList, false⟩ ::
        (inside ++ (moved.map (⟨·, st₁.targetList, false⟩)) ++ later), final)

/-- The names that the turns take out of the target list. -/
def droppedNames (turns : List Visit) : List Text :=
  (turns.filter (·.dropped)).map (·.item.target)

/-- No item that stays keeps a name whose every occurrence in the target list of its turn is taken
out later in the walk. -/
def NoForwardDrop : List Visit → Prop
  | [] => True
  | turn :: later =>
    (turn.dropped = false → ∀ name, Keeps turn.item turn.targetList name →
      (droppedNames later).count name < turn.targetList.count name) ∧
    NoForwardDrop later

/-- Every item that stays keeps the same names against the target list of its turn and against
another one. -/
def SameAgainst (turns : List Visit) (targetList : List Text) : Prop :=
  ∀ turn ∈ turns, turn.dropped = false →
    ∀ name, Keeps turn.item turn.targetList name ↔ Keeps turn.item targetList name

/-- Each turn filters against what the turns before it left of the list. -/
def Chained : List Text → List Visit → Prop
  | _, [] => True
  | names, turn :: later =>
    turn.targetList = names ∧
      Chained (if turn.dropped then names.erase turn.item.target else names) later

theorem droppedNames_append (first second : List Visit) :
    droppedNames (first ++ second) = droppedNames first ++ droppedNames second := by
  simp [droppedNames]

theorem droppedNames_cons (turn : Visit) (later : List Visit) :
    droppedNames (turn :: later) =
      if turn.dropped then turn.item.target :: droppedNames later else droppedNames later := by
  unfold droppedNames
  cases dropped : turn.dropped <;> simp [dropped]

theorem chained_append {names : List Text} {first second : List Visit} :
    Chained names (first ++ second) ↔
      Chained names first ∧ Chained (names.diff (droppedNames first)) second := by
  induction first generalizing names with
  | nil => simp [Chained, droppedNames]
  | cons turn later ih =>
    rw [List.cons_append, Chained, Chained, ih, droppedNames_cons, and_assoc]
    split <;> simp [List.diff_cons]

/-- Against the list the whole walk leaves, the names kept at every turn are still targets exactly
when no turn keeps a name that the later turns take out. -/
theorem kept_iff_noForwardDrop {names : List Text} {turns : List Visit}
    (chained : Chained names turns) :
    (∀ turn ∈ turns, turn.dropped = false → ∀ name, Keeps turn.item turn.targetList name →
      name ∈ names.diff (droppedNames turns)) ↔ NoForwardDrop turns := by
  induction turns generalizing names with
  | nil => simp [NoForwardDrop]
  | cons turn later ih =>
    obtain ⟨same, rest⟩ := chained
    have tail := ih rest
    rw [NoForwardDrop, List.forall_mem_cons, droppedNames_cons]
    cases dropped : turn.dropped with
    | true =>
      simp only [dropped, if_true, List.diff_cons] at tail ⊢
      simpa using tail
    | false =>
      simp only [dropped, Bool.false_eq_true, if_false, forall_const] at tail ⊢
      rw [tail, same]
      refine and_congr ?_ Iff.rfl
      refine forall₂_congr fun name _ => ?_
      rw [← List.count_pos_iff, count_diff, Nat.sub_pos_iff_lt]

/-- Targets only leave the list during the walk. -/
theorem subset_of_chained {names : List Text} {turns : List Visit} (chained : Chained names turns) :
    ∀ turn ∈ turns, names.diff (droppedNames turns) ⊆ turn.targetList := by
  induction turns generalizing names with
  | nil => simp
  | cons turn later ih =>
    obtain ⟨same, rest⟩ := chained
    rw [List.forall_mem_cons, droppedNames_cons, same]
    refine ⟨(List.diff_sublist ..).subset, fun other member => ?_⟩
    have tail := ih rest other member
    split <;> simp_all [List.diff_cons]

private theorem find?_restrict {targetList final names : List Text} (shrinks : final ⊆ targetList)
    {name : Text} (inside : name ∈ final) (found : names.find? (· ∈ targetList) = some name) :
    names.find? (· ∈ final) = some name := by
  induction names with
  | nil => contradiction
  | cons other names ih =>
    by_cases here : other ∈ targetList
    · simp only [List.find?_cons, here, decide_true, Option.some.injEq] at found
      simp [found, inside]
    · have away : other ∉ final := fun member => here (shrinks member)
      simp only [List.find?_cons, here, decide_false] at found
      simp [away, ih found]

private theorem selects_restrict {deps targetList final : List Text} (shrinks : final ⊆ targetList)
    {name : Text} (inside : name ∈ final) (selected : Selects deps targetList name) :
    Selects deps final name := by
  rcases selected with direct | ⟨dep, member, or, found⟩
  · exact .inl direct
  · exact .inr ⟨dep, member, or, find?_restrict shrinks inside found⟩

/-- The first alternative that is still a target was the first one before, unless the first one
before is no longer a target. -/
private theorem selects_extend {deps targetList final : List Text} (shrinks : final ⊆ targetList)
    (stay : ∀ first ∈ targetList, Selects deps targetList first → first ∈ final) {name : Text}
    (selected : Selects deps final name) : Selects deps targetList name := by
  rcases selected with direct | ⟨dep, member, or, found⟩
  · exact .inl direct
  · obtain ⟨first, before⟩ : ∃ first, (alternatives dep).find? (· ∈ targetList) = some first := by
      rw [← Option.isSome_iff_exists, List.find?_isSome]
      have target : name ∈ final := by simpa using List.find?_some found
      exact ⟨name, List.mem_of_find?_eq_some found, by simpa using shrinks target⟩
    have target : first ∈ targetList := by simpa using List.find?_some before
    have kept : first ∈ final := stay first target (.inr ⟨dep, member, or, before⟩)
    have same : first = name := Option.some.inj ((find?_restrict shrinks kept before).symm.trans found)
    exact .inr ⟨dep, member, or, same ▸ before⟩

/-- Filtering against fewer targets keeps the same names exactly when the names kept before are
among them. -/
theorem keeps_restrict {item : Item} {targetList final : List Text} (shrinks : final ⊆ targetList) :
    (∀ name, Keeps item targetList name ↔ Keeps item final name) ↔
      ∀ name, Keeps item targetList name → name ∈ final := by
  constructor
  · intro same name kept
    exact ((same name).mp kept).1
  · intro stay name
    have selectStay (plain : item.vtype.isChoice = false) : ∀ first ∈ targetList,
        Selects item.select targetList first → first ∈ final := fun first target selected =>
      stay first ⟨target, .inr (.inr (.inr (.inr (.inr (.inr ⟨plain, .inl selected⟩)))))⟩
    have implyStay (plain : item.vtype.isChoice = false) : ∀ first ∈ targetList,
        Selects item.imply targetList first → first ∈ final := fun first target selected =>
      stay first ⟨target, .inr (.inr (.inr (.inr (.inr (.inr ⟨plain, .inr selected⟩)))))⟩
    constructor
    · intro kept
      have inside := stay name kept
      refine ⟨inside, kept.2.imp_right (Or.imp_right (Or.imp_right (Or.imp_right (Or.imp_right
        (Or.imp_right (And.imp_right ?_))))))⟩
      exact Or.imp (selects_restrict shrinks inside) (selects_restrict shrinks inside)
    · rintro ⟨inside, reference⟩
      refine ⟨shrinks inside, reference.imp_right (Or.imp_right (Or.imp_right (Or.imp_right
        (Or.imp_right (Or.imp_right fun ⟨plain, selected⟩ => ⟨plain, ?_⟩)))))⟩
      exact selected.imp (selects_extend shrinks (selectStay plain))
        (selects_extend shrinks (implyStay plain))

theorem firstAlternative_eq {targetList subdeps : List Text} {chosen : Option Text}
    (success : firstAlternative targetList subdeps = some chosen) :
    chosen = (subdeps.map fun subdep => if subdep.head? = some '*' then subdep.drop 1 else subdep).find?
      (· ∈ targetList) := by
  fun_induction firstAlternative targetList subdeps with
  | case1 => simpa using success.symm
  | case2 => contradiction
  | case3 c rest subdeps subdep found =>
    have same : (if c = '*' then rest else c :: rest) ∈ targetList := found
    by_cases star : c = '*' <;> simp_all [subdep]
  | case4 c rest subdeps subdep missing ih =>
    have away : (if c = '*' then rest else c :: rest) ∉ targetList := missing
    rw [ih success]
    by_cases star : c = '*' <;> simp_all

/-- The names `select` or `imply` keeps. -/
theorem mem_checkSelect {targetList deps kept : List Text}
    (success : checkSelect targetList deps = some kept) (name : Text) :
    name ∈ kept ↔ name ∈ targetList ∧ Selects deps targetList name := by
  simp only [checkSelect, bind, Option.bind_eq_some_iff, Option.some.injEq] at success
  obtain ⟨chosen, traversed, rfl⟩ := success
  have first : some name ∈ chosen ↔
      ∃ dep ∈ deps, '|' ∈ dep ∧ (alternatives dep).find? (· ∈ targetList) = some name := by
    rw [mem_of_mapM traversed]
    constructor
    · rintro ⟨dep, member, found⟩
      obtain ⟨inside, or⟩ := List.mem_filter.mp member
      exact ⟨dep, inside, by simpa using or, (firstAlternative_eq found).symm⟩
    · rintro ⟨dep, inside, or, found⟩
      have member : dep ∈ deps.filter ('|' ∈ ·) := List.mem_filter.mpr ⟨inside, by simpa using or⟩
      obtain ⟨other, _, here⟩ := exists_of_mapM traversed member
      have same : other = some name := (firstAlternative_eq here).trans found
      exact ⟨dep, member, same ▸ here⟩
  have target : some name ∈ chosen → name ∈ targetList := by
    rw [first]
    rintro ⟨dep, _, _, found⟩
    simpa using List.find?_some found
  simp only [Selects, List.mem_append, List.mem_filter, List.mem_filterMap, id_eq, exists_eq_right,
    ← first, decide_eq_true_eq]
  constructor
  · rintro (⟨direct, inside⟩ | selected)
    · exact ⟨inside, .inl direct⟩
    · exact ⟨target selected, .inr selected⟩
  · rintro ⟨inside, direct | selected⟩
    · exact .inl ⟨direct, inside⟩
    · exact .inr selected

theorem checkRule_eq {targetList rule kept : List Text} {item : Item}
    (success : checkRule targetList item rule = some kept) : kept = rule.filter (· ∈ targetList) := by
  unfold checkRule at success
  split at success
  · next empty => split at success <;> simp_all
  · exact (Option.some.inj success).symm

theorem mem_checkWrule {targetList : List Text} {item : Item} {rules : List (List Text)}
    (success : checkWrule targetList item = some rules) (name : Text) :
    name ∈ rules.flatten ↔ name ∈ targetList ∧ name ∈ item.wrule.flatten := by
  simp only [checkWrule, bind, Option.bind_eq_some_iff, Option.some.injEq] at success
  obtain ⟨filtered, traversed, rfl⟩ := success
  simp only [List.mem_flatten, List.mem_filter]
  constructor
  · rintro ⟨kept, ⟨member, _⟩, inside⟩
    obtain ⟨rule, here, found⟩ := (mem_of_mapM traversed).mp member
    rw [checkRule_eq found, List.mem_filter] at inside
    exact ⟨by simpa using inside.2, rule, here, inside.1⟩
  · rintro ⟨target, rule, here, inside⟩
    obtain ⟨kept, member, found⟩ := exists_of_mapM traversed here
    have stays : name ∈ kept := by
      rw [checkRule_eq found, List.mem_filter]
      exact ⟨inside, by simpa using target⟩
    exact ⟨kept, ⟨member, by simpa using List.ne_nil_of_mem stays⟩, stays⟩

/-- Filtering leaves the references the item keeps, whether `asdeps` is filtered or not. -/
theorem filterItem_refs {strict : Bool} {targetList : List Text} {item filtered : Item}
    (success : filterItem strict targetList item = some filtered) (name : Text) :
    name ∈ refs (if item.vtype.isChoice then { filtered with select := [], imply := [] } else filtered) ↔
      Keeps item targetList name := by
  simp only [filterItem, bind, Option.bind_eq_some_iff] at success
  obtain ⟨wrule, rules, select, selected, imply, implied, result⟩ := success
  cases result
  have ideps : name ∈ (item.ideps.filter (idepName · ∈ targetList)).map idepName ↔
      name ∈ targetList ∧ name ∈ item.ideps.map idepName := by
    simp only [List.mem_map, List.mem_filter, decide_eq_true_eq]
    constructor
    · rintro ⟨dep, ⟨member, target⟩, rfl⟩
      exact ⟨target, dep, member, rfl⟩
    · rintro ⟨target, dep, member, rfl⟩
      exact ⟨dep, ⟨member, target⟩, rfl⟩
  unfold Keeps refs
  cases choice : item.vtype.isChoice with
  | true =>
    simp only [if_true, List.mem_append, List.not_mem_nil, List.mem_filter, decide_eq_true_eq, ideps,
      mem_checkWrule rules]
    by_cases target : name ∈ targetList <;> simp [target, or_assoc]
  | false =>
    simp only [Bool.false_eq_true, if_false, List.mem_append, List.mem_filter, decide_eq_true_eq, ideps,
      mem_checkWrule rules, mem_checkSelect selected, mem_checkSelect implied]
    by_cases target : name ∈ targetList
    · simp only [target, true_and, and_true]
      tauto
    · simp [target]

/-- Filtering an item first changes neither the recipes it takes nor the state. -/
theorem checkChoice_frame {pokyNames : List Text} {item filtered : Item} {st : CheckState}
    (sameType : filtered.vtype = item.vtype) (sameTargets : filtered.targets = item.targets) :
    (checkChoice pokyNames filtered st).2 = (checkChoice pokyNames item st).2 ∧
      (checkChoice pokyNames filtered st).1.vtype = item.vtype ∧
      (checkChoice pokyNames filtered st).1.target = filtered.target ∧
      refs (checkChoice pokyNames filtered st).1 =
        refs (if item.vtype.isChoice then { filtered with select := [], imply := [] } else filtered) := by
  unfold checkChoice
  rw [sameType, sameTargets]
  split
  · exact ⟨rfl, rfl, rfl, rfl⟩
  · exact ⟨rfl, sameType, rfl, rfl⟩

theorem chooseTargets_recipes {targetList pokyNames deps : List Text} {poky : Poky} :
    ∀ recipe ∈ (chooseTargets targetList pokyNames deps poky).2.1, recipe.vtype = .package := by
  induction deps generalizing poky with
  | nil => simp [chooseTargets]
  | cons dep deps ih =>
    unfold chooseTargets
    split
    · exact ih
    · split
      · exact ih
      · next recipe found =>
        have member : recipe ∈ poky.pokyList := by
          split at found
          · exact List.mem_of_find?_eq_some found
          · contradiction
        intro other inside
        rcases List.mem_cons.mp inside with rfl | inside
        · exact poky.recipes _ member
        · exact ih other inside

theorem checkChoice_recipes {pokyNames : List Text} {item : Item} {st : CheckState} :
    (∀ recipe ∈ (checkChoice pokyNames item st).2.1, recipe.vtype = .package) ∧
      (checkChoice pokyNames item st).2.2.targetList = st.targetList := by
  unfold checkChoice
  split
  · exact ⟨chooseTargets_recipes, rfl⟩
  · exact ⟨by simp, rfl⟩

/-- What the turns of a walk say about the state it leads to and the items it leaves. -/
structure Traces (turns : List Visit) (st st' : CheckState) (left : List Item) : Prop where
  chained : Chained st.targetList turns
  final : st'.targetList = st.targetList.diff (droppedNames turns)
  kept : ∀ targets : List Text, (∀ item ∈ left, ∀ name ∈ refs item, name ∈ targets) ↔
    ∀ turn ∈ turns, turn.dropped = false → ∀ name, Keeps turn.item turn.targetList name → name ∈ targets

theorem Traces.append {first second : List Visit} {st st₁ st₂ : CheckState} {left right : List Item}
    (before : Traces first st st₁ left) (after : Traces second st₁ st₂ right) :
    Traces (first ++ second) st st₂ (left ++ right) where
  chained := by
    rw [chained_append, ← before.final]
    exact ⟨before.chained, after.chained⟩
  final := by rw [after.final, before.final, droppedNames_append, List.diff_append]
  kept targets := by
    simp only [List.forall_mem_append, before.kept targets, after.kept targets]

theorem Traces.ofItem {item left : Item} {st st' : CheckState} (same : st'.targetList = st.targetList)
    (kept : ∀ name, name ∈ refs left ↔ Keeps item st.targetList name) :
    Traces [⟨item, st.targetList, false⟩] st st' [left] where
  chained := ⟨rfl, trivial⟩
  final := by simp [droppedNames, same]
  kept targets := by simp [kept]

theorem Traces.ofDrop {item : Item} {st st' : CheckState}
    (gone : st'.targetList = st.targetList.erase item.target) :
    Traces [⟨item, st.targetList, true⟩] st st' [] where
  chained := ⟨rfl, trivial⟩
  final := by simp [droppedNames, gone, List.diff_cons]
  kept targets := by simp

/-- Recipes that moved into a choice are filtered one after the other against one list. -/
theorem Traces.ofMoved {strict : Bool} {st : CheckState} {moved left : List Item}
    (recipes : ∀ recipe ∈ moved, recipe.vtype = .package)
    (success : moved.mapM (filterItem strict st.targetList) = some left) :
    Traces (moved.map (⟨·, st.targetList, false⟩)) st st left := by
  have related := mapM_eq_some_iff.mp success
  clear success
  induction related with
  | nil => exact ⟨trivial, by simp [droppedNames], by simp⟩
  | @cons recipe filtered moved left here _ ih =>
    have package := recipes recipe (List.mem_cons_self ..)
    have kept := filterItem_refs here
    simp only [package, VType.isChoice, Bool.false_eq_true, if_false] at kept
    exact (Traces.ofItem rfl kept).append (ih fun other member => recipes other (List.mem_cons_of_mem _ member))

/-- One turn of `check_item`: the item is taken out, or it stays with what is left of its members
and the recipes it takes. -/
theorem checkItem_cons {strict : Bool} {pokyNames : List Text} {item : Item} {member rest left : Forest}
    {st final : CheckState}
    (success : checkItem strict pokyNames (.cons item member rest) st = some (left, final)) :
    ∃ filtered, filterItem strict st.targetList item = some filtered ∧
      ((member = .nil ∧ (checkChoice pokyNames item st).2.1 = [] ∧
          (item.vtype.isChoice || item.vtype.isMenu) = true ∧
          checkItem strict pokyNames rest ((checkChoice pokyNames item st).2.2.drop item.target) =
            some (left, final)) ∨
        (¬ (member.isNil && (checkChoice pokyNames item st).2.1.isEmpty &&
            (item.vtype.isChoice || item.vtype.isMenu)) = true ∧
          ∃ memberLeft st₁ movedLeft restLeft,
            checkItem strict pokyNames member (checkChoice pokyNames item st).2.2 = some (memberLeft, st₁) ∧
            (checkChoice pokyNames item st).2.1.mapM (filterItem strict st₁.targetList) = some movedLeft ∧
            checkItem strict pokyNames rest st₁ = some (restLeft, final) ∧
            left = .cons (checkChoice pokyNames filtered st).1
              (memberLeft.append (.leaves movedLeft)) restLeft)) := by
  simp only [checkItem, bind, Option.bind_eq_some_iff] at success
  obtain ⟨filtered, found, success⟩ := success
  obtain ⟨sameType, sameTarget, sameTargets, _, _⟩ := filterItem_frame found
  obtain ⟨sameState, keptType, keptTarget, _⟩ := @checkChoice_frame pokyNames _ _ st sameType sameTargets
  refine ⟨filtered, found, ?_⟩
  rw [keptType, keptTarget, sameTarget, congrArg Prod.fst sameState, congrArg Prod.snd sameState] at success
  cases empty : member.isNil && (checkChoice pokyNames item st).2.1.isEmpty with
  | true =>
    obtain ⟨rfl, none⟩ : member = .nil ∧ (checkChoice pokyNames item st).2.1 = [] := by
      cases member <;> simp_all [Forest.isNil]
    cases virtual : item.vtype.isChoice || item.vtype.isMenu with
    | true =>
      simp only [empty, virtual, if_true] at success
      exact .inl ⟨rfl, none, rfl, success⟩
    | false =>
      simp only [empty, virtual, if_true, Bool.false_eq_true, if_false, Option.bind_eq_some_iff] at success
      obtain ⟨⟨restLeft, restFinal⟩, after, result⟩ := success
      cases result
      exact .inr ⟨by simp, .nil, _, [], restLeft, rfl, by rw [none]; rfl, after, rfl⟩
  | false =>
    simp only [empty, Bool.false_eq_true, if_false, Option.bind_eq_some_iff] at success
    obtain ⟨⟨memberLeft, st₁⟩, inside, movedLeft, filteredMoved, ⟨restLeft, restFinal⟩, after,
      result⟩ := success
    cases result
    exact .inr ⟨by simp, memberLeft, st₁, movedLeft, restLeft, inside, filteredMoved, after, rfl⟩

/-- The turns of the walk lead to the state that `check_item` leaves, and tell what the items it
leaves refer to. -/
theorem checkItem_traces {strict : Bool} {pokyNames : List Text} {forest left : Forest}
    {st final : CheckState} (success : checkItem strict pokyNames forest st = some (left, final)) :
    (visits pokyNames forest st).2 = final ∧
      Traces (visits pokyNames forest st).1 st final left.items := by
  induction forest generalizing st left final with
  | nil =>
    cases success
    exact ⟨rfl, trivial, by simp [visits, droppedNames], by simp [visits]⟩
  | cons item member rest memberTraces restTraces =>
    obtain ⟨recipes, sameList⟩ := @checkChoice_recipes pokyNames item st
    obtain ⟨filtered, found, ⟨rfl, none, virtual, after⟩ |
      ⟨stays, memberLeft, st₁, movedLeft, restLeft, inside, filteredMoved, after, rfl⟩⟩ :=
      checkItem_cons success
    · rw [visits, if_pos (by simp [Forest.isNil, none, virtual])]
      obtain ⟨state, traces⟩ := restTraces after
      refine ⟨state, (Traces.ofDrop ?_).append traces⟩
      rw [CheckState.drop, sameList]
    · rw [visits, if_neg stays]
      obtain ⟨sameType, _, sameTargets, _, _⟩ := filterItem_frame found
      obtain ⟨_, _, _, sameRefs⟩ := @checkChoice_frame pokyNames _ _ st sameType sameTargets
      have keptRefs := filterItem_refs found
      rw [← sameRefs] at keptRefs
      obtain ⟨memberState, memberTurns⟩ := memberTraces inside
      obtain ⟨restState, restTurns⟩ := restTraces after
      simp only [memberState]
      refine ⟨restState, ?_⟩
      have turn := Traces.ofItem sameList keptRefs
      have movedTurns := Traces.ofMoved recipes filteredMoved
      have all := turn.append ((memberTurns.append movedTurns).append restTurns)
      simpa using all

/-- Every name left in the references of the items is still a target, and every item is filtered
as the final target list would filter it, both exactly when no item keeps a name that the walk
takes out after it. -/
theorem checkItem_noDangling_iff (strict : Bool) (pokyNames : List Text) (forest left : Forest)
    (st final : CheckState) (success : checkItem strict pokyNames forest st = some (left, final)) :
    (NoDangling left final.targetList ↔ NoForwardDrop (visits pokyNames forest st).1) ∧
      (SameAgainst (visits pokyNames forest st).1 final.targetList ↔
        NoForwardDrop (visits pokyNames forest st).1) := by
  obtain ⟨-, traces⟩ := checkItem_traces success
  have stays := kept_iff_noForwardDrop traces.chained
  rw [← traces.final] at stays
  constructor
  · rw [NoDangling, traces.kept, stays]
  · rw [← stays, SameAgainst]
    refine forall₂_congr fun turn member => forall_congr' fun _ => keeps_restrict ?_
    rw [traces.final]
    exact subset_of_chained traces.chained turn member

def toolsUser : Item := { target := "user".toList, vsdeps := ["tools".toList] }

def toolsMenu : Item := { target := "tools".toList, vtype := .menuconfig }

def toolsState : CheckState where
  targetList := ["user".toList, "tools".toList]
  virtualList := ["tools".toList]
  poky := .none

/-- The menu comes first: the package loses its reference to it. -/
theorem toolsMenu_first_noDangling :
    NoDangling (.leaves [{ toolsUser with vsdeps := [] }]) ["user".toList] :=
  (checkItem_noDangling_iff true [] (.leaves [toolsMenu, toolsUser])
    (.leaves [{ toolsUser with vsdeps := [] }]) toolsState
    ⟨["user".toList], [], .none⟩ (by decide)).1.mpr (by
      refine ⟨nofun, fun _ name kept => ?_, trivial⟩
      have target : name ∈ ["user".toList] := kept.1
      rw [List.mem_singleton.mp target]
      decide)

/-- The package comes first: its reference outlives the menu. -/
theorem toolsMenu_last_dangles :
    ∃ left final, checkItem true [] (.leaves [toolsUser, toolsMenu]) toolsState = some (left, final) ∧
      ¬ NoDangling left final.targetList :=
  ⟨_, _, rfl, fun all => absurd (all toolsUser (by decide) "tools".toList (by decide)) (by decide)⟩

end CBuild.Soundness.Dangling
