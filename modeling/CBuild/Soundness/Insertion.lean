import CBuild.Model.GenBuildChain.AddItem
import CBuild.Soundness.MenuStack

/-! # An item is inserted once

A turn of the loop leaves it or pops a list. The item is appended to the first list that fits, and nothing else changes
but `refs`, whose lists stay lists of menus of one path.
-/

namespace CBuild.Soundness.Insertion

open CBuild.Text CBuild.Model.GenBuildChain Lists

variable {node : ℕ → Node} {item ref turns : ℕ} {st st' after : Lists} {top : List ℕ} {rest : List (List ℕ)}
  {parent : Option ℕ}

/-- Lists of menus, none of them empty and each of one path. -/
structure Stack (node : ℕ → Node) (refs : List (List ℕ)) : Prop where
  nonempty : ∀ level ∈ refs, level ≠ []
  menus : ∀ level ∈ refs, ∀ menu ∈ level, (node menu).vtype.isMenu = true
  onePath : ∀ level ∈ refs, ∀ menu ∈ level, ∀ other ∈ level, (node menu).path = (node other).path

/-- The item is appended to ItemList, or to the member list of one item on the stack; no other list changes. -/
def AppendedOnce (item : ℕ) (st after : Lists) : Prop :=
  (after.itemList = st.itemList ++ [item] ∧ after.member = st.member) ∨
  ∃ ref ∈ st.refs.flatten, after.itemList = st.itemList ∧ after.member ref = st.member ref ++ [item] ∧
    ∀ other, other ≠ ref → after.member other = st.member other

/-- The lists that calls have built. -/
inductive Built (node : ℕ → Node) : Lists → Prop
  | start {st : Lists} : st.refs = [] → Built node st
  | add {st after : Lists} {item turns : ℕ} : Built node st → addItemToList node item turns st = some after →
      Built node after

theorem Stack.tail (stack : Stack node (top :: rest)) : Stack node rest where
  nonempty level inside := stack.nonempty level (List.mem_cons_of_mem _ inside)
  menus level inside := stack.menus level (List.mem_cons_of_mem _ inside)
  onePath level inside := stack.onePath level (List.mem_cons_of_mem _ inside)

theorem Stack.cons (stack : Stack node rest) (nonempty : top ≠ [])
    (menus : ∀ menu ∈ top, (node menu).vtype.isMenu = true)
    (onePath : ∀ menu ∈ top, ∀ other ∈ top, (node menu).path = (node other).path) : Stack node (top :: rest) where
  nonempty := List.forall_mem_cons.mpr ⟨nonempty, stack.nonempty⟩
  menus := List.forall_mem_cons.mpr ⟨menus, stack.menus⟩
  onePath := List.forall_mem_cons.mpr ⟨onePath, stack.onePath⟩

/-- A menu opens a list of its own. -/
theorem Stack.open (stack : Stack node rest) (menu : (node item).vtype.isMenu = true) : Stack node ([item] :: rest) := by
  refine stack.cons (List.cons_ne_nil _ _) (fun other inside => ?_) fun other inside last inside' => ?_
  · rwa [List.mem_singleton.mp inside]
  · rw [List.mem_singleton.mp inside, List.mem_singleton.mp inside']

/-- A menu joins the list of its path. -/
theorem Stack.join (stack : Stack node (top :: rest)) (menu : (node item).vtype.isMenu = true) {last : ℕ}
    (inside : last ∈ top) (same : (node item).path = (node last).path) : Stack node ((top ++ [item]) :: rest) := by
  have here := List.mem_cons_self (a := top) (l := rest)
  have path (other : ℕ) (member : other ∈ top ++ [item]) : (node other).path = (node item).path := by
    rcases List.mem_append.mp member with old | new
    · exact (stack.onePath top here other old last inside).trans same.symm
    · rw [List.mem_singleton.mp new]
  refine stack.tail.cons (List.append_ne_nil_of_right_ne_nil _ (List.cons_ne_nil _ _)) (fun other member => ?_)
    fun other member other' member' => (path other member).trans (path other' member').symm
  rcases List.mem_append.mp member with old | new
  · exact stack.menus top here other old
  · rwa [List.mem_singleton.mp new]

theorem owner_mem (found : owner node item top = some ref) : ref ∈ top := List.mem_of_find?_eq_some found

theorem append_refs (st : Lists) (item : ℕ) (parent : Option ℕ) : (st.append item parent).refs = st.refs := by
  cases parent <;> rfl

theorem appended (inside : ∀ ref, parent = some ref → ref ∈ st.refs.flatten) :
    AppendedOnce item st (st.append item parent) := by
  cases parent with
  | none => exact .inl ⟨rfl, rfl⟩
  | some ref =>
    exact .inr ⟨ref, inside ref rfl, rfl, Function.update_self .., fun other apart => Function.update_of_ne apart ..⟩

/-- The lists after the item is appended, as the claim about a call says it. -/
structure Inserted (node : ℕ → Node) (item : ℕ) (st after : Lists) : Prop where
  once : AppendedOnce item st after
  stack : Stack node after.refs
  found : (node item).vtype.isMenu = true → item ∈ after.refs.flatten

/-- A list that is popped is in no result. -/
theorem Inserted.ofPop (inserted : Inserted node item st.pop after) : Inserted node item st after := by
  refine ⟨?_, inserted.stack, inserted.found⟩
  rcases inserted.once with all | ⟨ref, inside, itemList, here, others⟩
  · exact .inl all
  · have lower : ref ∈ st.refs.flatten := by
      obtain ⟨level, member, there⟩ := List.mem_flatten.mp inside
      exact List.mem_flatten.mpr ⟨level, List.mem_of_mem_tail member, there⟩
    exact .inr ⟨ref, lower, itemList, here, others⟩

theorem leave_inserted (stack : Stack node st.refs) (inside : ∀ ref, parent = some ref → ref ∈ st.refs.flatten) :
    Inserted node item st (leave node item st parent) := by
  have once := @appended item st parent inside
  unfold leave
  dsimp only
  by_cases menu : (node item).vtype.isMenu = true
  · rw [if_pos menu, append_refs]
    refine ⟨once, stack.open menu, fun _ => ?_⟩
    exact List.mem_flatten.mpr ⟨[item], List.mem_cons_self .., List.mem_singleton_self _⟩
  · rw [if_neg menu]
    exact ⟨once, by rwa [append_refs], fun other => absurd other menu⟩

/-- A turn gives the result, or it pops a list. -/
def Step (node : ℕ → Node) (item : ℕ) (st : Lists) : Option Turn → Prop
  | none => False
  | some (.again next) => ∃ top, st.refs = top :: next.refs ∧ next.itemList = st.itemList ∧ next.member = st.member
  | some (.leave next itemList) => next = st ∧ ∀ ref, itemList = some ref → ref ∈ st.refs.flatten
  | some (.returned after) => Inserted node item st after

/-- What follows the branch for menus, where a menu of the same path has joined the list. -/
theorem placeBelow_step {joined : List ℕ} {lists : Lists} (shape : st.refs = top :: rest) (stack : Stack node (joined :: rest))
    (lists_eq : lists = { st with refs := joined :: rest }) (found : (node item).vtype.isMenu = true → item ∈ joined) :
    Step node item st (placeBelow node item lists) := by
  subst lists_eq
  have on : (node item).vtype.isMenu = true → item ∈ (joined :: rest).flatten := fun menu =>
    List.mem_flatten.mpr ⟨joined, List.mem_cons_self .., found menu⟩
  unfold placeBelow
  cases rest with
  | nil => exact ⟨.inl ⟨rfl, rfl⟩, stack, on⟩
  | cons second rest =>
    dsimp only
    cases owned : owner node item second with
    | none => exact ⟨top, shape, rfl, rfl⟩
    | some ref =>
      have inside : ref ∈ st.refs.flatten := by
        rw [shape]
        exact List.mem_flatten.mpr ⟨second, List.mem_cons_of_mem _ (List.mem_cons_self ..), owner_mem owned⟩
      exact ⟨.inr ⟨ref, inside, rfl, Function.update_self .., fun other apart => Function.update_of_ne apart ..⟩, stack, on⟩

theorem turn_step (stack : Stack node st.refs) : Step node item st (turn node item st) := by
  unfold turn
  cases shape : st.refs with
  | nil => exact ⟨rfl, nofun⟩
  | cons top rest =>
    rw [shape] at stack
    dsimp only
    cases owned : owner node item top with
    | some ref =>
      refine ⟨rfl, fun other same => ?_⟩
      rw [shape, ← Option.some.inj same]
      exact List.mem_flatten.mpr ⟨top, List.mem_cons_self .., owner_mem owned⟩
    | none =>
      have nonempty := stack.nonempty top (List.mem_cons_self ..)
      have popped : Step node item st (some (.again st.pop)) := by
        refine ⟨top, ?_, rfl, rfl⟩
        unfold pop
        rw [shape]
        rfl
      rw [List.getLast?_eq_some_getLast nonempty]
      dsimp only [bind, Option.bind]
      by_cases inside : within (node item).path (node (top.getLast nonempty)).path = true
      · rw [if_pos inside]
        by_cases menu : (node item).vtype.isMenu = true
        · rw [if_pos menu]
          by_cases same : (node item).path = (node (top.getLast nonempty)).path
          · rw [if_pos same]
            exact placeBelow_step shape (stack.join menu (List.getLast_mem nonempty) same) rfl fun _ =>
              List.mem_append_right _ (List.mem_singleton_self _)
          · rw [if_neg same]
            exact popped
        · rw [if_neg menu]
          exact placeBelow_step shape stack (by rw [← shape]) fun other => absurd other menu
      · rw [if_neg inside]
        exact popped

/-- One turn for each list, and one more, are enough; the item is appended once and can be found by later items. -/
theorem addItemToList_inserted (stack : Stack node st.refs) (enough : st.refs.length < turns) :
    ∃ after, addItemToList node item turns st = some after ∧ AppendedOnce item st after ∧ Stack node after.refs ∧
      ((node item).vtype.isMenu = true → item ∈ after.refs.flatten) := by
  suffices inserted : ∃ after, addItemToList node item turns st = some after ∧ Inserted node item st after by
    obtain ⟨after, done, result⟩ := inserted
    exact ⟨after, done, result.once, result.stack, result.found⟩
  induction turns generalizing st with
  | zero => exact absurd enough (Nat.not_lt_zero _)
  | succ turns ih =>
    have step := @turn_step node item st stack
    unfold addItemToList
    cases done : turn node item st with
    | none => rw [done] at step; exact step.elim
    | some result =>
      rw [done] at step
      cases result with
      | again next =>
        obtain ⟨top, shape, itemList, member⟩ := step
        rw [shape] at stack enough
        obtain ⟨after, ran, inserted⟩ := @ih next stack.tail (Nat.lt_of_succ_lt_succ enough)
        refine ⟨after, ran, Inserted.ofPop ?_⟩
        have same : st.pop = next := by
          unfold pop
          rw [shape, List.tail_cons, ← itemList, ← member]
        rwa [same]
      | leave next itemList =>
        obtain ⟨rfl, inside⟩ := step
        exact ⟨_, rfl, leave_inserted stack inside⟩
      | returned after => exact ⟨after, rfl, step⟩

theorem addItemToList_mono {more : ℕ} (ran : addItemToList node item turns st = some after) (le : turns ≤ more) :
    addItemToList node item more st = some after := by
  induction turns generalizing st more with
  | zero => cases ran
  | succ turns ih =>
    obtain ⟨more, rfl⟩ : ∃ fewer, more = fewer + 1 := ⟨more - 1, by omega⟩
    unfold addItemToList at ran ⊢
    cases done : turn node item st with
    | none => rw [done] at ran; cases ran
    | some result =>
      rw [done] at ran
      cases result with
      | again next => exact ih ran (by omega)
      | leave next itemList => exact ran
      | returned next => exact ran

/-- Calls build lists of menus of one path. -/
theorem Built.stack (built : Built node st) : Stack node st.refs := by
  induction built with
  | start empty =>
    rw [empty]
    exact ⟨nofun, nofun, nofun⟩
  | @add st after item turns _ ran ih =>
    obtain ⟨result, done, -, stack, -⟩ := @addItemToList_inserted node item (turns + st.refs.length + 1) st ih (by omega)
    have more := @addItemToList_mono node item turns st after (turns + st.refs.length + 1) ran (by omega)
    cases done.symm.trans more
    exact stack

/-- A menu, a menu of the same directory, and a package below the second one. -/
private def three : ℕ → Node
  | 0 => ⟨"r/a".toList, "/a".toList, .menuconfig, "first".toList, []⟩
  | 1 => ⟨"r/a".toList, "/a/b".toList, .menuconfig, "second".toList, []⟩
  | _ => ⟨"r/a/c".toList, "/a/b/c".toList, .package, "third".toList, []⟩

theorem three_inserted : ∃ after, addItemToList three 2 3 { refs := [[1], [0]] } = some after ∧
    AppendedOnce 2 { refs := [[1], [0]] } after ∧ Stack three after.refs ∧
    ((three 2).vtype.isMenu = true → 2 ∈ after.refs.flatten) := by
  have empty : Stack three [] := ⟨nofun, nofun, nofun⟩
  have first : Stack three [[0]] := empty.open rfl
  exact @addItemToList_inserted three 2 3 { refs := [[1], [0]] } (first.open rfl) (by decide)

/-- The same stack, once as numbers and once as the items. -/
def Stands (node : ℕ → Node) (refs : List (List ℕ)) (levels : List Level) : Prop :=
  List.Forall₂ (fun menus level => menus.map node = level.menus) refs levels

theorem owner_stands {level : Level} (same : top.map node = level.menus) :
    level.owner (node item) = (owner node item top).map node := by
  unfold Level.owner owner
  rw [← same, List.find?_map]
  rfl

theorem last_stands {level : Level} (same : top.map node = level.menus) :
    ∃ last, top.getLast? = some last ∧ node last = level.last := by
  have last : level.menus.getLast? = some level.last := List.getLast?_eq_some_getLast level.nonempty
  rw [← same, List.getLast?_map] at last
  exact Option.map_eq_some_iff.mp last

/-- The item is appended where `findPlace` says, below an item on the stack, and `refs` afterwards stand for the levels. -/
structure PlacedAs (node : ℕ → Node) (item : ℕ) (st after : Lists) (place : Option Node × List Level)
    (parent : Option ℕ) : Prop where
  lists : after = { st.append item parent with refs := after.refs }
  found : parent.map node = place.1
  stands : Stands node after.refs place.2
  onStack : ∀ ref, parent = some ref → ref ∈ st.refs.flatten
  refs : ∀ menu ∈ after.refs.flatten, menu ∈ st.refs.flatten ∨ menu = item

theorem PlacedAs.ofPop {place : Option Node × List Level} (placed : PlacedAs node item st.pop after place parent) :
    PlacedAs node item st after place parent := by
  have below (menu : ℕ) (inside : menu ∈ st.pop.refs.flatten) : menu ∈ st.refs.flatten := by
    obtain ⟨level, member, there⟩ := List.mem_flatten.mp inside
    exact List.mem_flatten.mpr ⟨level, List.mem_of_mem_tail member, there⟩
  refine ⟨placed.lists.trans ?_, placed.found, placed.stands, fun ref same => below ref (placed.onStack ref same),
    fun menu inside => (placed.refs menu inside).imp_left (below menu)⟩
  cases parent <;> rfl

theorem leave_placed {levels : List Level} (stands : Stands node st.refs levels)
    (inside : ∀ ref, parent = some ref → ref ∈ st.refs.flatten) :
    PlacedAs node item st (leave node item st parent)
      (parent.map node, if (node item).vtype.isMenu then .single (node item) :: levels else levels) parent := by
  unfold leave
  dsimp only
  by_cases menu : (node item).vtype.isMenu = true
  · rw [if_pos menu, if_pos menu, append_refs]
    refine ⟨rfl, rfl, .cons rfl stands, inside, fun other there => ?_⟩
    rw [List.flatten_cons] at there
    exact (List.mem_append.mp there).symm.imp_right List.mem_singleton.mp
  · rw [if_neg menu, if_neg menu]
    exact ⟨rfl, rfl, by rwa [append_refs], inside, fun other there => Or.inl (by rwa [append_refs] at there)⟩

/-- A menu of the directory of the last menu joins its list, and nothing else does. -/
theorem joins_level {level : Level} {last : ℕ} {itemList : List ℕ} {member : ℕ → List ℕ}
    (same : top.map node = level.menus)
    (stays : ¬ ((node item).vtype.isMenu = true ∧ (node item).path ≠ (node last).path)) :
    ∃ (joined : List ℕ) (joinedLevel : Level),
      (if (node item).vtype.isMenu = true then
        if (node item).path = (node last).path then placeBelow node item ⟨itemList, member, (top ++ [item]) :: rest⟩
        else some (.again (pop ⟨itemList, member, top :: rest⟩))
      else placeBelow node item ⟨itemList, member, top :: rest⟩) =
        placeBelow node item ⟨itemList, member, joined :: rest⟩ ∧
      (if (node item).vtype.isMenu = true then level.push (node item) else level) = joinedLevel ∧
      joined.map node = joinedLevel.menus ∧ ∀ menu ∈ joined, menu ∈ top ∨ menu = item := by
  by_cases menu : (node item).vtype.isMenu = true
  · have path := not_not.mp (not_and.mp stays menu)
    refine ⟨top ++ [item], level.push (node item), ?_, if_pos menu, ?_, fun menu inside => ?_⟩
    · rw [if_pos menu, if_pos path]
    · rw [List.map_append, same]
      rfl
    · exact (List.mem_append.mp inside).imp_right List.mem_singleton.mp
  · exact ⟨top, level, if_neg menu, if_neg menu, same, fun menu inside => Or.inl inside⟩

theorem mem_flatten_joined {joined : List ℕ} (members : ∀ menu ∈ joined, menu ∈ top ∨ menu = item)
    (menu : ℕ) (inside : menu ∈ (joined :: rest).flatten) : menu ∈ (top :: rest).flatten ∨ menu = item := by
  rw [List.flatten_cons] at inside ⊢
  rcases List.mem_append.mp inside with here | lower
  · exact (members menu here).imp_left (List.mem_append_left _)
  · exact Or.inl (List.mem_append_right _ lower)

/-- The statements of the source find the place. -/
theorem addItemToList_findPlace {levels : List Level} (stands : Stands node st.refs levels)
    (enough : st.refs.length < turns) :
    ∃ after parent, addItemToList node item turns st = some after ∧
      PlacedAs node item st after (findPlace (node item) levels) parent := by
  obtain ⟨itemList, member, refs⟩ := st
  change Stands node refs levels at stands
  change refs.length < turns at enough
  induction stands generalizing turns with
  | nil =>
    obtain ⟨turns, rfl⟩ : ∃ fewer, turns = fewer + 1 := ⟨turns - 1, by omega⟩
    exact ⟨_, none, rfl, @leave_placed node item ⟨itemList, member, []⟩ none [] .nil nofun⟩
  | @cons top level rest levels same lower ih =>
    obtain ⟨turns, rfl⟩ : ∃ fewer, turns = fewer + 1 := ⟨turns - 1, by omega⟩
    obtain ⟨after, parent, ran, placed⟩ := @ih turns (Nat.lt_of_succ_lt_succ enough)
    have placed' : PlacedAs node item ⟨itemList, member, top :: rest⟩ after (findPlace (node item) levels) parent :=
      placed.ofPop
    have stands : Stands node (top :: rest) (level :: levels) := .cons same lower
    obtain ⟨last, ends, last_eq⟩ := last_stands same
    unfold findPlace addItemToList turn
    dsimp only
    rw [owner_stands same]
    cases owned : owner node item top with
    | some ref =>
      refine ⟨_, some ref, rfl, @leave_placed node item ⟨itemList, member, top :: rest⟩ (some ref) (level :: levels)
        stands fun other same => ?_⟩
      rw [← Option.some.inj same]
      exact List.mem_flatten.mpr ⟨top, List.mem_cons_self .., owner_mem owned⟩
    | none =>
      dsimp only [Option.map, bind, Option.bind]
      rw [ends, ← last_eq]
      dsimp only
      by_cases inside : within (node item).path (node last).path = true
      · rw [if_pos inside, if_pos inside]
        by_cases deeper : (node item).vtype.isMenu = true ∧ (node item).path ≠ (node last).path
        · -- the search in the list that just failed is repeated
          rw [if_pos deeper, if_pos deeper.1, if_neg deeper.2]
          exact ⟨after, parent, ran, placed'⟩
        rw [if_neg deeper]
        obtain ⟨joined, joinedLevel, turned, joins, standsJoined, members⟩ :=
          @joins_level node item top rest level last itemList member same deeper
        have opened := @mem_flatten_joined item top rest joined members
        rw [joins, turned]
        cases lower with
        | nil => exact ⟨_, none, rfl, rfl, rfl, .cons standsJoined .nil, nofun, opened⟩
        | @cons second level₂ rest levels same₂ lower =>
          unfold placeBelow
          dsimp only
          rw [owner_stands same₂]
          cases owned₂ : owner node item second with
          | none => exact ⟨after, parent, ran, placed'⟩
          | some ref =>
            refine ⟨_, some ref, rfl, rfl, rfl, .cons standsJoined (.cons same₂ lower), fun other same => ?_, opened⟩
            rw [← Option.some.inj same]
            exact List.mem_flatten.mpr ⟨second, List.mem_cons_of_mem _ (List.mem_cons_self ..), owner_mem owned₂⟩
      · rw [if_neg inside, if_neg inside]
        exact ⟨after, parent, ran, placed'⟩

end CBuild.Soundness.Insertion
