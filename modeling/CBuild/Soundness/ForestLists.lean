import CBuild.Soundness.Insertion

/-! # The forest that the calls build

Calls for different items give each item one place. ItemList has the items without a parent and each member list the
items of its owner, in the order of the calls; an owner is a menu that came before, so that every item is in the tree
of an item in ItemList.
-/

namespace CBuild.Soundness.ForestLists

open CBuild.Text CBuild.Model.GenBuildChain Lists MenuStack Insertion

def addAll (node : ℕ → Node) (items : List ℕ) (st : Lists) : Option Lists :=
  items.foldlM (fun st item => addItemToList node item (st.refs.length + 1) st) st

def perform (node : ℕ → Node) (items : List ℕ) : Menus :=
  items.foldl (fun st item => st.perform (.addItemToList (node item))) {}

/-- An item and the one that it is below. -/
def Below (items : List ℕ) (parent : ℕ → Option ℕ) (item ref : ℕ) : Prop := item ∈ items ∧ parent item = some ref

/-- The lists are those of the items with these parents, and each item is in the tree of one in ItemList. -/
structure Forest (node : ℕ → Node) (items : List ℕ) (parent : ℕ → Option ℕ) (st : Lists) : Prop where
  roots : st.itemList = items.filter fun item => parent item = none
  members : ∀ ref, st.member ref = items.filter fun item => parent item = some ref
  before : ∀ item ∈ items, ∀ ref, parent item = some ref → [ref, item].Sublist items
  owns : ∀ item ∈ items, ∀ ref, parent item = some ref →
    (node ref).vtype.isMenu = true ∧ within (node item).spath (node ref).spath = true
  rooted : ∀ item ∈ items, ∃ root ∈ st.itemList, Relation.ReflTransGen (Below items parent) item root
  placed : (perform node items).placed = items.map fun item => (node item, (parent item).map node)

/-- What the calls keep: the stack has menus that came before. -/
structure Kept (node : ℕ → Node) (items : List ℕ) (parent : ℕ → Option ℕ) (st : Lists) : Prop where
  forest : Forest node items parent st
  stack : Stack node st.refs
  stands : Stands node st.refs (perform node items).refs
  earlier : ∀ menu ∈ st.refs.flatten, menu ∈ items

variable {node : ℕ → Node} {items : List ℕ} {item ref : ℕ} {parent : ℕ → Option ℕ} {place : Option ℕ}
  {st after : Lists}

theorem perform_snoc (node : ℕ → Node) (items : List ℕ) (item : ℕ) : perform node (items ++ [item]) =
    ⟨(perform node items).placed ++ [(node item, (findPlace (node item) (perform node items).refs).1)],
      (findPlace (node item) (perform node items).refs).2⟩ := by
  unfold perform
  rw [List.foldl_append]
  rfl

/-- The new item is behind the others. -/
theorem filter_snoc (fresh : item ∉ items) (wanted : Option ℕ) :
    ((items ++ [item]).filter fun other => Function.update parent item place other = wanted) =
      items.filter (fun other => parent other = wanted) ++ if place = wanted then [item] else [] := by
  have old : (items.filter fun other => Function.update parent item place other = wanted) =
      items.filter fun other => parent other = wanted := by
    refine List.filter_congr fun other member => ?_
    have apart : other ≠ item := fun same => fresh (same ▸ member)
    rw [Function.update_of_ne apart]
  rw [List.filter_append, old, List.filter_singleton, Function.update_self]
  by_cases same : place = wanted
  · rw [if_pos same, decide_eq_true same]
    rfl
  · rw [if_neg same, decide_eq_false same]
    rfl

/-- An older item keeps its parent. -/
theorem parent_cases (fresh : item ∉ items) {other : ℕ} (member : other ∈ items ++ [item])
    (owned : Function.update parent item place other = some ref) :
    (other ∈ items ∧ parent other = some ref) ∨ (other = item ∧ place = some ref) := by
  rcases List.mem_append.mp member with old | new
  · have apart : other ≠ item := fun same => fresh (same ▸ old)
    rw [Function.update_of_ne apart] at owned
    exact Or.inl ⟨old, owned⟩
  · have same := List.mem_singleton.mp new
    rw [same, Function.update_self] at owned
    exact Or.inr ⟨same, owned⟩

theorem Below.snoc (fresh : item ∉ items) (child above : ℕ) (step : Below items parent child above) :
    Below (items ++ [item]) (Function.update parent item place) child above := by
  have apart : child ≠ item := fun same => fresh (same ▸ step.1)
  exact ⟨List.mem_append_left _ step.1, by rw [Function.update_of_ne apart]; exact step.2⟩

theorem Forest.append_itemList (forest : Forest node items parent st) (fresh : item ∉ items) :
    (st.append item place).itemList =
      (items ++ [item]).filter fun other => Function.update parent item place other = none := by
  rw [filter_snoc fresh, ← forest.roots]
  cases place with
  | none => rfl
  | some ref => exact (List.append_nil _).symm

theorem Forest.append_member (forest : Forest node items parent st) (fresh : item ∉ items) (ref : ℕ) :
    (st.append item place).member ref =
      (items ++ [item]).filter fun other => Function.update parent item place other = some ref := by
  rw [filter_snoc fresh, ← forest.members]
  cases place with
  | none => exact (List.append_nil _).symm
  | some above =>
    change Function.update st.member above (st.member above ++ [item]) ref = _
    by_cases same : ref = above
    · rw [same, Function.update_self, if_pos rfl]
    · rw [Function.update_of_ne same, if_neg fun equal => same (Option.some.inj equal).symm, List.append_nil]

/-- The new item is in ItemList, or in the tree of its owner. -/
theorem Forest.append_rooted (forest : Forest node items parent st) (fresh : item ∉ items)
    (owner : ∀ ref, place = some ref → ref ∈ items) : ∀ other ∈ items ++ [item],
    ∃ root ∈ (st.append item place).itemList,
      Relation.ReflTransGen (Below (items ++ [item]) (Function.update parent item place)) other root := by
  have roots : ∀ root ∈ st.itemList, root ∈ (st.append item place).itemList := by
    intro root inside
    cases place with
    | none => exact List.mem_append_left _ inside
    | some ref => exact inside
  intro other inside
  rcases List.mem_append.mp inside with old | new
  · obtain ⟨root, there, above⟩ := forest.rooted other old
    exact ⟨root, roots root there, Relation.ReflTransGen.mono (Below.snoc fresh) _ _ above⟩
  rw [List.mem_singleton.mp new]
  cases place with
  | none => exact ⟨item, List.mem_append_right _ (List.mem_singleton_self _), .refl⟩
  | some ref =>
    obtain ⟨root, there, above⟩ := forest.rooted ref (owner ref rfl)
    have step : Below (items ++ [item]) (Function.update parent item (some ref)) item ref :=
      ⟨List.mem_append_right _ (List.mem_singleton_self _), Function.update_self ..⟩
    exact ⟨root, roots root there, .head step (Relation.ReflTransGen.mono (Below.snoc fresh) _ _ above)⟩

/-- The owner is a menu that came before. -/
theorem Kept.owner (kept : Kept node items parent st)
    (placed : PlacedAs node item st after (findPlace (node item) (perform node items).refs) place)
    (same : place = some ref) : ref ∈ items ∧ (node ref).vtype.isMenu = true ∧
      within (node item).spath (node ref).spath = true := by
  have onStack := placed.onStack ref same
  obtain ⟨level, inside, here⟩ := List.mem_flatten.mp onStack
  have found : (findPlace (node item) (perform node items).refs).1 = some (node ref) := by
    rw [← placed.found, same]
    rfl
  exact ⟨kept.earlier ref onStack, kept.stack.menus level inside ref here,
    ((findPlace_placed (node item) (perform node items).refs).parent_mem found).2⟩

theorem Kept.append_placed (kept : Kept node items parent st) (fresh : item ∉ items)
    (found : place.map node = (findPlace (node item) (perform node items).refs).1) :
    (perform node (items ++ [item])).placed =
      (items ++ [item]).map fun other => (node other, (Function.update parent item place other).map node) := by
  have old : (items.map fun other => (node other, (Function.update parent item place other).map node)) =
      items.map fun other => (node other, (parent other).map node) := by
    refine List.map_congr_left fun other inside => ?_
    have apart : other ≠ item := fun same => fresh (same ▸ inside)
    rw [Function.update_of_ne apart]
  rw [perform_snoc, List.map_append, old, ← kept.forest.placed]
  dsimp only
  rw [← found, List.map_singleton, Function.update_self]

/-- One call. -/
theorem Kept.add (kept : Kept node items parent st) (fresh : item ∉ items) :
    ∃ after place, addItemToList node item (st.refs.length + 1) st = some after ∧
      Kept node (items ++ [item]) (Function.update parent item place) after := by
  obtain ⟨after, place, ran, placed⟩ :=
    @addItemToList_findPlace node item (st.refs.length + 1) st _ kept.stands (Nat.lt_succ_self _)
  obtain ⟨after', ran', -, stack, -⟩ :=
    @addItemToList_inserted node item (st.refs.length + 1) st kept.stack (Nat.lt_succ_self _)
  cases ran.symm.trans ran'
  have itemList : after.itemList = (st.append item place).itemList := by rw [placed.lists]
  have member : after.member = (st.append item place).member := by rw [placed.lists]
  refine ⟨after, place, ran, ⟨?_, ?_, ?_, ?_, ?_, kept.append_placed fresh placed.found⟩, stack, ?_, ?_⟩
  · exact itemList.trans (kept.forest.append_itemList fresh)
  · exact fun ref => (congrFun member ref).trans (kept.forest.append_member fresh ref)
  · intro other inside ref owned
    rcases parent_cases fresh inside owned with ⟨old, owned'⟩ | ⟨rfl, owned'⟩
    · exact (kept.forest.before other old ref owned').trans (List.sublist_append_left ..)
    · exact (List.singleton_sublist.mpr (kept.owner placed owned').1).append (List.Sublist.refl [other])
  · intro other inside ref owned
    rcases parent_cases fresh inside owned with ⟨old, owned'⟩ | ⟨rfl, owned'⟩
    · exact kept.forest.owns other old ref owned'
    · exact (kept.owner placed owned').2
  · rw [itemList]
    exact kept.forest.append_rooted fresh fun ref same => (kept.owner placed same).1
  · rw [perform_snoc]
    exact placed.stands
  · intro menu inside
    rcases placed.refs menu inside with old | rfl
    · exact List.mem_append_left _ (kept.earlier menu old)
    · exact List.mem_append_right _ (List.mem_singleton_self _)

theorem addAll_kept (kept : Kept node items parent st) {more : List ℕ} (distinct : (items ++ more).Nodup) :
    ∃ after parent', addAll node more st = some after ∧ Kept node (items ++ more) parent' after := by
  induction more generalizing items parent st with
  | nil => exact ⟨st, parent, rfl, by rwa [List.append_nil]⟩
  | cons item more ih =>
    have split : items ++ item :: more = (items ++ [item]) ++ more := by simp
    have fresh : item ∉ items := fun member =>
      (List.nodup_append.mp distinct).2.2 item member item (List.mem_cons_self ..) rfl
    obtain ⟨next, place, ran, kept'⟩ := kept.add fresh
    rw [split] at distinct ⊢
    obtain ⟨after, parent', done, kept''⟩ := ih kept' distinct
    refine ⟨after, parent', ?_, kept''⟩
    unfold addAll
    rw [List.foldlM_cons, ran]
    exact done

/-- Calls for different items end and build a forest of them, the one that the places describe. -/
theorem addAll_forest (distinct : items.Nodup) :
    ∃ after parent, addAll node items {} = some after ∧ Forest node items parent after := by
  have empty : Kept node [] (fun _ => none) {} :=
    ⟨⟨rfl, fun _ => rfl, nofun, nofun, nofun, rfl⟩, ⟨nofun, nofun, nofun⟩, .nil, nofun⟩
  obtain ⟨after, parent, ran, kept⟩ := @addAll_kept node [] (fun _ => none) {} empty items distinct
  exact ⟨after, parent, ran, kept.forest⟩

/-- A menu, a package below it, and one that is not. -/
private def apps : ℕ → Node
  | 0 => ⟨"r/apps".toList, "/apps".toList, .menuconfig, "apps".toList, []⟩
  | 1 => ⟨"r/apps/shell".toList, "/apps/shell".toList, .package, "shell".toList, []⟩
  | _ => ⟨"r/libs".toList, "/libs".toList, .package, "libs".toList, []⟩

theorem apps_forest : ∃ after parent, addAll apps [0, 1, 2] {} = some after ∧ Forest apps [0, 1, 2] parent after :=
  addAll_forest (by decide)

end CBuild.Soundness.ForestLists
