import CBuild.Model.GenBuildChain.SetItemDeps

/-! # Filtering the forest of items

`Deps.check_item` walks the forest in order. It drops every reference to a name that is not in
the target list, gives choices the poky recipes they list, and takes a menu or a choice without
members out of its list, of the target list and of VirtualList. The target list shrinks while the
walk goes on. `none` is `sys.exit` or an index error.
-/

namespace CBuild.Model.GenBuildChain

open Text

/-- The items of a member list or of ItemList, each with its own member list. -/
inductive Forest
  | nil
  | cons (item : Item) (member rest : Forest)
deriving DecidableEq

namespace Forest

def isNil : Forest → Bool
  | nil => true
  | cons .. => false

def append : Forest → Forest → Forest
  | nil, other => other
  | cons item member rest, other => cons item member (rest.append other)

/-- Items without members. -/
def leaves : List Item → Forest
  | [] => nil
  | item :: items => cons item nil (leaves items)

def items : Forest → List Item
  | nil => []
  | cons item member rest => item :: member.items ++ rest.items

@[simp] theorem items_nil : nil.items = [] := rfl

@[simp] theorem items_cons (item : Item) (member rest : Forest) :
    (cons item member rest).items = item :: member.items ++ rest.items := rfl

@[simp] theorem items_append (first second : Forest) :
    (first.append second).items = first.items ++ second.items := by
  induction first with
  | nil => rfl
  | cons item member rest _ ih => simp [append, ih]

@[simp] theorem items_leaves (list : List Item) : (leaves list).items = list := by
  induction list with
  | nil => rfl
  | cons item list ih => simp [leaves, ih]

end Forest

def idepName (dep : Text) : Text := dep.takeWhile (· ≠ '@')

/-- `dep,cond = re.split(r'@+', dep)`; none when there are not two parts. -/
def splitIdep (idep : Text) : Option (Text × Text) :=
  let rest := idep.drop (idepName idep).length
  let condition := rest.dropWhile (· = '@')
  if rest ≠ [] ∧ '@' ∉ condition then some (idepName idep, condition) else none

theorem CondDep.idepName_text (cond : CondDep) : idepName cond.text = cond.dep.text := by
  rw [idepName, CondDep.text, List.takeWhile_append_of_pos]
  · cases cond.double <;> simp
  · intro c member
    simpa using fun same : c = '@' => cond.dep.not_mem (by decide) (same ▸ member)

theorem CondDep.splitIdep_text (cond : CondDep) :
    splitIdep cond.text = some (cond.dep.text, cond.condition.text) := by
  have plain : '@' ∉ cond.condition.text := cond.condition.not_mem (by decide)
  have tail : cond.condition.text.dropWhile (· = '@') = cond.condition.text := by
    obtain ⟨c, rest, same⟩ := List.exists_cons_of_ne_nil cond.condition.nonempty
    have other : c ≠ '@' := fun equal => plain (by rw [same, equal]; exact List.mem_cons_self ..)
    rw [same]
    simp [other]
  have rest : cond.text.drop cond.dep.text.length =
      (if cond.double then ['@', '@'] else ['@']) ++ cond.condition.text := List.drop_left
  unfold splitIdep
  rw [cond.idepName_text, rest]
  cases cond.double <;> simp [tail, plain]

/-- The first alternative of a select or imply token that is a target; none when an alternative is
empty. -/
def firstAlternative (targetList : List Text) : List Text → Option (Option Text)
  | [] => some none
  | [] :: _ => none
  | (c :: rest) :: subdeps =>
    let subdep := if c = '*' then rest else c :: rest
    if subdep ∈ targetList then some (some subdep) else firstAlternative targetList subdeps

/-- `select` and `imply`: the targets, then one alternative for each or-token. -/
def checkSelect (targetList deps : List Text) : Option (List Text) := do
  let chosen ← (deps.filter ('|' ∈ ·)).mapM fun dep =>
    firstAlternative targetList (splitOn (splitStr dep) dep)
  some (deps.filter (· ∈ targetList) ++ chosen.filterMap id)

/-- One rule of `wrule`: its alternatives that are targets. A package whose weak rule has none is an
error. -/
def checkRule (targetList : List Text) (item : Item) (rule : List Text) : Option (List Text) :=
  match rule.filter (· ∈ targetList) with
  | [] =>
    match item.vtype, rule.head? with
    | .package, none => none
    | .package, some dep => if dep ∈ item.awdeps then none else some []
    | _, _ => some []
  | kept => some kept

/-- `wrule`, without the rules that have no alternative left. -/
def checkWrule (targetList : List Text) (item : Item) : Option (List (List Text)) := do
  let rules ← item.wrule.mapM (checkRule targetList item)
  some (rules.filter (· ≠ []))

/-- The part of `check_item` that looks at one item's dependencies. `strict` is
`debug_mode or self.yocto_flag`: otherwise `asdeps` keeps every name. -/
def filterItem (strict : Bool) (targetList : List Text) (item : Item) : Option Item := do
  let wrule ← checkWrule targetList item
  let select ← checkSelect targetList item.select
  let imply ← checkSelect targetList item.imply
  let asdeps := if strict then item.asdeps.filter (· ∈ targetList) else item.asdeps
  let awdeps := item.awdeps.filter (· ∈ targetList)
  let ideps := item.ideps.filter (idepName · ∈ targetList)
  some { item with
    wrule, select, imply, asdeps, awdeps, ideps
    vsdeps := item.vsdeps.filter (· ∈ targetList)
    vwdeps := item.vwdeps.filter (· ∈ targetList)
    cdeps := item.cdeps.filter (· ∈ targetList)
    acount := item.acount + asdeps.length + awdeps.length + ideps.length }

theorem filterItem_frame {strict : Bool} {targetList : List Text} {item kept : Item}
    (success : filterItem strict targetList item = some kept) :
    kept.vtype = item.vtype ∧ kept.target = item.target ∧ kept.targets = item.targets ∧
      kept.awdeps = item.awdeps.filter (· ∈ targetList) ∧
      kept.ideps = item.ideps.filter (idepName · ∈ targetList) := by
  simp only [filterItem, bind, Option.bind_eq_some_iff] at success
  obtain ⟨wrule, _, select, _, imply, _, result⟩ := success
  cases result
  exact ⟨rfl, rfl, rfl, rfl, rfl⟩

/-- The poky recipes still in a menu of their own, and those that moved into a choice. They are
recipes that `search_yocto_depends` found, never virtual items. -/
structure Poky where
  pokyList : List Item
  pokyMoved : List Item
  recipes : ∀ item ∈ pokyList, item.vtype = .package
deriving DecidableEq

/-- No poky recipes. -/
def Poky.none : Poky := ⟨[], [], by simp⟩

/-- `self.PokyMoved.append(poky_item)` and `self.PokyList.remove(poky_item)`. -/
def Poky.move (poky : Poky) (recipe : Item) : Poky where
  pokyList := poky.pokyList.erase recipe
  pokyMoved := poky.pokyMoved ++ [recipe]
  recipes item member := poky.recipes item (List.mem_of_mem_erase member)

/-- The `targets` of a choice: targets stay, poky recipes of that name move into the choice. -/
def chooseTargets (targetList pokyNames : List Text) :
    List Text → Poky → List Text × List Item × Poky
  | [], poky => ([], [], poky)
  | dep :: deps, poky =>
    if dep ∈ targetList then
      let (targets, moved, poky) := chooseTargets targetList pokyNames deps poky
      (dep :: targets, moved, poky)
    else match if dep ∈ pokyNames then poky.pokyList.find? (·.target = dep) else none with
      | none => chooseTargets targetList pokyNames deps poky
      | some recipe =>
        let (targets, moved, poky) := chooseTargets targetList pokyNames deps (poky.move recipe)
        (dep :: targets, recipe :: moved, poky)

/-- What `check_item` reads and changes besides the forest. VirtualList is kept by name. -/
structure CheckState where
  targetList : List Text
  virtualList : List Text
  poky : Poky
deriving DecidableEq

/-- A choice keeps no select and no imply, and gains the poky recipes it lists. -/
def checkChoice (pokyNames : List Text) (item : Item) (st : CheckState) :
    Item × List Item × CheckState :=
  if item.vtype.isChoice then
    let (targets, moved, poky) := chooseTargets st.targetList pokyNames item.targets st.poky
    ({ item with targets, select := [], imply := [] }, moved, { st with poky })
  else (item, [], st)

/-- An empty menu or choice leaves the target list and VirtualList. -/
def CheckState.drop (st : CheckState) (target : Text) : CheckState :=
  { st with targetList := st.targetList.erase target, virtualList := st.virtualList.erase target }

/-- `check_item`. The poky recipes that join a choice are visited after its own members. -/
def checkItem (strict : Bool) (pokyNames : List Text) :
    Forest → CheckState → Option (Forest × CheckState)
  | .nil, st => some (.nil, st)
  | .cons item member rest, st => do
    let item ← filterItem strict st.targetList item
    let (item, moved, st) := checkChoice pokyNames item st
    if member.isNil && moved.isEmpty then
      if item.vtype.isChoice || item.vtype.isMenu then
        checkItem strict pokyNames rest (st.drop item.target)
      else do
        let (rest, st) ← checkItem strict pokyNames rest st
        some (.cons item .nil rest, st)
    else do
      let (member, st) ← checkItem strict pokyNames member st
      let moved ← moved.mapM (filterItem strict st.targetList)
      let (rest, st) ← checkItem strict pokyNames rest st
      some (.cons item (member.append (.leaves moved)) rest, st)

/-- The names that a recipe can depend on in `do_yocto_analysis`. -/
def yoctoTargets (actualList virtualList : List Item) : List Text :=
  actualList.map (·.target) ++ (virtualList.filter (! ·.vtype.isChoice)).map (·.target)

def yoctoCheck (actualList virtualList : List Item) (poky : Poky) (itemList : Forest) :
    Option (Forest × CheckState) :=
  checkItem true (poky.pokyList.map (·.target)) itemList
    ⟨yoctoTargets actualList virtualList, virtualList.map (·.target), poky⟩

end CBuild.Model.GenBuildChain
