import CBuild.Soundness.ForestOnce

/-! # Menus own their directories

An item below a menu always lies within the menu's virtual path. The converse holds of every package
at whose placement the menus with such a path are still open, each the only one in its list: the menus
of a list are members of menus of the list below, so the first owner is below all of them.
-/

namespace CBuild.Soundness.MenuOwnership

open CBuild.Text CBuild.Machine CBuild.Model.GenBuildChain CBuild.Soundness.MenuStack
open CBuild.Soundness.ForestOnce

/-- The item is in the member list of the menu, or of an item in its subtree. -/
def InSubtree (placed : List (Node × Option Node)) (menu item : Node) : Prop :=
  Relation.TransGen (fun child parent => (child, some parent) ∈ placed) item menu

theorem InSubtree.mono {placed placed' : List (Node × Option Node)} (more : ∀ pair ∈ placed, pair ∈ placed')
    {menu item : Node} (inside : InSubtree placed menu item) : InSubtree placed' menu item :=
  Relation.TransGen.mono (fun child parent member => more (child, some parent) member) item menu inside

/-- The menus of a list are members of menus of the list below. -/
def Nested (placed : List (Node × Option Node)) : List Level → Prop
  | upper :: lower :: rest =>
    (∀ menu ∈ upper.menus, ∃ owner ∈ lower.menus, (menu, some owner) ∈ placed ∧
      within menu.spath owner.spath = true) ∧ Nested placed (lower :: rest)
  | _ => True

theorem Nested.tail {placed : List (Node × Option Node)} {top : Level} {rest : List Level}
    (nested : Nested placed (top :: rest)) : Nested placed rest := by
  cases rest with
  | nil => trivial
  | cons second lower => exact nested.2

theorem Nested.mono {placed placed' : List (Node × Option Node)} (more : ∀ pair ∈ placed, pair ∈ placed')
    {refs : List Level} (nested : Nested placed refs) : Nested placed' refs := by
  induction refs with
  | nil => trivial
  | cons top rest ih =>
    cases rest with
    | nil => trivial
    | cons second lower =>
      refine ⟨fun menu member => ?_, ih nested.2⟩
      obtain ⟨owner, inside, pair, path⟩ := nested.1 menu member
      exact ⟨owner, inside, more _ pair, path⟩

/-- An open menu is in the subtree of some menu of each list below. -/
theorem Nested.ancestor {placed : List (Node × Option Node)} {top : Level} {rest : List Level}
    (nested : Nested placed (top :: rest)) {menu : Node} (member : menu ∈ top.menus) {level : Level}
    (lower : level ∈ rest) : ∃ owner ∈ level.menus, InSubtree placed owner menu ∧
      within menu.spath owner.spath = true := by
  induction rest generalizing top menu with
  | nil => contradiction
  | cons second rest ih =>
    obtain ⟨owner, inside, here, path⟩ := nested.1 menu member
    rcases List.mem_cons.mp lower with rfl | lower
    · exact ⟨owner, inside, .single here, path⟩
    · obtain ⟨ancestor, member, above, path'⟩ := ih nested.2 inside lower
      exact ⟨ancestor, member, .head here above, within_trans path path'⟩

/-- A placement keeps the lists nested. -/
theorem Nested.placed {placed placed' : List (Node × Option Node)} (more : ∀ pair ∈ placed, pair ∈ placed')
    {item : Node} {refs refs' : List Level} {parent : Option Node} (place : Placed item refs parent refs')
    (here : (item, parent) ∈ placed') (nested : Nested placed refs) : Nested placed' refs' := by
  induction place with
  | empty =>
    unfold opened
    split <;> trivial
  | owned owner =>
    obtain ⟨member, path⟩ := mem_of_owner owner
    unfold opened
    split
    · refine ⟨fun menu new => ?_, nested.mono more⟩
      rw [List.mem_singleton.mp new]
      exact ⟨_, member, here, path⟩
    · exact nested.mono more
  | bottom _ _ => trivial
  | beside _ _ owner =>
    obtain ⟨member, path⟩ := mem_of_owner owner
    refine ⟨fun menu inside => ?_, nested.2.mono more⟩
    rcases mem_joined inside with old | ⟨rfl, _⟩
    · exact (nested.mono more).1 menu old
    · exact ⟨_, member, here, path⟩
  | pop _ _ ih => exact ih here nested.tail

/-- The menu is open, and of its list the only one that owns the item. -/
def OnlyOwner (refs : List Level) (item menu : Node) : Prop :=
  ∃ level ∈ refs, menu ∈ level.menus ∧ ∀ other ∈ level.menus, within item.spath other.spath = true → other = menu

/-- The only owner in its list is the parent, or above it. -/
theorem below_onlyOwner {placed : List (Node × Option Node)} {item menu : Node} {refs refs' : List Level}
    {parent : Option Node} (place : Placed item refs parent refs') (nested : Nested placed refs)
    (only : OnlyOwner refs item menu) (path : within item.spath menu.spath = true) :
    ∃ ref, parent = some ref ∧ (ref = menu ∨ InSubtree placed menu ref) := by
  have first {top : Level} {rest : List Level} {ref : Node} (nested : Nested placed (top :: rest))
      (owner : top.owner item = some ref) (only : OnlyOwner (top :: rest) item menu) :
      ref = menu ∨ InSubtree placed menu ref := by
    obtain ⟨member, inside⟩ := mem_of_owner owner
    obtain ⟨level, here, _, unique⟩ := only
    rcases List.mem_cons.mp here with rfl | lower
    · exact .inl (unique ref member inside)
    · obtain ⟨ancestor, member, above, path⟩ := nested.ancestor member lower
      exact .inr (unique ancestor member (within_trans inside path) ▸ above)
  have lower {top : Level} {rest : List Level} (owner : top.owner item = none)
      (only : OnlyOwner (top :: rest) item menu) : OnlyOwner rest item menu := by
    obtain ⟨level, here, member, unique⟩ := only
    rcases List.mem_cons.mp here with rfl | here
    · rw [not_within_of_owner owner member] at path
      cases path
    · exact ⟨level, here, member, unique⟩
  induction place with
  | empty =>
    obtain ⟨level, here, _⟩ := only
    contradiction
  | owned owner => exact ⟨_, rfl, first nested owner only⟩
  | bottom owner _ =>
    obtain ⟨level, here, _⟩ := lower owner only
    contradiction
  | beside owner _ second => exact ⟨_, rfl, first nested.tail second (lower owner only)⟩
  | pop owner _ ih => exact ih nested.tail (lower owner only)

variable {virtualList : List Node}

/-- What every run keeps: the lists are nested, open menus are not claimed, and an item that is not
claimed lies within its parent, which is not claimed either. -/
structure Stacked (virtualList : List Node) (st : Menus) : Prop where
  nested : Nested st.placed st.refs
  opened : ∀ menu ∈ menus st.refs, claimedBy virtualList menu = none
  within : ∀ item parent, (item, some parent) ∈ st.placed → claimedBy virtualList item = none →
    within item.spath parent.spath = true ∧ claimedBy virtualList parent = none

theorem Stacked.step {st : Menus} {call : Call} (stacked : Stacked virtualList st)
    (routed : Routed virtualList call) : Stacked virtualList (st.perform call) := by
  cases call with
  | choose choice item =>
    refine ⟨stacked.nested.mono fun _ old => List.mem_append_left _ old, stacked.opened,
      fun other parent member unclaimed => ?_⟩
    · rcases List.mem_append.mp member with old | new
      · exact stacked.within other parent old unclaimed
      · cases List.mem_singleton.mp new
        rw [routed] at unclaimed
        cases unclaimed
  | addItemToList item =>
    have place := findPlace_placed item st.refs
    refine ⟨?_, fun menu member => ?_, fun other parent member unclaimed => ?_⟩
    · exact stacked.nested.placed (fun _ old => List.mem_append_left _ old) place
        (List.mem_append_right _ (List.mem_singleton_self _))
    · rcases place.menus_subset member with old | ⟨rfl, _⟩
      · exact stacked.opened menu old
      · exact routed
    · rcases List.mem_append.mp member with old | new
      · exact stacked.within other parent old unclaimed
      · have pair : (other, some parent) = (item, (findPlace item st.refs).1) := List.mem_singleton.mp new
        obtain ⟨rfl, same⟩ := Prod.mk.inj pair
        obtain ⟨inside, path⟩ := place.parent_mem same.symm
        exact ⟨path, stacked.opened parent inside⟩
  | actual item => exact stacked

theorem stacked_run {calls : List Call} (routed : ∀ call ∈ calls, Routed virtualList call) :
    Stacked virtualList (run Menus.perform {} calls) := by
  have initial : Stacked virtualList {} := ⟨trivial, by simp [menus], by simp⟩
  have guarded : Guarded Menus.perform (fun _ => Routed virtualList) {} calls := guarded_of_forall _ routed
  exact guarded.invariant (fun _ _ => Stacked.step) initial

/-- Only what lies within the virtual path of a menu is in its subtree. -/
theorem within_of_inSubtree {st : Menus} (stacked : Stacked virtualList st) {menu item : Node}
    (unclaimed : claimedBy virtualList item = none) (inside : InSubtree st.placed menu item) :
    within item.spath menu.spath = true := by
  unfold InSubtree at inside
  induction inside using Relation.TransGen.head_induction_on with
  | single member => exact (stacked.within _ _ member unclaimed).1
  | head member _ ih =>
    obtain ⟨path, next⟩ := stacked.within _ _ member unclaimed
    exact within_trans path (ih next)

/-- Every menu placed so far whose virtual path contains that of the item is still open, and in its
list the only one. -/
def Open (st : Menus) (item : Node) : Prop :=
  ∀ menu parent, (menu, parent) ∈ st.placed → menu.vtype.isMenu = true →
    within item.spath menu.spath = true → OnlyOwner st.refs item menu

/-- Packages are placed while their menus are open. -/
def PlacedOpen (st : Menus) : Call → Prop
  | .addItemToList item => item.vtype = .package → Open st item
  | _ => True

/-- What is placed stays. -/
theorem placed_mono (st : Menus) (calls : List Call) :
    ∀ pair ∈ st.placed, pair ∈ (run Menus.perform st calls).placed := by
  induction calls generalizing st with
  | nil => exact fun pair member => member
  | cons call calls ih =>
    intro pair member
    refine ih _ pair ?_
    cases call with
    | choose => exact List.mem_append_left _ member
    | addItemToList => exact List.mem_append_left _ member
    | actual => exact member

/-- In a run in which packages are placed while their menus are open, a package is in the subtree of
a menu that was placed before it exactly when it lies within the menu's virtual path. -/
theorem inSubtree_iff_of_open {calls before after : List Call} {item menu : Node} {parent : Option Node}
    (routed : ∀ call ∈ calls, Routed virtualList call) (guarded : Guarded Menus.perform PlacedOpen {} calls)
    (split : calls = before ++ .addItemToList item :: after) (package : item.vtype = .package)
    (isMenu : menu.vtype.isMenu = true)
    (earlier : (menu, parent) ∈ (run Menus.perform {} before).placed) :
    InSubtree (run Menus.perform {} calls).placed menu item ↔ within item.spath menu.spath = true := by
  have unclaimed : claimedBy virtualList item = none := routed (.addItemToList item) (by simp [split])
  constructor
  · exact within_of_inSubtree (stacked_run routed) unclaimed
  · intro path
    have stacked := @stacked_run virtualList before fun call member =>
      routed call (by simp [split, member])
    rw [split, guarded_append] at guarded
    have only := guarded.2.1 package menu parent earlier isMenu path
    have place := findPlace_placed item (run Menus.perform {} before).refs
    obtain ⟨ref, same, above⟩ := below_onlyOwner place stacked.nested only path
    have ends : run Menus.perform {} calls =
        run Menus.perform ((run Menus.perform {} before).perform (.addItemToList item)) after := by
      rw [split, run_append, run_cons]
    have old : ∀ pair ∈ (run Menus.perform {} before).placed, pair ∈ (run Menus.perform {} calls).placed := by
      intro pair member
      rw [ends]
      exact placed_mono _ after pair (List.mem_append_left _ member)
    have here : (item, some ref) ∈ (run Menus.perform {} calls).placed := by
      rw [ends, ← same]
      exact placed_mono _ after _ (List.mem_append_right _ (List.mem_singleton_self _))
    rcases above with rfl | above
    · exact .single here
    · exact .head here (above.mono old)

/-- For the appends of every PathList: when every package is placed while the menus whose virtual path
contains its own are open, each the only one in its list, then every package that no choice claims is
in the subtree of exactly those of the earlier menus. -/
theorem menus_own_directories {tree : Tree} {uniPackages : List Text} {fuel : ℕ} {pathList : List PathPair}
    {calls : List Call} (added : addItems tree virtualList uniPackages fuel pathList = some calls)
    (guarded : Guarded Menus.perform PlacedOpen {} calls) :
    ∀ before item after, calls = before ++ .addItemToList item :: after → item.vtype = .package →
      ∀ menu parent, menu.vtype.isMenu = true → (menu, parent) ∈ (run Menus.perform {} before).placed →
        (InSubtree (run Menus.perform {} calls).placed menu item ↔ within item.spath menu.spath = true) :=
  fun _ _ _ split package _ _ isMenu earlier =>
    inSubtree_iff_of_open (addItems_complete added).routed guarded split package isMenu earlier

/-- What is only below one root item is in no other subtree. -/
theorem not_inSubtree {placed : List (Node × Option Node)} {menu owner item : Node} (other : owner ≠ menu)
    (only : ∀ pair ∈ placed, pair.1 = item → pair.2 = some owner)
    (root : ∀ pair ∈ placed, pair.1 = owner → pair.2 = none) : ¬ InSubtree placed menu item := by
  intro inside
  obtain ⟨parent, first, rest⟩ := Relation.TransGen.head'_iff.mp inside
  cases only _ first rfl
  rcases Relation.ReflTransGen.cases_head rest with equal | ⟨next, above, _⟩
  · exact other equal
  · cases root _ above rfl

/-- A directory with two menus, and a package in its sub-directory. -/
def menuTree (vdeps : List VDepsLine) : Tree where
  dirs path := if path = "top".toList then ["d".toList]
    else if path = "top/d".toList then ["sub".toList] else []
  vdeps path := if path = "top/d".toList then some vdeps else none
  deps path := if path = "top/d/sub".toList then some [.deps [] "app".toList []] else none
  continues _ := false
  replaceEnv path := path

def wideLine : VDepsLine := ⟨"menuconfig".toList, "wide".toList, [], by decide⟩
def deepLine : VDepsLine := ⟨"menuconfig".toList, "deep".toList, ["/sub".toList], by decide⟩

def wide : Node := ⟨"top/d".toList, "d".toList, .menuconfig, "wide".toList, []⟩
def deep : Node := ⟨"top/d".toList, "d/sub".toList, .menuconfig, "deep".toList, []⟩
def app : Node := ⟨"top/d/sub".toList, "d/sub".toList, .package, "app".toList, []⟩

def subPair : PathPair := ⟨"top/d/sub".toList, "d/sub".toList, []⟩
def widePair : PathPair := ⟨"top/d".toList, "d".toList, "wide".toList⟩
def deepPair : PathPair := ⟨"top/d".toList, "d/sub".toList, "deep".toList⟩

/-- The menu of the whole directory comes first, and the package is in both. -/
theorem wideFirst_owns : searchNormalDepends (menuTree [wideLine, deepLine]) [] ["top".toList] [] [] 4 =
      some ([wide, deep], [widePair, deepPair, subPair]) ∧
    ∃ calls, addItems (menuTree [wideLine, deepLine]) [wide, deep] [] 4 [widePair, deepPair, subPair] = some calls ∧
      InSubtree (run Menus.perform {} calls).placed wide app ∧
      InSubtree (run Menus.perform {} calls).placed deep app := by
  refine ⟨rfl, [.addItemToList wide, .addItemToList deep, .addItemToList app, .actual app], rfl, ?_⟩
  have guarded : Guarded Menus.perform PlacedOpen {}
      [.addItemToList wide, .addItemToList deep, .addItemToList app, .actual app] := by
    refine ⟨fun package => absurd package (by decide), fun package => absurd package (by decide), ?_, trivial, trivial⟩
    intro _ menu parent member _ path
    have placed : (menu, parent) ∈ [(wide, none), (deep, some wide)] := member
    have refs : (((({} : Menus).perform (.addItemToList wide)).perform (.addItemToList deep)).refs) =
        [.single deep, .single wide] := by rfl
    rw [refs]
    simp only [List.mem_cons, Prod.mk.injEq, List.not_mem_nil, or_false] at placed
    rcases placed with ⟨rfl, _⟩ | ⟨rfl, _⟩
    · exact ⟨.single wide, by simp, List.mem_singleton_self _, fun other inside _ => List.mem_singleton.mp inside⟩
    · exact ⟨.single deep, by simp, List.mem_singleton_self _, fun other inside _ => List.mem_singleton.mp inside⟩
  have added : addItems (menuTree [wideLine, deepLine]) [wide, deep] [] 4 [widePair, deepPair, subPair] =
      some [.addItemToList wide, .addItemToList deep, .addItemToList app, .actual app] := rfl
  have owns := menus_own_directories added guarded [.addItemToList wide, .addItemToList deep] app [.actual app] rfl rfl
  exact ⟨(owns wide none rfl (by decide +kernel)).mpr (by decide +kernel),
    (owns deep (some wide) rfl (by decide +kernel)).mpr (by decide +kernel)⟩

/-- The menu of the sub-directory comes first, and the package is only in that one. -/
theorem deepFirst_loses : searchNormalDepends (menuTree [deepLine, wideLine]) [] ["top".toList] [] [] 4 =
      some ([deep, wide], [deepPair, widePair, subPair]) ∧
    ∃ calls, addItems (menuTree [deepLine, wideLine]) [deep, wide] [] 4 [deepPair, widePair, subPair] = some calls ∧
      within app.spath wide.spath = true ∧ ¬ InSubtree (run Menus.perform {} calls).placed wide app := by
  refine ⟨rfl, [.addItemToList deep, .addItemToList wide, .addItemToList app, .actual app], rfl, by decide +kernel, ?_⟩
  have other : deep ≠ wide := by decide
  exact not_inSubtree other (by decide +kernel) (by decide +kernel)

end CBuild.Soundness.MenuOwnership
