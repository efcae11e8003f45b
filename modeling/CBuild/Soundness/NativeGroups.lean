import CBuild.Data.List
import CBuild.Model.GenBuildChain.NativeDeps
import CBuild.Model.GenBuildChain.OtherRules
import CBuild.Soundness.NativeTwins

/-! # Dependences of the targets of native twins

The native copy of a target `sub::dep` keeps the names before the double colon and drops the dependences, so
they survive only where there is nothing to keep.
-/

namespace CBuild.Soundness.NativeGroups

open CBuild.Text CBuild.Model.GenBuildChain CBuild.Machine.Make
open NativeTwins (twinOf)

variable {uniPackages : List Text} {target given : Text} {item nitem : Item} {groups : List (List Text × GroupDeps)}

/-- The dependences of a group for the twin: renamed, without the twin itself and without repetitions. -/
def twinDeps (uniPackages : List Text) (target : Text) : GroupDeps → List Text
  | .package => []
  | .own deps => ((deps.map (toNative uniPackages)).filter (· ≠ target)).eraseDups

/-- The groups with dependences of their own. -/
def groupsOf (item : Item) : Option (List (List Text × GroupDeps)) :=
  ((realTargets item).filter (':' ∈ ·)).mapM splitGroup

/-- The rules have one for the targets with these prerequisites, and one for their private system root. -/
structure Prerequisites (package : Text) (flags : PkgFlags) (rules : List OtherRule) (targets deps : List Text) :
    Prop where
  rule : ∃ rule ∈ rules, rule.targets = targets ∧ rule.recipe.isSome = true ∧
    rule.prereqs = if flags.psysroot then deps else deps.map (makeTarget · .install)
  psysroot : flags.psysroot = true → deps ≠ [] → ∃ rule ∈ rules, rule.targets = [subPsysroot package deps] ∧
    rule.prereqs = deps.map (makeTarget · .isysroot)

/-- The rules that the Makefile has for the groups of the twin have the renamed dependences of the groups of the
package. -/
def Survive (uniPackages : List Text) (flags : PkgFlags) (union matched : Bool) (packageDeps : List Text)
    (groups : List (List Text × GroupDeps)) (nitem : Item) : Prop :=
  ∃ plain groups', otherTargets nitem = some (plain ++ groups') ∧ (∀ group ∈ plain, group.2 = .package) ∧
    List.Forall₂ (fun group group' => ∀ targets ∈ subTargets nitem.target group.1,
      Prerequisites nitem.target flags (groupRules nitem.target flags union matched packageDeps [group']) targets
        (twinDeps uniPackages nitem.target group.2)) groups groups'

/-- The group lists nothing but the package itself. -/
def OwnOnly (uniPackages : List Text) (target : Text) : GroupDeps → Prop
  | .package => True
  | .own deps => ∀ dep ∈ deps, toNative uniPackages dep = target

theorem twinDeps_eq_nil {deps : GroupDeps} : twinDeps uniPackages target deps = [] ↔ OwnOnly uniPackages target deps := by
  cases deps with
  | package => exact iff_of_true rfl trivial
  | own deps =>
    rw [twinDeps, OwnOnly]
    constructor
    · intro empty dep member
      by_contra other
      have kept : toNative uniPackages dep ∈
          ((deps.map (toNative uniPackages)).filter (· ≠ target)).eraseDups :=
        List.mem_eraseDups.mpr (List.mem_filter.mpr ⟨List.mem_map_of_mem member, decide_eq_true other⟩)
      rw [empty] at kept
      cases kept
    · intro own
      have none : (deps.map (toNative uniPackages)).filter (· ≠ target) = [] := by
        rw [List.filter_eq_nil_iff]
        intro name member
        obtain ⟨dep, inside, rfl⟩ := List.mem_map.mp member
        rw [own dep inside]
        simp
      rw [none]
      rfl

theorem colon_not_ignored (colon : ':' ∈ given) : given ∉ ignoreTargets := by
  intro ignored
  have none : ∀ target ∈ ignoreTargets, ':' ∉ target := by decide
  exact none given ignored colon

theorem filter_colon (targets : List Text) :
    (targets.filter (· ∉ ignoreTargets)).filter (':' ∈ ·) = targets.filter (':' ∈ ·) := by
  rw [List.filter_filter]
  refine List.filter_congr fun given _ => ?_
  by_cases colon : ':' ∈ given
  · simp [colon, colon_not_ignored colon]
  · simp [colon]

/-- The copy of a group has its names and no dependences. -/
theorem nativeTarget_group {group : List Text × GroupDeps} (colon : ':' ∈ given)
    (split : splitGroup given = some group) :
    ∃ text, nativeTarget uniPackages target given = some [text] ∧ ':' ∈ text ∧
      splitGroup text = some (group.1, .own []) := by
  unfold splitGroup at split
  split at split
  · next first second others parts =>
    cases split
    refine ⟨first ++ "::".toList, ?_, List.mem_append_right _ (by decide), ?_⟩
    · rw [nativeTarget, if_pos colon, parts]
      dsimp only
      split
      · rfl
      · next none =>
        rw [not_not.mp none]
        exact congrArg (fun text => some [text]) (List.append_nil _)
    · obtain ⟨rest, -, -, absent⟩ := splitOn_cons_cons (by decide) parts
      have again : splitOn "::".toList (first ++ "::".toList) = [first, []] := by
        have early : ∀ tail, tail <:+ first → tail ≠ [] → ¬ "::".toList <+: tail ++ "::".toList ++ [] := by
          intro tail suffix given starts
          rw [List.append_nil] at starts
          exact absent tail suffix given (starts.trans (List.prefix_append ..))
        have split := splitOn_append (by decide) early
        rw [List.append_nil] at split
        rw [split]
        rfl
      rw [splitGroup, again]
      rfl
  · cases split

theorem groups_of_targets {targets : List Text} {lists : List (List Text)}
    (copied : targets.mapM (nativeTarget uniPackages target) = some lists)
    (split : (targets.filter (':' ∈ ·)).mapM splitGroup = some groups) :
    (lists.flatten.filter (':' ∈ ·)).mapM splitGroup = some (groups.map fun group => (group.1, .own [])) := by
  induction targets generalizing lists groups with
  | nil =>
    cases copied
    cases split
    rfl
  | cons given targets ih =>
    rw [List.mapM_cons] at copied
    obtain ⟨texts, first, copied⟩ := Option.bind_eq_some_iff.mp copied
    obtain ⟨rest, others, copied⟩ := Option.bind_eq_some_iff.mp copied
    cases copied
    rw [List.flatten_cons, List.filter_append]
    by_cases colon : ':' ∈ given
    · rw [List.filter_cons, if_pos (decide_eq_true colon), List.mapM_cons] at split
      obtain ⟨group, here, split⟩ := Option.bind_eq_some_iff.mp split
      obtain ⟨groups', later, split⟩ := Option.bind_eq_some_iff.mp split
      cases split
      obtain ⟨text, native, colon', split'⟩ := nativeTarget_group colon here
      cases first.symm.trans native
      rw [List.filter_singleton, decide_eq_true colon', cond_true, List.singleton_append, List.mapM_cons, split',
        ih others later]
      rfl
    · rw [List.filter_cons, if_neg (by simpa using colon)] at split
      have none : texts.filter (':' ∈ ·) = [] := by
        rw [nativeTarget, if_neg colon] at first
        cases first
        split <;> simp [colon]
      rw [none, List.nil_append]
      exact ih others split

/-- Without dependences there is one rule for the targets, without prerequisites. -/
theorem groupRules_empty {package : Text} {flags : PkgFlags} {union matched : Bool} {packageDeps names : List Text} :
    groupRules package flags union matched packageDeps [(names, .own [])] =
      (subTargets package names).map fun targets =>
        { targets, recipe := some [otherCommand package .stem] } := by
  have each (targets : List Text) : subRules package flags union matched packageDeps targets (.own []) =
      [{ targets, recipe := some [otherCommand package .stem] }] := by
    cases psysroot : flags.psysroot <;> simp [subRules, psysroot, depstr]
  rw [groupRules, List.flatMap_singleton]
  simp only [each]
  rw [← List.map_eq_flatMap]

theorem subTargets_ne_nil {package : Text} {names : List Text} (nonempty : names ≠ []) :
    subTargets package names ≠ [] := by
  obtain ⟨name, rest, rfl⟩ := List.exists_cons_of_ne_nil nonempty
  by_cases wild : '%' ∈ name
  · have member : name ∈ (name :: rest).filter ('%' ∈ ·) :=
      List.mem_filter.mpr ⟨List.mem_cons_self .., decide_eq_true wild⟩
    exact List.ne_nil_of_mem (List.mem_append_right _ (List.mem_map_of_mem member))
  · have member : name ∈ (name :: rest).filter ('%' ∉ ·) :=
      List.mem_filter.mpr ⟨List.mem_cons_self .., decide_eq_true wild⟩
    have given : (name :: rest).filter ('%' ∉ ·) ≠ [] := List.ne_nil_of_mem member
    unfold subTargets
    dsimp only
    rw [if_pos given]
    exact List.cons_ne_nil _ _

/-- Prerequisites without dependences are none. -/
theorem prerequisites_empty_iff {package : Text} {flags : PkgFlags} {union matched : Bool}
    {packageDeps names deps : List Text} (nonempty : names ≠ []) :
    (∀ targets ∈ subTargets package names, Prerequisites package flags
      (groupRules package flags union matched packageDeps [(names, .own [])]) targets deps) ↔ deps = [] := by
  rw [groupRules_empty]
  constructor
  · intro each
    obtain ⟨targets, member⟩ := List.exists_mem_of_ne_nil _ (@subTargets_ne_nil package _ nonempty)
    obtain ⟨rule, inside, -, -, prereqs⟩ := (each targets member).rule
    obtain ⟨targets', -, rfl⟩ := List.mem_map.mp inside
    split at prereqs
    · exact prereqs.symm
    · exact List.map_eq_nil_iff.mp prereqs.symm
  · rintro rfl targets member
    refine ⟨⟨_, List.mem_map_of_mem member, rfl, rfl, ?_⟩, fun _ given => absurd rfl given⟩
    split <;> rfl

theorem splitGroup_ne_nil {group : List Text × GroupDeps} (split : splitGroup given = some group) : group.1 ≠ [] := by
  unfold splitGroup at split
  split at split
  · cases split
    exact splitOn_ne_nil _ _
  · cases split

theorem getNativeDeps_targets {pathExists : Text → Bool} {reg reg' : Registry}
    (copied : Item.getNativeDeps pathExists uniPackages reg item = some (reg', nitem)) (package : item.vtype = .package) :
    nitem.target = item.target ++ nativePart ∧
      ∃ lists, item.targets.mapM (nativeTarget uniPackages nitem.target) = some lists ∧
        nitem.targets = lists.flatten := by
  simp only [Item.getNativeDeps, bind, Option.bind_eq_some_iff] at copied
  obtain ⟨targets, made, ideps, _, result⟩ := copied
  cases result
  rw [nativeTargets, if_neg (not_not.mpr package)] at made
  obtain ⟨lists, each, rfl⟩ := Option.map_eq_some_iff.mp made
  exact ⟨rfl, lists, each, rfl⟩

theorem package_of_plain {names : List Text} {group : List Text × GroupDeps}
    (member : group ∈ if names ≠ [] then [(names, GroupDeps.package)] else []) : group.2 = .package := by
  split at member
  · rw [List.mem_singleton.mp member]
  · cases member

/-- The dependences survive exactly when no group lists another package. -/
theorem survive_iff (pathExists : Text → Bool) (uniPackages : List Text) (reg reg' : Registry) (item nitem : Item)
    (flags : PkgFlags) (union matched : Bool) (packageDeps : List Text) (groups : List (List Text × GroupDeps))
    (package : item.vtype = .package) (given : groupsOf item = some groups)
    (copied : Item.getNativeDeps pathExists uniPackages reg item = some (reg', nitem)) :
    Survive uniPackages flags union matched packageDeps groups nitem ↔
      ∀ group ∈ groups, OwnOnly uniPackages nitem.target group.2 := by
  obtain ⟨-, lists, each, targets⟩ := getNativeDeps_targets copied package
  have native : groupsOf nitem = some (groups.map fun group => (group.1, .own [])) := by
    unfold groupsOf realTargets at given ⊢
    rw [filter_colon] at given ⊢
    rw [targets]
    exact groups_of_targets each given
  have others : otherTargets nitem = some ((if (realTargets nitem).filter (':' ∉ ·) ≠ [] then
      [((realTargets nitem).filter (':' ∉ ·), GroupDeps.package)] else []) ++
      groups.map fun group => (group.1, .own [])) := by
    unfold groupsOf at native
    rw [otherTargets, native]
    rfl
  have named (group : List Text × GroupDeps) (member : group ∈ groups) : group.1 ≠ [] := by
    obtain ⟨text, -, split⟩ := (CBuild.Data.mem_of_mapM given).mp member
    exact splitGroup_ne_nil split
  have canonical : Survive uniPackages flags union matched packageDeps groups nitem ↔
      List.Forall₂ (fun group group' => ∀ targets ∈ subTargets nitem.target group.1,
        Prerequisites nitem.target flags (groupRules nitem.target flags union matched packageDeps [group']) targets
          (twinDeps uniPackages nitem.target group.2)) groups (groups.map fun group => (group.1, .own [])) := by
    constructor
    · rintro ⟨plain, groups', split, -, all⟩
      have same := Option.some_inj.mp (split.symm.trans others)
      have long : groups'.length = (groups.map fun group => (group.1, GroupDeps.own [])).length := by
        rw [List.length_map, all.length_eq]
      rwa [(List.append_inj' same long).2] at all
    · exact fun all => ⟨_, _, others, fun group member => package_of_plain member, all⟩
  rw [canonical, List.forall₂_map_right_iff, List.forall₂_same]
  refine forall_congr' fun group => forall_congr' fun member => ?_
  rw [prerequisites_empty_iff (named group member), twinDeps_eq_nil]

def grouped (group : String) : Item where
  target := "app".toList
  targets := ["strip".toList, group.toList]

def noFlags : PkgFlags := pkgFlags {} [] (grouped "")

/-- A group that only lists the package itself loses nothing. -/
theorem self_survives :
    groupsOf (grouped "test:bench::app") = some [(["test".toList, "bench".toList], .own ["app".toList])] ∧
    Survive [] noFlags false false [] [(["test".toList, "bench".toList], .own ["app".toList])]
      (twinOf (grouped "test:bench::app")) := by
  have given : groupsOf (grouped "test:bench::app") = some [(["test".toList, "bench".toList], .own ["app".toList])] := by
    decide
  refine ⟨given, (survive_iff (fun _ => false) [] {} {} (grouped "test:bench::app") _ noFlags false false [] _ rfl given
    (by with_unfolding_all rfl)).mpr ?_⟩
  refine List.forall_mem_singleton.mpr (List.forall_mem_singleton.mpr ?_)
  decide +kernel

/-- A group that lists another package has no dependences for the twin. -/
theorem zlib_lost :
    groupsOf (grouped "test:bench::zlib") = some [(["test".toList, "bench".toList], .own ["zlib".toList])] ∧
    (twinOf (grouped "test:bench::zlib")).targets = ["strip".toList, "test:bench::".toList] ∧
    ¬ Survive [] noFlags false false [] [(["test".toList, "bench".toList], .own ["zlib".toList])]
      (twinOf (grouped "test:bench::zlib")) := by
  have given : groupsOf (grouped "test:bench::zlib") = some [(["test".toList, "bench".toList], .own ["zlib".toList])] := by
    decide
  refine ⟨given, by decide +kernel, fun survive => ?_⟩
  have others : otherTargets (twinOf (grouped "test:bench::zlib")) = some ([(["strip".toList], .package)] ++
      [(["test".toList, "bench".toList], .own [])]) := by
    decide +kernel
  obtain ⟨plain, groups', split, -, all⟩ := survive
  have same := Option.some_inj.mp (split.symm.trans others)
  obtain ⟨-, rfl⟩ := List.append_inj' same all.length_eq.symm
  obtain ⟨here, -⟩ := List.forall₂_cons.mp all
  have none := (prerequisites_empty_iff (List.cons_ne_nil _ _)).mp here
  exact absurd none (by decide +kernel)

end CBuild.Soundness.NativeGroups
