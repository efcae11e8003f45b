import CBuild.Data.List
import CBuild.Model.GenBuildChain.GenMake

/-! # The order of the build

Every order of building a package that the rules permit compiles, and installs where the package
looks, what the package depends on, before it compiles the package. The dependences are followed
through empty packages, packages with a private system root and packages on the global one: each
step is a prerequisite, and the private system root is filled by the instance of make that the
package's own recipe starts.
-/

namespace CBuild.Soundness.BuildOrder

open Machine.Make Model.GenBuildChain

/-- A Makefile that `gen_make` writes. -/
structure Makefile where
  settings : SysrootSettings
  config : Config
  /-- the packages whose cache matches -/
  matched : Text → Bool
  finallyList : List Text
  actualList : List Item
  packages : List (List MakeRule)
  written : allPackageRules settings config matched finallyList actualList = some packages

def targetsOf (rules : List MakeRule) : List Text := rules.flatMap (·.targets)

def recipeOf (package : Text) (flags : PkgFlags) (matched : Bool) : Suffix → List MakeLine
  | .plain =>
    if flags.empty then [command package .beginNote, command package .endNote]
    else cacheStr package flags ++
      (if flags.deps && flags.psysroot then [psysrootLine package flags matched] else []) ++
      compileStr package flags
  | .single => cacheStr package flags ++ compileStr package flags
  | .psysroot => [command package .nothing]
  | .psysrootSingle => cacheStr package flags ++ [psysrootLine package flags matched]
  | .install | .installSingle =>
    if flags.empty then [command package .nothing]
    else [command package .sysrootDir, command package .gsysInstall]
  | .isysroot => [command package (if flags.empty then .nothing else .isysInstall)]

namespace Makefile

variable (m : Makefile)

def rules : List MakeRule :=
  finalRules m.config m.finallyList (m.actualList.map (·.target)) ++ m.packages.flatten

theorem genMake_eq :
    genMake m.settings m.config m.matched m.finallyList m.actualList = some m.rules := by
  rw [genMake, m.written]
  rfl

def flags (item : Item) : PkgFlags := pkgFlags m.settings m.finallyList item

/-- The packages have different names, no two give rules for the same target, and none gives rules
for `finaldeps`. -/
structure OwnTargets : Prop where
  distinct : (m.actualList.map (·.target)).Nodup
  disjoint : m.packages.Pairwise fun first second => ∀ target ∈ targetsOf first, target ∉ targetsOf second
  final : ∀ own ∈ m.packages, finaldeps ∉ targetsOf own

/-- The strong dependences of an enabled package are enabled. -/
def StrongEnabled : Prop :=
  ∀ item ∈ m.actualList, m.config.EnabledName item.target → ∀ dep ∈ item.asdeps, m.config.EnabledName dep

def Edge (package dep : Text) : Prop :=
  ∃ item ∈ m.actualList, item.target = package ∧ ∃ deps, makeDeps m.config item = some deps ∧ dep ∈ deps

def Prereq (target prereq : Text) : Prop := prereq ∈ prereqs m.rules target

/-- The rules of an enabled package with these dependences. -/
def ownRules (item : Item) (deps : List Text) : List MakeRule :=
  psysrootRules item.target (m.flags item) (m.matched item.target) deps ++
    allRules item.target (m.flags item) (m.matched item.target) deps ++
    installRules item.target (m.flags item) deps ++ isysrootRules item.target (m.flags item)

theorem makeDeps_enabled {config : Config} {item : Item} {deps : List Text}
    (made : makeDeps config item = some deps) {dep : Text} (member : dep ∈ deps) :
    config.EnabledName item.target ∧ (config.EnabledName dep ∨ dep ∈ item.asdeps) := by
  simp only [makeDeps, bind, Option.bind_eq_some_iff] at made
  obtain ⟨weak, found, result⟩ := made
  cases result
  split at member
  · next enabled =>
    refine ⟨enabled, ?_⟩
    rcases List.mem_append.mp member with inside | strong
    · obtain ⟨names, part, here⟩ := List.mem_flatten.mp inside
      obtain ⟨word, _, condition⟩ := (Data.mem_of_mapM found).mp part
      left
      unfold weakCondition at condition
      split at condition
      · simp only [bind, Option.bind_eq_some_iff] at condition
        obtain ⟨pair, _, condition⟩ := condition
        cases condition
        split at here
        · next both => exact List.mem_singleton.mp here ▸ both.1
        · simp at here
      · cases condition
        split at here
        · next both => exact List.mem_singleton.mp here ▸ both
        · simp at here
    · exact .inr strong
  · simp at member

theorem hasDeps_of_mem {config : Config} {item : Item} {deps : List Text}
    (made : makeDeps config item = some deps) {dep : Text} (member : dep ∈ deps) : hasDeps item = true := by
  by_contra none
  simp only [hasDeps, Bool.or_eq_true, decide_eq_true_eq, not_or, not_not] at none
  obtain ⟨⟨asdeps, awdeps⟩, ideps⟩ := none
  have empty : deps = [] := by simpa [makeDeps, asdeps, awdeps, ideps] using made.symm
  simp [empty] at member

variable {m} in
/-- The one recipe of each target of the package. -/
theorem own_recipe {item : Item} {deps : List Text} {rule : MakeRule} (inside : rule ∈ m.ownRules item deps) {suffix : Suffix}
    (names : makeTarget item.target suffix ∈ rule.targets) {lines : List MakeLine}
    (given : rule.recipe = some lines) :
    lines = recipeOf item.target (m.flags item) (m.matched item.target) suffix := by
  simp only [ownRules, List.mem_append] at inside
  rcases inside with ((psysroot | all) | install) | isysroot
  · simp only [psysrootRules] at psysroot
    grind [recipeOf, makeTarget_inj]
  · simp only [allRules] at all
    grind [recipeOf, makeTarget_inj]
  · simp only [installRules] at install
    grind [recipeOf, makeTarget_inj]
  · simp only [isysrootRules] at isysroot
    grind [recipeOf, makeTarget_inj]

section Package

variable {m} {item : Item} {deps : List Text} (member : item ∈ m.actualList)
  (enabled : m.config.EnabledName item.target) (made : makeDeps m.config item = some deps)

include member enabled made

theorem ownRules_mem : m.ownRules item deps ∈ m.packages := by
  obtain ⟨own, inside, found⟩ := Data.exists_of_mapM m.written member
  have same : packageRules m.settings m.config m.matched m.finallyList item =
      some (m.ownRules item deps) := by
    simp [packageRules, made, enabled, ownRules, flags]
  rw [same] at found
  exact Option.some.inj found ▸ inside

theorem rule_mem {rule : MakeRule} (own : rule ∈ m.ownRules item deps) : rule ∈ m.rules :=
  List.mem_append_right _ (List.mem_flatten.mpr ⟨_, ownRules_mem member enabled made, own⟩)

theorem prereq_of {target prereq : Text}
    (own : ∃ rule ∈ m.ownRules item deps, target ∈ rule.targets ∧ prereq ∈ rule.prereqs) :
    m.Prereq target prereq := by
  obtain ⟨rule, inside, names, needed⟩ := own
  exact mem_prereqs (rule_mem member enabled made inside) names needed

theorem install_plain : m.Prereq (makeTarget item.target .install) item.target := by
  refine prereq_of member enabled made ⟨⟨[makeTarget item.target .install],
    makeTarget item.target .plain :: deps.map (makeTarget · .install), none⟩, ?_, by simp, by simp⟩
  simp [ownRules, installRules]

section Dependence

variable {dep : Text} (needed : dep ∈ deps)

include needed

theorem install_dep : m.Prereq (makeTarget item.target .install) (makeTarget dep .install) := by
  refine prereq_of member enabled made ⟨⟨[makeTarget item.target .install],
    makeTarget item.target .plain :: deps.map (makeTarget · .install), none⟩, ?_, by simp,
    List.mem_cons_of_mem _ (List.mem_map_of_mem needed)⟩
  simp [ownRules, installRules]

theorem psysroot_dep : m.Prereq (makeTarget item.target .psysroot) (makeTarget dep .isysroot) := by
  have flagged : (m.flags item).deps = true := hasDeps_of_mem made needed
  refine prereq_of member enabled made ⟨⟨[makeTarget item.target .psysroot],
    deps.map (makeTarget · .isysroot), none⟩, ?_, by simp, List.mem_map_of_mem needed⟩
  simp [ownRules, psysrootRules, flagged]

theorem isysroot_psysroot :
    m.Prereq (makeTarget item.target .isysroot) (makeTarget item.target .psysroot) := by
  have flagged : (m.flags item).deps = true := hasDeps_of_mem made needed
  refine prereq_of member enabled made
    ⟨_, List.mem_append_right _ (List.mem_singleton_self _), List.mem_singleton_self _, ?_⟩
  simp [flagged]

/-- An empty package, and one with a private system root, waits for the dependence itself. -/
theorem prereq_direct (loose : (m.flags item).empty = true ∨ (m.flags item).psysroot = true) :
    m.Prereq item.target dep := by
  have flagged : (m.flags item).deps = true := hasDeps_of_mem made needed
  cases empty : (m.flags item).empty with
  | true =>
    refine prereq_of member enabled made ⟨⟨[makeTarget item.target .plain], deps,
      some [command item.target .beginNote, command item.target .endNote]⟩, ?_, by simp, needed⟩
    simp [ownRules, allRules, empty, flagged]
  | false =>
    have psysroot : (m.flags item).psysroot = true := by simpa [empty] using loose
    refine prereq_of member enabled made ⟨⟨[makeTarget item.target .plain], deps,
      some (cacheStr item.target (m.flags item) ++
        [psysrootLine item.target (m.flags item) (m.matched item.target)] ++
        compileStr item.target (m.flags item))⟩, ?_, by simp, needed⟩
    simp [ownRules, allRules, empty, flagged, psysroot]

/-- A package on the global system root waits until the dependence is installed there. -/
theorem prereq_install (full : (m.flags item).empty = false) (global : (m.flags item).psysroot = false) :
    m.Prereq item.target (makeTarget dep .install) := by
  have flagged : (m.flags item).deps = true := hasDeps_of_mem made needed
  refine prereq_of member enabled made ⟨⟨[makeTarget item.target .plain], deps.map (makeTarget · .install),
    some (cacheStr item.target (m.flags item) ++ compileStr item.target (m.flags item))⟩, ?_, by simp,
    List.mem_map_of_mem needed⟩
  simp [ownRules, allRules, full, flagged, global]

end Dependence

/-- A finally package that is not empty waits for `finaldeps`. -/
theorem prereq_final (full : (m.flags item).empty = false) (final : (m.flags item).final = true) :
    m.Prereq item.target finaldeps := by
  refine prereq_of member enabled made
    ⟨⟨[makeTarget item.target .plain], [finaldeps], none⟩, ?_, by simp, List.mem_singleton_self _⟩
  simp [ownRules, allRules, full, final]

/-- A recipe that the rules of the package give is the recipe of the target. -/
theorem recipe_own (own : m.OwnTargets) {suffix : Suffix}
    (given : ∃ rule ∈ m.ownRules item deps, makeTarget item.target suffix ∈ rule.targets ∧
      rule.recipe.isSome = true) :
    recipe m.rules (makeTarget item.target suffix) =
      recipeOf item.target (m.flags item) (m.matched item.target) suffix := by
  obtain ⟨rule, inside, names, some⟩ := given
  obtain ⟨lines, given⟩ := Option.isSome_iff_exists.mp some
  obtain rfl := own_recipe inside names given
  refine recipe_eq (rule_mem member enabled made inside) names given fun other here names' lines' given' => ?_
  rcases List.mem_append.mp here with final | package
  · simp only [finalRules] at final
    split at final
    · simp at final
    · obtain ⟨_, _, rfl⟩ := List.mem_map.mp final
      cases given'
  · obtain ⟨rules, among, here⟩ := List.mem_flatten.mp package
    have same : rules = m.ownRules item deps := by
      by_contra differ
      have symm : Std.Symm fun first second => ∀ target ∈ targetsOf first, target ∉ targetsOf second :=
        ⟨fun _ _ apart target late early => apart target early late⟩
      have apart := own.disjoint.forall among (ownRules_mem member enabled made) differ
      exact apart _ (List.mem_flatMap.mpr ⟨other, here, names'⟩) (List.mem_flatMap.mpr ⟨rule, inside, names⟩)
    exact own_recipe (same ▸ here) names' given'

theorem recipe_plain (own : m.OwnTargets) : recipe m.rules item.target =
    recipeOf item.target (m.flags item) (m.matched item.target) .plain := by
  have given : ∃ rule ∈ allRules item.target (m.flags item) (m.matched item.target) deps,
      makeTarget item.target .plain ∈ rule.targets ∧ rule.recipe.isSome = true := by
    unfold allRules
    cases (m.flags item).empty <;> cases (m.flags item).deps <;> cases (m.flags item).psysroot <;>
      cases (m.flags item).final <;> simp [-makeTarget_plain]
  obtain ⟨rule, inside, holds⟩ := given
  simpa using recipe_own member enabled made own
    ⟨rule, List.mem_append_left _ (List.mem_append_left _ (List.mem_append_right _ inside)), holds⟩

theorem recipe_install (own : m.OwnTargets) : recipe m.rules (makeTarget item.target .install) =
    recipeOf item.target (m.flags item) (m.matched item.target) .install := by
  have given : ∃ rule ∈ installRules item.target (m.flags item) deps,
      makeTarget item.target .install ∈ rule.targets ∧ rule.recipe.isSome = true :=
    ⟨_, List.mem_cons_of_mem _ (List.mem_singleton_self _), List.mem_cons_self .., rfl⟩
  obtain ⟨rule, inside, holds⟩ := given
  exact recipe_own member enabled made own
    ⟨rule, List.mem_append_left _ (List.mem_append_right _ inside), holds⟩

theorem recipe_isysroot (own : m.OwnTargets) : recipe m.rules (makeTarget item.target .isysroot) =
    recipeOf item.target (m.flags item) (m.matched item.target) .isysroot :=
  recipe_own member enabled made own
    ⟨_, List.mem_append_right _ (List.mem_singleton_self _), List.mem_singleton_self _, rfl⟩

end Package

variable {m}

theorem final_prereq {package : Text} (final : package ∈ m.finallyList) {item : Item}
    (member : item ∈ m.actualList) (enabled : m.config.EnabledName item.target)
    (native : isNative item.target = false) (notFinal : item.target ∉ m.finallyList) :
    m.Prereq finaldeps item.target := by
  refine @mem_prereqs _ _ _ _ ⟨[finaldeps], [item.target], none⟩ (List.mem_append_left _ ?_) _
    (List.mem_singleton_self _) _ (List.mem_singleton_self _)
  rw [finalRules, if_neg (List.ne_nil_of_mem final)]
  refine List.mem_map.mpr ⟨item.target, List.mem_filter.mpr ⟨List.mem_map_of_mem member, ?_⟩, rfl⟩
  simp [enabled, native, notFinal]

theorem made_of_mem {item : Item} (member : item ∈ m.actualList) :
    ∃ deps, makeDeps m.config item = some deps := by
  obtain ⟨own, _, found⟩ := Data.exists_of_mapM m.written member
  simp only [packageRules, bind, Option.bind_eq_some_iff] at found
  obtain ⟨deps, made, _⟩ := found
  exact ⟨deps, made⟩

theorem Edge.enabled {package dep : Text} (edge : m.Edge package dep) : m.config.EnabledName package := by
  obtain ⟨item, _, rfl, deps, made, needed⟩ := edge
  exact (makeDeps_enabled made needed).1

theorem Edge.dep_enabled (strong : m.StrongEnabled) {package dep : Text} (edge : m.Edge package dep) :
    m.config.EnabledName dep := by
  obtain ⟨item, member, rfl, deps, made, needed⟩ := edge
  obtain ⟨enabled, weak | asdep⟩ := makeDeps_enabled made needed
  · exact weak
  · exact strong item member enabled dep asdep

theorem reached_enabled (strong : m.StrongEnabled) {package dep : Text}
    (reached : Relation.TransGen m.Edge package dep) : m.config.EnabledName dep := by
  cases reached with
  | single edge => exact edge.dep_enabled strong
  | tail _ edge => exact edge.dep_enabled strong

/-- The installation of a package waits for the installations of all it reaches. -/
theorem install_path {package dep : Text} (edge : m.Edge package dep) :
    m.Prereq (makeTarget package .install) (makeTarget dep .install) := by
  obtain ⟨item, member, rfl, deps, made, needed⟩ := edge
  exact install_dep member (makeDeps_enabled made needed).1 made needed

/-- Filling a private system root passes from a package to what it depends on. -/
theorem isysroot_path {package dep : Text} (edge : m.Edge package dep) :
    Relation.TransGen m.Prereq (makeTarget package .isysroot) (makeTarget dep .isysroot) := by
  obtain ⟨item, member, rfl, deps, made, needed⟩ := edge
  have enabled := (makeDeps_enabled made needed).1
  exact .tail (.single (isysroot_psysroot member enabled made needed)) (psysroot_dep member enabled made needed)

/-- A package waits for each of its dependences, directly or through the installation. -/
theorem edge_path {package : Text} {dep : Item} (member : dep ∈ m.actualList)
    (enabled : m.config.EnabledName dep.target) (edge : m.Edge package dep.target) :
    Relation.TransGen m.Prereq package dep.target := by
  obtain ⟨item, inside, rfl, deps, made, needed⟩ := edge
  have above := (makeDeps_enabled made needed).1
  by_cases loose : (m.flags item).empty = true ∨ (m.flags item).psysroot = true
  · exact .single (prereq_direct inside above made needed loose)
  · rw [not_or, Bool.not_eq_true, Bool.not_eq_true] at loose
    obtain ⟨_, made'⟩ := made_of_mem member
    exact .tail (.single (prereq_install inside above made needed loose.1 loose.2))
      (install_plain member enabled made')

/-- A package waits for every package it reaches. -/
theorem reached_path {package name : Text} (reached : Relation.TransGen m.Edge package name) {dep : Item}
    (member : dep ∈ m.actualList) (same : dep.target = name) (enabled : m.config.EnabledName dep.target) :
    Relation.TransGen m.Prereq package name := by
  induction reached generalizing dep with
  | single edge =>
    subst same
    exact edge_path member enabled edge
  | tail _ edge ih =>
    subst same
    obtain ⟨middle, inside, rfl, rest⟩ := edge
    have edge : m.Edge middle.target dep.target := ⟨middle, inside, rfl, rest⟩
    exact (ih inside rfl edge.enabled).trans (edge_path member enabled edge)

end Makefile

section Orders

variable (m : Makefile) (order : List (Event Text))

/-- The target is made, and the command of the package has run if the package is not empty. -/
structure Finishes (inst : Instance Text) (target : Text) (item : Item) (command : Command)
    (event : Event Text) : Prop where
  made : Precedes order (.made inst target) event
  ran : (m.flags item).empty = false → ∃ line,
    (recipe m.rules target)[line]? = some (.run ⟨item.target, command⟩) ∧
      Precedes order (.ends inst target line) event

/-- The cache of a unified package matched, so nothing is compiled and no system root is prepared. -/
def CacheTaken (item : Item) : Bool :=
  (m.flags item).unified && (m.flags item).cache && m.matched item.target

/-- What a package needs of a dependence before the line of its recipe starts: the dependence is
compiled, and installed into the system root that the package uses. -/
structure Served (inst : Instance Text) (item : Item) (line : ℕ) (dep : Item) : Prop where
  compiled : Finishes m order inst dep.target dep .compile (.starts inst item.target line)
  global : (m.flags item).psysroot = false →
    Finishes m order inst (makeTarget dep.target .install) dep .gsysInstall (.starts inst item.target line)
  own : (m.flags item).psysroot = true → CacheTaken m item = false →
    ∃ call, (recipe m.rules item.target)[call]? = some (.make (makeTarget item.target .psysroot)) ∧
      Finishes m order ((item.target, call) :: inst) (makeTarget dep.target .isysroot) dep .isysInstall
        (.starts inst item.target line)

variable {m order}

theorem finishes_of_made (permitted : Permitted m.rules order) {inst : Instance Text} {target : Text}
    {item : Item} {command : Command} {event : Event Text} (made : Precedes order (.made inst target) event)
    (inside : (m.flags item).empty = false → .run ⟨item.target, command⟩ ∈ recipe m.rules target) :
    Finishes m order inst target item command event := by
  refine ⟨made, fun full => ?_⟩
  obtain ⟨line, here⟩ := List.mem_iff_getElem?.mp (inside full)
  obtain ⟨short, _⟩ := List.getElem?_eq_some_iff.mp here
  exact ⟨line, here, (permitted.ends_made short).trans made⟩

/-- The private system root is prepared by an earlier line than the compilation. -/
theorem call_before {package : Text} {flags : PkgFlags} (full : flags.empty = false) (deps : flags.deps = true)
    (psysroot : flags.psysroot = true) {matched : Bool} (prepared : (flags.unified && flags.cache && matched) = false)
    {line : ℕ} (compiles : (recipeOf package flags matched .plain)[line]? = some (.run ⟨package, .compile⟩)) :
    ∃ call < line, (recipeOf package flags matched .plain)[call]? =
      some (.make (makeTarget package .psysroot)) := by
  have recipe : recipeOf package flags matched .plain =
      cacheStr package flags ++ .make (makeTarget package .psysroot) :: compileStr package flags := by
    simp [recipeOf, full, deps, psysroot, psysrootLine, prepared]
  rw [recipe] at compiles ⊢
  refine ⟨(cacheStr package flags).length, ?_, by simp⟩
  by_contra early
  rcases Nat.lt_or_eq_of_le (Nat.le_of_not_lt early) with before | here
  · rw [List.getElem?_append_left before] at compiles
    have inside := List.mem_of_getElem? compiles
    unfold cacheStr at inside
    split at inside <;> simp [command] at inside
  · simp [here] at compiles

/-- Every permitted order compiles and installs what a package reaches before it compiles the package,
and compiles a finally package after all others that are neither native nor finally packages. -/
theorem built_in_order (m : Makefile) (own : m.OwnTargets) (strong : m.StrongEnabled)
    (order : List (Event Text)) (permitted : Permitted m.rules order) (item : Item)
    (member : item ∈ m.actualList) (enabled : m.config.EnabledName item.target)
    (full : (m.flags item).empty = false) (inst : Instance Text) (line : ℕ)
    (compiles : (recipe m.rules item.target)[line]? = some (.run ⟨item.target, .compile⟩)) :
    (∀ dep ∈ m.actualList, Relation.TransGen m.Edge item.target dep.target →
      Served m order inst item line dep) ∧
    (item.target ∈ m.finallyList → ∀ other ∈ m.actualList, m.config.EnabledName other.target →
      isNative other.target = false → other.target ∉ m.finallyList →
      Finishes m order inst other.target other .compile (.starts inst item.target line)) := by
  obtain ⟨deps, made⟩ := Makefile.made_of_mem member
  have starts : Precedes order (.ready inst item.target) (.starts inst item.target line) :=
    permitted.ready_starts line
  -- what is below the target is made before the line starts
  have below {target : Text} (path : Relation.TransGen m.Prereq item.target target) :
      Precedes order (.made inst target) (.starts inst item.target line) :=
    (permitted.path_made path).trans starts
  have compiled {other : Item} (inside : other ∈ m.actualList) (on : m.config.EnabledName other.target)
      (path : Relation.TransGen m.Prereq item.target other.target) :
      Finishes m order inst other.target other .compile (.starts inst item.target line) := by
    obtain ⟨_, made'⟩ := Makefile.made_of_mem inside
    refine finishes_of_made permitted (below path) fun full' => ?_
    rw [m.recipe_plain inside on made' own]
    simp [recipeOf, full', compileStr, command]
  refine ⟨fun dep inside reached => ?_, fun final other inside on native notFinal => ?_⟩
  · have on := Makefile.reached_enabled strong reached
    obtain ⟨_, made'⟩ := Makefile.made_of_mem inside
    obtain ⟨first, ⟨item', inside', same, deps', made'', needed⟩, rest⟩ :=
      Relation.TransGen.head'_iff.mp reached
    obtain rfl := List.inj_on_of_nodup_map own.distinct inside' member same
    refine ⟨compiled inside on (Makefile.reached_path reached inside rfl on), fun global => ?_, fun psysroot taken => ?_⟩
    · have path : Relation.TransGen m.Prereq item'.target (makeTarget dep.target .install) :=
        .head' (m.prereq_install member enabled made'' needed full global)
          (rest.lift (makeTarget · .install) fun _ _ => Makefile.install_path)
      refine finishes_of_made permitted (below path) fun full' => ?_
      rw [m.recipe_install inside on made' own]
      simp [recipeOf, full', command]
    · rw [m.recipe_plain member enabled made own] at compiles ⊢
      obtain ⟨call, early, calls⟩ :=
        call_before full (Makefile.hasDeps_of_mem made'' needed) psysroot taken compiles
      refine ⟨call, calls, finishes_of_made permitted ?_ fun full' => ?_⟩
      · have path : Relation.TransGen m.Prereq (makeTarget item'.target .psysroot)
            (makeTarget dep.target .isysroot) :=
          .head' (m.psysroot_dep member enabled made'' needed)
            (rest.lift' (makeTarget · .isysroot) fun _ _ edge => (Makefile.isysroot_path edge).to_reflTransGen)
        have calls' : (recipe m.rules item'.target)[call]? = some (.make (makeTarget item'.target .psysroot)) := by
          rw [m.recipe_plain member enabled made own]
          exact calls
        exact (permitted.path_made path).trans (permitted.ready_made.trans
          ((permitted.goal_made calls').trans (permitted.ends_starts early)))
      · rw [m.recipe_isysroot inside on made' own]
        simp [recipeOf, full', command]
  · have flagged : (m.flags item).final = true := by simpa [Makefile.flags, pkgFlags] using final
    exact compiled inside on (.tail (.single (m.prereq_final member enabled made full flagged))
      (Makefile.final_prereq final inside on native notFinal))

end Orders

/-- The Makefile that `gen_make` writes, when no condition is malformed. -/
def Makefile.ofItems (matched : Text → Bool) (config : Config) (finallyList : List Text)
    (actualList : List Item)
    (good : (allPackageRules {} config matched finallyList actualList).isSome = true) : Makefile where
  settings := {}
  config := config
  matched := matched
  finallyList := finallyList
  actualList := actualList
  packages := (allPackageRules {} config matched finallyList actualList).get good
  written := (Option.some_get good).symm

def package (name : String) (targets asdeps : List String) : Item :=
  { target := name.toList, targets := targets.map String.toList, asdeps := asdeps.map String.toList }

/-- The events of a target that is made by that many lines. -/
def wholeRun (inst : Instance Text) (target : Text) (lines : ℕ) : List (Event Text) :=
  .ready inst target :: (List.range lines).flatMap (fun line =>
    [.starts inst target line, .ends inst target line]) ++ [.made inst target]

/-- The events of a target until the line starts. -/
def runUntil (inst : Instance Text) (target : Text) (line : ℕ) : List (Event Text) :=
  .ready inst target :: (List.range line).flatMap (fun line =>
    [.starts inst target line, .ends inst target line]) ++ [.starts inst target line]

def privateApp : Makefile :=
  .ofItems (fun _ => false) (.enabling ["lib".toList, "app".toList] (by decide) (by decide)) []
    [package "lib" [] [], package "app" ["psysroot"] ["lib"]] (by decide)

/-- The first line of the package's recipe fills the system root before the third one compiles. -/
theorem privateApp_built :
    Served privateApp (wholeRun [] "lib".toList 3 ++
      [.ready [] "app".toList, .starts [] "app".toList 0] ++
      wholeRun [("app".toList, 0)] "lib_isysroot".toList 1 ++
      wholeRun [("app".toList, 0)] "app_psysroot".toList 0 ++
      [.ends [] "app".toList 0, .starts [] "app".toList 1, .ends [] "app".toList 1, .starts [] "app".toList 2])
      [] (package "app" ["psysroot"] ["lib"]) 2 (package "lib" [] []) := by
  have own : privateApp.OwnTargets := ⟨by decide, by decide +kernel, by decide +kernel⟩
  have strong : privateApp.StrongEnabled := by
    unfold Makefile.StrongEnabled
    decide +kernel
  refine (built_in_order privateApp own strong _ (by decide +kernel) (package "app" ["psysroot"] ["lib"])
    (by decide) (by decide) (by decide) [] 2 (by decide +kernel)).1 (package "lib" [] []) (by decide) (.single ?_)
  exact ⟨package "app" ["psysroot"] ["lib"], by decide, rfl, ["lib".toList], by decide +kernel, by decide⟩

/-- The dependences, and for a finally package every other package that is not native. -/
def dependences (m : Makefile) (item : Item) : List Text :=
  item.asdeps ++ item.awdeps ++ item.ideps.map idepName ++
    if item.target ∈ m.finallyList then
      (m.actualList.map (·.target)).filter fun dep => dep ≠ item.target ∧ isNative dep = false
    else []

def Depends (m : Makefile) (package dep : Text) : Prop :=
  ∃ item ∈ m.actualList, item.target = package ∧ dep ∈ dependences m item

def Acyclic (m : Makefile) : Prop := ∀ package, ¬ Relation.TransGen (Depends m) package package

theorem acyclic_of_rank (m : Makefile) (rank : Text → ℕ)
    (falls : ∀ item ∈ m.actualList, ∀ dep ∈ dependences m item, rank dep < rank item.target) : Acyclic m := by
  have below {package dep : Text} (path : Relation.TransGen (Depends m) package dep) : rank dep < rank package := by
    induction path with
    | single edge =>
      obtain ⟨item, member, rfl, needed⟩ := edge
      exact falls item member _ needed
    | tail _ edge ih =>
      obtain ⟨item, member, rfl, needed⟩ := edge
      exact (falls item member _ needed).trans ih
  exact fun package cycle => absurd (below cycle) (Nat.lt_irrefl _)

/-- Whatever the names of the packages, even when the cache matched, and for finally packages too. -/
def AlwaysServed (m : Makefile) : Prop :=
  ∀ (order : List (Event Text)), Permitted m.rules order → ∀ item ∈ m.actualList,
    m.config.EnabledName item.target → (m.flags item).empty = false → ∀ inst line,
    (recipe m.rules item.target)[line]? = some (.run ⟨item.target, .compile⟩) →
    (∀ dep ∈ m.actualList, Relation.TransGen m.Edge item.target dep.target →
      Finishes m order inst dep.target dep .compile (.starts inst item.target line) ∧
      ((m.flags item).psysroot = false → Finishes m order inst (makeTarget dep.target .install) dep
        .gsysInstall (.starts inst item.target line)) ∧
      ((m.flags item).psysroot = true → ∃ call,
        (recipe m.rules item.target)[call]? = some (.make (makeTarget item.target .psysroot)) ∧
        Finishes m order ((item.target, call) :: inst) (makeTarget dep.target .isysroot) dep
          .isysInstall (.starts inst item.target line))) ∧
    (item.target ∈ m.finallyList → ∀ other ∈ m.actualList, other.target ≠ item.target →
      m.config.EnabledName other.target → isNative other.target = false →
      Finishes m order inst other.target other .compile (.starts inst item.target line))

def twoFinal : Makefile :=
  .ofItems (fun _ => false) (.enabling ["image".toList, "image-native".toList] (by decide) (by decide))
    ["image".toList, "image-native".toList] [package "image" [] [], package "image-native" [] []] (by decide)

/-- The cache of a package with a private system root matched. -/
def cachedApp : Makefile :=
  .ofItems (· = "app".toList) (.enabling ["lib".toList, "app".toList] (by decide) (by decide)) []
    [package "lib" [] [], package "app" ["unified", "cache", "psysroot"] ["lib"]] (by decide)

/-- A package has the name of another's installation. -/
def namesake : Makefile :=
  .ofItems (fun _ => false)
    (.enabling ["lib".toList, "lib_install".toList, "app".toList] (by decide) (by decide)) []
    [package "lib" [] [], package "lib_install" [] [], package "app" [] ["lib"]] (by decide)

/-- A native finally package does not wait for a finally package that is not native. -/
theorem twoFinal_unordered : ¬ AlwaysServed twoFinal := by
  intro always
  let order : List (Event Text) := wholeRun [] finaldeps 0 ++ runUntil [] "image-native".toList 1
  have permitted : Permitted twoFinal.rules order := by decide +kernel
  have served := always order permitted (package "image-native" [] []) (by decide) (by decide) (by decide) [] 1
    (by decide +kernel)
  have image := served.2 (by decide) (package "image" [] []) (by decide) (by decide) (by decide)
    (by decide +kernel)
  exact absurd (image.made order.dropLast [] (by decide +kernel)) (by decide +kernel)

/-- When the cache of a unified package matched, its private system root is not prepared. -/
theorem cachedApp_unprepared : ¬ AlwaysServed cachedApp := by
  intro always
  let order : List (Event Text) := wholeRun [] "lib".toList 3 ++ runUntil [] "app".toList 3
  have permitted : Permitted cachedApp.rules order := by decide +kernel
  have served := always order permitted (package "app" ["unified", "cache", "psysroot"] ["lib"]) (by decide)
    (by decide) (by decide) [] 3 (by decide +kernel)
  have edge : cachedApp.Edge "app".toList "lib".toList :=
    ⟨package "app" ["unified", "cache", "psysroot"] ["lib"], by decide, rfl, ["lib".toList], by decide +kernel, by decide⟩
  obtain ⟨call, calls, _⟩ := (served.1 (package "lib" [] []) (by decide) (.single edge)).2.2 (by decide +kernel)
  exact absurd (List.mem_of_getElem? calls) (by decide +kernel)

/-- The recipe of a namesake replaces the installation. -/
theorem namesake_uninstalled : ¬ AlwaysServed namesake := by
  intro always
  let order : List (Event Text) :=
    wholeRun [] "lib".toList 3 ++ wholeRun [] "lib_install".toList 3 ++ runUntil [] "app".toList 1
  have permitted : Permitted namesake.rules order := by decide +kernel
  have served := always order permitted (package "app" [] ["lib"]) (by decide) (by decide) (by decide) [] 1
    (by decide +kernel)
  have edge : namesake.Edge "app".toList "lib".toList :=
    ⟨package "app" [] ["lib"], by decide, rfl, ["lib".toList], by decide +kernel, by decide⟩
  have installed := (served.1 (package "lib" [] []) (by decide) (.single edge)).2.1 (by decide +kernel)
  obtain ⟨line, runs, _⟩ := installed.ran (by decide +kernel)
  exact absurd (List.mem_of_getElem? runs) (by decide +kernel)

theorem acyclic_of_order (m : Makefile) (names : List Text)
    (falls : ∀ item ∈ m.actualList, ∀ dep ∈ dependences m item, names.idxOf dep < names.idxOf item.target) :
    Acyclic m :=
  acyclic_of_rank m names.idxOf falls

/-- Three builds with distinct packages, no circular dependences and enabled strong dependences that
are not always served. -/
theorem not_alwaysServed :
    (∀ m ∈ [twoFinal, cachedApp, namesake],
      (m.actualList.map (·.target)).Nodup ∧ Acyclic m ∧ m.StrongEnabled) ∧
    ¬ AlwaysServed twoFinal ∧ ¬ AlwaysServed cachedApp ∧ ¬ AlwaysServed namesake := by
  refine ⟨?_, twoFinal_unordered, cachedApp_unprepared, namesake_uninstalled⟩
  simp only [List.forall_mem_cons, Makefile.StrongEnabled]
  refine ⟨⟨by decide, acyclic_of_order _ ["image".toList, "image-native".toList] (by decide +kernel), by decide +kernel⟩,
    ⟨by decide, acyclic_of_order _ ["lib".toList, "app".toList] (by decide +kernel), by decide +kernel⟩,
    ⟨by decide, acyclic_of_order _ ["lib".toList, "lib_install".toList, "app".toList] (by decide +kernel),
      by decide +kernel⟩, List.forall_mem_nil _⟩

end CBuild.Soundness.BuildOrder
