import CBuild.Data.List
import CBuild.Model.GenBuildChain.Makefile

/-! # A closed Makefile

Every prerequisite, and every target that a recipe makes, has an explicit rule: what the rules of a package ask for is
known from its dependences, and which rules the dependences have is known from their kind.
-/

namespace CBuild.Soundness.ClosedMakefile

open CBuild.Text CBuild.Model.GenBuildChain CBuild.Machine.Make

variable {settings : SysrootSettings} {config : Config} {matched : Text → Bool} {finallyList : List Text}
  {actualList : List Item} {item other : Item} {rules own : List AnyRule} {rule : AnyRule}
  {package dep name target first second : Text} {deps reldeps : List Text} {groups : List (List Text × GroupDeps)}

def goalOf {ε : Type} : Line Text ε → Option Text
  | .make goal => some goal
  | .run _ => none

/-- What a rule asks for. -/
def wanted {ε : Type} (rule : Rule Text ε) : List Text := rule.prereqs ++ (rule.recipe.getD []).filterMap goalOf

/-- A rule that is no pattern rule makes the target. -/
def Explicit (rules : List AnyRule) (target : Text) : Prop := '%' ∉ target ∧ ∃ rule ∈ rules, target ∈ rule.targets

def Closed (rules : List AnyRule) : Prop := ∀ rule ∈ rules, ∀ target ∈ wanted rule, Explicit rules target

/-- A name of which the names of other targets are made. -/
def PlainId (name : Text) : Prop := '_' ∉ name ∧ '%' ∉ name

/-- The dependences that a group of targets lists itself. -/
def ownDeps : GroupDeps → List Text
  | .package => []
  | .own deps => deps

/-- An enabled package. -/
def Enabled (config : Config) (actualList : List Item) (name : Text) : Prop :=
  config.EnabledName name ∧ name ∈ actualList.map (·.target)

/-- The packages and what they depend on have plain names; what they depend on without a condition, they or a group of
their targets, are enabled packages. -/
structure Given (config : Config) (actualList : List Item) : Prop where
  plain : ∀ item ∈ actualList, PlainId item.target
  named : ∀ item ∈ actualList, ∀ deps, makeDeps config item = some deps → ∀ dep ∈ deps, PlainId dep
  strong : ∀ item ∈ actualList, config.EnabledName item.target → ∀ dep ∈ item.asdeps, Enabled config actualList dep
  own : ∀ item ∈ actualList, config.EnabledName item.target → ∀ groups, otherTargets item = some groups →
    ∀ group ∈ groups, ∀ dep ∈ ownDeps group.2, Enabled config actualList dep

/-- Dependences that are enabled are packages; those of a release are no finally packages, unless they list a target
`release` with dependences of its own; and a finally package that is not empty has packages to wait for. -/
structure Suited (settings : SysrootSettings) (config : Config) (finallyList : List Text) (actualList : List Item) :
    Prop where
  deps : ∀ item ∈ actualList, ∀ deps, makeDeps config item = some deps → ∀ dep ∈ deps, dep ∈ actualList.map (·.target)
  released : ∀ item ∈ actualList, ∀ reldeps, makeReldeps config finallyList item = some reldeps → ∀ dep ∈ reldeps,
    dep ∉ finallyList ∨ ∃ other ∈ actualList, other.target = dep ∧
      ∃ groups, otherTargets other = some groups ∧ ∃ group ∈ groups, "release".toList ∈ group.1
  final : ∀ item ∈ actualList, config.EnabledName item.target → (pkgFlags settings finallyList item).final = true →
    (pkgFlags settings finallyList item).empty = false → ∃ other ∈ actualList, other.target = finaldeps ∨
      config.EnabledName other.target ∧ other.target ∉ finallyList ∧ isNative other.target = false

/-- The rules of an enabled package. -/
def enabledRules (settings : SysrootSettings) (matched : Text → Bool) (finallyList : List Text) (item : Item)
    (deps reldeps : List Text) (groups : List (List Text × GroupDeps)) : List AnyRule :=
  let flags := pkgFlags settings finallyList item
  let targets := sysrootTargets settings item
  (psysrootRules item.target flags (matched item.target) deps ++
    allRules item.target flags (matched item.target) deps ++
    installRules item.target flags deps ++ isysrootRules item.target flags).map (ruleOf Sum.inl) ++
  (releaseRules item.target targets flags (releaseFlag finallyList item) reldeps ++
    cleanRules item.target targets flags ++
    cacheRules item.target flags ++ urlRules item.target targets ++
    groupRules item.target flags (lists targets "union") (matched item.target) deps groups).map (ruleOf Sum.inr)

/-- What `gen_make` computes for a package. -/
structure Computed (config : Config) (finallyList : List Text) (item : Item) (deps reldeps : List Text)
    (groups : List (List Text × GroupDeps)) : Prop where
  deps : makeDeps config item = some deps
  reldeps : makeReldeps config finallyList item = some reldeps
  groups : otherTargets item = some groups

theorem wholeRules_cases (written : wholeRules settings config matched finallyList item = some own) :
    ∃ deps reldeps groups, Computed config finallyList item deps reldeps groups ∧
      own = if config.EnabledName item.target then enabledRules settings matched finallyList item deps reldeps groups
        else (disabledRules item.target).map (ruleOf Sum.inr) := by
  simp only [wholeRules, packageRules, otherRules, bind, Option.bind_eq_some_iff] at written
  obtain ⟨first, ⟨deps, made, firstIs⟩, second, ⟨deps', made', reldeps, remade, groups, split, secondIs⟩,
    result⟩ := written
  obtain rfl := Option.some.inj (made.symm.trans made')
  refine ⟨deps, reldeps, groups, ⟨made, remade, split⟩, ?_⟩
  rw [← Option.some_inj.mp result, ← Option.some_inj.mp firstIs, ← Option.some_inj.mp secondIs]
  by_cases enabled : config.EnabledName item.target
  · rw [if_pos enabled, if_pos enabled, if_pos enabled]
    rfl
  · rw [if_neg enabled, if_neg enabled, if_neg enabled]
    rfl

@[simp] theorem targets_ruleOf {ε δ : Type} (f : ε → δ) (rule : Rule Text ε) :
    (ruleOf f rule).targets = rule.targets := rfl

@[simp] theorem goalOf_actionLine {ε δ : Type} (f : ε → δ) (line : Line Text ε) :
    goalOf (actionLine f line) = goalOf line := by
  cases line <;> rfl

@[simp] theorem wanted_ruleOf {ε δ : Type} (f : ε → δ) (rule : Rule Text ε) : wanted (ruleOf f rule) = wanted rule := by
  obtain ⟨targets, prereqs, recipe⟩ := rule
  cases recipe with
  | none => rfl
  | some lines => simp [wanted, ruleOf, List.filterMap_map]

/-- What the rules of an enabled package ask for. -/
inductive Wants (settings : SysrootSettings) (finallyList : List Text) (item : Item) (deps reldeps : List Text)
    (groups : List (List Text × GroupDeps)) : Text → Prop
  | dep {dep : Text} {suffix : Suffix} (listed : dep ∈ deps) (some : suffix ∈ [.plain, .install, .isysroot]) :
      Wants settings finallyList item deps reldeps groups (makeTarget dep suffix)
  | self {suffix : Suffix} (some : suffix ∈ [.plain, .psysroot]) :
      Wants settings finallyList item deps reldeps groups (makeTarget item.target suffix)
  | finaldeps (final : (pkgFlags settings finallyList item).final = true)
      (empty : (pkgFlags settings finallyList item).empty = false) :
      Wants settings finallyList item deps reldeps groups finaldeps
  | release {dep : Text} (listed : dep ∈ reldeps) :
      Wants settings finallyList item deps reldeps groups (subTarget dep "release".toList)
  | own {group : List Text × GroupDeps} {dep : Text} {suffix : Suffix} (among : group ∈ groups)
      (listed : dep ∈ ownDeps group.2) (some : suffix ∈ [.plain, .install, .isysroot]) :
      Wants settings finallyList item deps reldeps groups (makeTarget dep suffix)
  | sub {names own : List Text} (among : (names, .own own) ∈ groups) (nonempty : subTargets item.target names ≠ [])
      (psysroot : (pkgFlags settings finallyList item).psysroot = true) (some : own ≠ []) :
      Wants settings finallyList item deps reldeps groups (subPsysroot item.target own)

section Wants

variable {flags : PkgFlags} {build : Bool} {lines : List MakeLine}

@[simp] theorem goalOf_command (package : Text) (action : Command) : goalOf (command package action) = none := rfl

@[simp] theorem goalOf_otherCommand (package : Text) (action : OtherCommand) :
    goalOf (otherCommand package action) = none := rfl

@[simp] theorem goals_cacheStr (package : Text) (flags : PkgFlags) :
    (cacheStr package flags).filterMap goalOf = [] := by
  unfold cacheStr
  split <;> rfl

@[simp] theorem goals_compileStr (package : Text) (flags : PkgFlags) :
    (compileStr package flags).filterMap goalOf = [] := by
  unfold compileStr
  cases flags.prepare <;> cases flags.isysroot <;> rfl

theorem goalOf_psysrootLine (goal : goalOf (psysrootLine package flags build) = some target) :
    target = makeTarget package .psysroot := by
  unfold psysrootLine at goal
  split at goal
  · cases goal
  · exact (Option.some.inj goal).symm

variable {rule : MakeRule}

theorem wanted_psysrootRules (inside : rule ∈ psysrootRules package flags build deps) (asked : target ∈ wanted rule) :
    (∃ dep ∈ deps, target = makeTarget dep .isysroot) ∨ target = makeTarget package .psysroot := by
  unfold psysrootRules at inside
  rcases List.mem_append.mp inside with first | single
  · split at first
    · obtain rfl := List.mem_singleton.mp first
      obtain ⟨dep, listed, rfl⟩ := List.mem_map.mp ((List.mem_append.mp asked).resolve_right List.not_mem_nil)
      exact .inl ⟨dep, listed, rfl⟩
    · obtain rfl := List.mem_singleton.mp first
      exact absurd asked List.not_mem_nil
  · split at single
    · obtain rfl := List.mem_singleton.mp single
      simp only [wanted, List.nil_append, Option.getD_some, List.filterMap_append, goals_cacheStr,
        List.mem_filterMap, List.mem_singleton, exists_eq_left] at asked
      exact .inr (goalOf_psysrootLine asked)
    · exact absurd single List.not_mem_nil

theorem wanted_allRules (inside : rule ∈ allRules package flags build deps) (asked : target ∈ wanted rule) :
    (∃ dep ∈ deps, target = makeTarget dep .plain ∨ target = makeTarget dep .install) ∨
      target = makeTarget package .psysroot ∨ target = finaldeps ∧ flags.final = true ∧ flags.empty = false := by
  have direct (listed : target ∈ deps) : ∃ dep ∈ deps, target = makeTarget dep .plain ∨
      target = makeTarget dep .install :=
    ⟨target, listed, .inl (makeTarget_plain target).symm⟩
  have called (goal : goalOf (psysrootLine package flags build) = some target) := goalOf_psysrootLine goal
  simp only [allRules] at inside
  simp only [wanted, List.mem_append, List.mem_filterMap] at asked
  have cache : ∀ line ∈ cacheStr package flags, goalOf line ≠ some target := fun line member same => by
    have found := List.mem_filterMap.mpr ⟨line, member, same⟩
    rw [goals_cacheStr] at found
    cases found
  have compile : ∀ line ∈ compileStr package flags, goalOf line ≠ some target := fun line member same => by
    have found := List.mem_filterMap.mpr ⟨line, member, same⟩
    rw [goals_compileStr] at found
    cases found
  grind [goalOf_command]

theorem wanted_installRules (inside : rule ∈ installRules package flags deps) (asked : target ∈ wanted rule) :
    (∃ dep ∈ deps, target = makeTarget dep .install) ∨ target = makeTarget package .plain := by
  simp only [installRules] at inside
  simp only [wanted, List.mem_append, List.mem_filterMap] at asked
  grind [goalOf_command]

theorem wanted_isysrootRules (inside : rule ∈ isysrootRules package flags) (asked : target ∈ wanted rule) :
    target = makeTarget package .psysroot := by
  simp only [isysrootRules] at inside
  simp only [wanted, List.mem_append, List.mem_filterMap] at asked
  grind [goalOf_command]

variable {rule : OtherRule} {targets : List Text} {release : Bool}

theorem wanted_releaseRules (inside : rule ∈ releaseRules package targets flags release reldeps)
    (asked : target ∈ wanted rule) : ∃ dep ∈ reldeps, target = subTarget dep "release".toList := by
  simp only [releaseRules, goalCommand] at inside
  simp only [wanted, List.mem_append, List.mem_filterMap] at asked
  grind [goalOf_otherCommand]

theorem wanted_cleanRules (inside : rule ∈ cleanRules package targets flags) : wanted rule = [] := by
  simp only [cleanRules, goalCommand, List.mem_append, List.mem_singleton] at inside
  rcases inside with rfl | inside
  · cases flags.empty <;> rfl
  · split at inside
    · obtain rfl := List.mem_singleton.mp inside
      rfl
    · exact absurd inside List.not_mem_nil

theorem wanted_cacheRules (inside : rule ∈ cacheRules package flags) : wanted rule = [] := by
  unfold cacheRules at inside
  split at inside
  · obtain rfl := List.mem_singleton.mp inside
    rfl
  · exact absurd inside List.not_mem_nil

theorem wanted_urlRules (inside : rule ∈ urlRules package targets) : wanted rule = [] := by
  unfold urlRules at inside
  split at inside
  · obtain rfl := List.mem_singleton.mp inside
    rfl
  · exact absurd inside List.not_mem_nil

variable {union : Bool} {names own : List Text}

theorem not_wanted_single {action : OtherCommand}
    (single : rule ∈ [({ targets := names, recipe := some [otherCommand package action] } : OtherRule)]) :
    target ∉ wanted rule := by
  obtain rfl := List.mem_singleton.mp single
  exact List.not_mem_nil

/-- Targets without dependences of their own wait for those of the package. -/
theorem wanted_subRules_package (inside : rule ∈ subRules package flags union build deps names .package)
    (asked : target ∈ wanted rule) :
    (∃ dep ∈ deps, target = makeTarget dep .plain ∨ target = makeTarget dep .install) ∨
      target = makeTarget package .psysroot := by
  rw [subRules] at inside
  cases withDeps : flags.deps with
  | false =>
    rw [withDeps] at inside
    exact absurd asked (not_wanted_single inside)
  | true =>
    rw [withDeps] at inside
    rcases List.mem_cons.mp inside with rfl | single
    · rcases List.mem_append.mp asked with listed | goal
      · cases psysroot : flags.psysroot with
        | true =>
          rw [psysroot] at listed
          exact .inl ⟨target, listed, .inl (makeTarget_plain target).symm⟩
        | false =>
          rw [psysroot] at listed
          obtain ⟨dep, member, rfl⟩ := List.mem_map.mp listed
          exact .inl ⟨dep, member, .inr rfl⟩
      · obtain ⟨line, listed, goal⟩ := List.mem_filterMap.mp goal
        rcases List.mem_append.mp listed with psysroot | stem
        · split at psysroot
          · rw [List.mem_singleton.mp psysroot] at goal
            split at goal
            · cases goal
            · exact .inr (Option.some.inj goal).symm
          · exact absurd psysroot List.not_mem_nil
        · rw [List.mem_singleton.mp stem] at goal
          cases goal
    · exact absurd asked (not_wanted_single single)

/-- With dependences of their own they wait for these, behind a system root of their own where there is one. -/
theorem wanted_subRules_own (inside : rule ∈ subRules package flags union build deps names (.own own))
    (asked : target ∈ wanted rule) :
    (∃ dep ∈ own, ∃ suffix ∈ [Suffix.plain, .install, .isysroot], target = makeTarget dep suffix) ∨
      own ≠ [] ∧ flags.psysroot = true ∧ target = subPsysroot package own := by
  rcases List.mem_append.mp inside with psysroot | group
  · split at psysroot
    · obtain rfl := List.mem_singleton.mp psysroot
      obtain ⟨dep, listed, rfl⟩ := List.mem_map.mp ((List.mem_append.mp asked).resolve_right List.not_mem_nil)
      exact .inl ⟨dep, List.mem_of_mem_filter listed, .isysroot, by decide, rfl⟩
    · exact absurd psysroot List.not_mem_nil
  cases psysroot : flags.psysroot with
  | true =>
    rw [psysroot, if_pos rfl, if_pos rfl, if_pos rfl] at group
    split at group
    · next needed =>
      rcases List.mem_cons.mp group with rfl | single
      · rcases List.mem_append.mp asked with listed | goal
        · exact .inl ⟨target, List.mem_of_mem_filter listed, .plain, by decide, (makeTarget_plain target).symm⟩
        · have some : own ≠ [] := fun none => absurd (none ▸ needed) (by decide)
          exact .inr ⟨some, rfl, List.mem_singleton.mp goal⟩
      · exact absurd asked (not_wanted_single single)
    · exact absurd asked (not_wanted_single group)
  | false =>
    rw [psysroot] at group
    simp only [Bool.false_eq_true, if_false] at group
    split at group
    · rcases List.mem_cons.mp group with rfl | single
      · obtain ⟨dep, member, rfl⟩ := List.mem_map.mp ((List.mem_append.mp asked).resolve_right List.not_mem_nil)
        exact .inl ⟨dep, member, .install, by decide, rfl⟩
      · exact absurd asked (not_wanted_single single)
    · exact absurd asked (not_wanted_single group)

theorem wanted_subRules {group : GroupDeps} (inside : rule ∈ subRules package flags union build deps names group)
    (asked : target ∈ wanted rule) :
    (∃ dep ∈ deps, target = makeTarget dep .plain ∨ target = makeTarget dep .install) ∨
      target = makeTarget package .psysroot ∨
      (∃ dep ∈ ownDeps group, ∃ suffix ∈ [Suffix.plain, .install, .isysroot], target = makeTarget dep suffix) ∨
      ∃ own, group = .own own ∧ own ≠ [] ∧ flags.psysroot = true ∧ target = subPsysroot package own := by
  cases group with
  | package => exact (wanted_subRules_package inside asked).imp_right .inl
  | own own =>
    rcases wanted_subRules_own inside asked with dep | ⟨some, psysroot, same⟩
    · exact .inr (.inr (.inl dep))
    · exact .inr (.inr (.inr ⟨own, rfl, some, psysroot, same⟩))

end Wants

theorem wants_of_enabled (inside : rule ∈ enabledRules settings matched finallyList item deps reldeps groups)
    (asked : target ∈ wanted rule) : Wants settings finallyList item deps reldeps groups target := by
  rcases List.mem_append.mp inside with first | second
  · obtain ⟨rule, build, rfl⟩ := List.mem_map.mp first
    rw [wanted_ruleOf] at asked
    rw [List.mem_append, List.mem_append, List.mem_append] at build
    rcases build with ((psysroot | all) | install) | isysroot
    · rcases wanted_psysrootRules psysroot asked with ⟨dep, listed, rfl⟩ | rfl
      · exact .dep listed (by decide)
      · exact .self (by decide)
    · rcases wanted_allRules all asked with ⟨dep, listed, rfl | rfl⟩ | rfl | ⟨rfl, final, empty⟩
      · exact .dep listed (by decide)
      · exact .dep listed (by decide)
      · exact .self (by decide)
      · exact .finaldeps final empty
    · rcases wanted_installRules install asked with ⟨dep, listed, rfl⟩ | rfl
      · exact .dep listed (by decide)
      · exact .self (by decide)
    · obtain rfl := wanted_isysrootRules isysroot asked
      exact .self (by decide)
  · obtain ⟨rule, rest, rfl⟩ := List.mem_map.mp second
    rw [wanted_ruleOf] at asked
    rw [List.mem_append, List.mem_append, List.mem_append, List.mem_append] at rest
    rcases rest with (((release | clean) | cache) | url) | group
    · obtain ⟨dep, listed, rfl⟩ := wanted_releaseRules release asked
      exact .release listed
    · rw [wanted_cleanRules clean] at asked
      exact absurd asked List.not_mem_nil
    · rw [wanted_cacheRules cache] at asked
      exact absurd asked List.not_mem_nil
    · rw [wanted_urlRules url] at asked
      exact absurd asked List.not_mem_nil
    · obtain ⟨⟨names, own⟩, among, inside⟩ := List.mem_flatMap.mp group
      obtain ⟨targets, listed, inside⟩ := List.mem_flatMap.mp inside
      rcases wanted_subRules inside asked with ⟨dep, listed, rfl | rfl⟩ | rfl | ⟨dep, listed, suffix, some, rfl⟩ |
        ⟨own, rfl, some, psysroot, rfl⟩
      · exact .dep listed (by decide)
      · exact .dep listed (by decide)
      · exact .self (by decide)
      · exact .own among listed some
      · exact .sub among (List.ne_nil_of_mem listed) psysroot some

theorem allRules_plain (package : Text) (flags : PkgFlags) (build : Bool) (deps : List Text) :
    ∃ rule ∈ allRules package flags build deps, makeTarget package .plain ∈ rule.targets := by
  obtain ⟨final, unified, empty, psysroot, isysroot, cache, withDeps, prepare⟩ := flags
  cases empty <;> cases withDeps <;> cases final <;> cases psysroot <;> simp [allRules]

theorem psysrootRules_psysroot (package : Text) (flags : PkgFlags) (build : Bool) (deps : List Text) :
    ∃ rule ∈ psysrootRules package flags build deps, makeTarget package .psysroot ∈ rule.targets := by
  unfold psysrootRules
  cases flags.deps <;> simp

/-- An enabled package has rules for the targets that others ask for. -/
theorem enabled_target {suffix : Suffix} (some : suffix ∈ [Suffix.plain, .psysroot, .install, .isysroot]) :
    ∃ rule ∈ enabledRules settings matched finallyList item deps reldeps groups,
      makeTarget item.target suffix ∈ rule.targets := by
  have found {rule : MakeRule} (inside : rule ∈ psysrootRules item.target (pkgFlags settings finallyList item)
        (matched item.target) deps ++ allRules item.target (pkgFlags settings finallyList item)
          (matched item.target) deps ++
        installRules item.target (pkgFlags settings finallyList item) deps ++
        isysrootRules item.target (pkgFlags settings finallyList item))
      (names : makeTarget item.target suffix ∈ rule.targets) :
      ∃ rule ∈ enabledRules settings matched finallyList item deps reldeps groups,
        makeTarget item.target suffix ∈ rule.targets :=
    ⟨ruleOf Sum.inl rule, List.mem_append_left _ (List.mem_map_of_mem inside), names⟩
  simp only [List.mem_cons, List.not_mem_nil, or_false] at some
  rcases some with rfl | rfl | rfl | rfl
  · obtain ⟨rule, inside, names⟩ := allRules_plain item.target (pkgFlags settings finallyList item)
      (matched item.target) deps
    exact found (List.mem_append_left _ (List.mem_append_left _ (List.mem_append_right _ inside))) names
  · obtain ⟨rule, inside, names⟩ :=
      psysrootRules_psysroot item.target (pkgFlags settings finallyList item) (matched item.target) deps
    exact found (List.mem_append_left _ (List.mem_append_left _ (List.mem_append_left _ inside))) names
  · exact found (List.mem_append_left _ (List.mem_append_right _ (List.mem_cons_self ..))) (List.mem_singleton_self _)
  · exact found (List.mem_append_right _ (List.mem_singleton_self _)) (List.mem_singleton_self _)

theorem enabled_release (flag : releaseFlag finallyList item = true) :
    ∃ rule ∈ enabledRules settings matched finallyList item deps reldeps groups,
      rule.targets = [subTarget item.target "release".toList] ∧
        rule.prereqs = reldeps.map (subTarget · "release".toList) := by
  obtain ⟨rule, inside, same⟩ : ∃ rule ∈ releaseRules item.target (sysrootTargets settings item)
      (pkgFlags settings finallyList item) (releaseFlag finallyList item) reldeps,
      rule.targets = [subTarget item.target "release".toList] ∧
        rule.prereqs = reldeps.map (subTarget · "release".toList) := by
    rw [flag]
    exact ⟨_, List.mem_singleton_self _, rfl, rfl⟩
  exact ⟨ruleOf Sum.inr rule, List.mem_append_right _
    (List.mem_map_of_mem (List.mem_append_left _ (List.mem_append_left _
    (List.mem_append_left _ (List.mem_append_left _ inside))))), same⟩

theorem enabled_group {group : List Text × GroupDeps} (among : group ∈ groups) {targets : List Text}
    (listed : targets ∈ subTargets item.target group.1) {rule : OtherRule}
    (inside : rule ∈ subRules item.target (pkgFlags settings finallyList item)
      (lists (sysrootTargets settings item) "union")
      (matched item.target) deps targets group.2) :
    ruleOf Sum.inr rule ∈ enabledRules settings matched finallyList item deps reldeps groups :=
  List.mem_append_right _ (List.mem_map_of_mem (List.mem_append_right _
    (List.mem_flatMap.mpr ⟨group, among, List.mem_flatMap.mpr ⟨targets, listed, inside⟩⟩)))

section Groups

variable (package) (flags : PkgFlags) (union build : Bool) (deps) (targets : List Text)

theorem subRules_own (group : GroupDeps) : ∃ rule ∈ subRules package flags union build deps targets group,
    rule.targets = targets := by
  cases group with
  | package =>
    rw [subRules]
    cases flags.deps
    · exact ⟨_, List.mem_singleton_self _, rfl⟩
    · exact ⟨_, List.mem_cons_self .., rfl⟩
  | own own =>
    rw [subRules]
    cases (if flags.psysroot = true then depstr own else decide (own ≠ []))
    · exact ⟨_, List.mem_append_right _ (List.mem_singleton_self _), rfl⟩
    · exact ⟨_, List.mem_append_right _ (List.mem_cons_self ..), rfl⟩

theorem subRules_psysroot {own : List Text} (psysroot : flags.psysroot = true) (some : own ≠ []) :
    ∃ rule ∈ subRules package flags union build deps targets (.own own), rule.targets = [subPsysroot package own] := by
  rw [subRules, psysroot, decide_eq_true some]
  exact ⟨_, List.mem_append_left _ (List.mem_singleton_self _), rfl⟩

end Groups

theorem subTargets_plain {names : List Text} (listed : name ∈ names) (plain : '%' ∉ name) :
    ∃ targets ∈ subTargets package names, subTarget package name ∈ targets := by
  have kept : name ∈ names.filter ('%' ∉ ·) := List.mem_filter.mpr ⟨listed, decide_eq_true plain⟩
  refine ⟨_, List.mem_append_left _ ?_, List.mem_map_of_mem kept⟩
  rw [if_pos (List.ne_nil_of_mem kept)]
  exact List.mem_singleton_self _

/-- A target of a package: what follows its name, and where a target for releasing comes from. -/
def Belongs (finallyList : List Text) (item : Item) (groups : List (List Text × GroupDeps)) (target : Text) : Prop :=
  target = item.target ∨
  (∃ name, target = subTarget item.target name ∧ (name = "release".toList →
    releaseFlag finallyList item = true ∨ ∃ group ∈ groups, "release".toList ∈ group.1)) ∨
  ∃ own, target = subPsysroot item.target own

theorem Belongs.of_suffix (suffix : Suffix) : Belongs finallyList item groups (makeTarget item.target suffix) := by
  have behind (name : String) (other : name ≠ "release") :
      Belongs finallyList item groups (subTarget item.target name.toList) :=
    .inr (.inl ⟨_, rfl, fun same => absurd (String.toList_injective same) other⟩)
  cases suffix
  case plain => exact .inl (makeTarget_plain _)
  case single => exact behind "single" (by decide)
  case psysroot => exact behind "psysroot" (by decide)
  case psysrootSingle => exact behind "psysroot_single" (by decide)
  case install => exact behind "install" (by decide)
  case installSingle => exact behind "install_single" (by decide)
  case isysroot => exact behind "isysroot" (by decide)

theorem Belongs.of_fixed (names : List String) (others : "release" ∉ names)
    (among : target ∈ names.map fun name => subTarget item.target name.toList) :
      Belongs finallyList item groups target := by
  obtain ⟨name, listed, rfl⟩ := List.mem_map.mp among
  exact .inr (.inl ⟨_, rfl, fun same => absurd (String.toList_injective same ▸ listed) others⟩)

theorem mem_subTargets {names targets : List Text} (among : targets ∈ subTargets package names)
    (inside : target ∈ targets) :
    ∃ name ∈ names, target = subTarget package name := by
  unfold subTargets at among
  rcases List.mem_append.mp among with plain | pattern
  · split at plain
    · obtain rfl := List.mem_singleton.mp plain
      obtain ⟨name, listed, rfl⟩ := List.mem_map.mp inside
      exact ⟨name, List.mem_of_mem_filter listed, rfl⟩
    · exact absurd plain List.not_mem_nil
  · obtain ⟨name, listed, rfl⟩ := List.mem_map.mp pattern
    exact ⟨name, List.mem_of_mem_filter listed, List.mem_singleton.mp inside⟩

theorem targets_subRules {flags : PkgFlags} {union build : Bool} {names : List Text} {group : GroupDeps}
    {rule : OtherRule}
    (inside : rule ∈ subRules package flags union build deps names group) :
    rule.targets = names ∨ rule.targets = names.map (· ++ "_single".toList) ∨
      ∃ own, rule.targets = [subPsysroot package own] := by
  cases group with
  | package =>
    rw [subRules] at inside
    cases withDeps : flags.deps with
    | true =>
      rw [withDeps] at inside
      rcases List.mem_cons.mp inside with rfl | single
      · exact .inl rfl
      · obtain rfl := List.mem_singleton.mp single
        exact .inr (.inl rfl)
    | false =>
      rw [withDeps] at inside
      obtain rfl := List.mem_singleton.mp inside
      exact .inl rfl
  | own own =>
    rcases List.mem_append.mp inside with psysroot | group
    · split at psysroot
      · obtain rfl := List.mem_singleton.mp psysroot
        exact .inr (.inr ⟨own, rfl⟩)
      · exact absurd psysroot List.not_mem_nil
    · generalize (if flags.psysroot then depstr own else decide (own ≠ [])) = needed at group
      cases needed with
      | true =>
        rcases List.mem_cons.mp group with rfl | single
        · exact .inl rfl
        · obtain rfl := List.mem_singleton.mp single
          exact .inr (.inl rfl)
      | false =>
        obtain rfl := List.mem_singleton.mp group
        exact .inl rfl

theorem targets_build {flags : PkgFlags} {build : Bool} {rule : MakeRule}
    (inside : rule ∈ psysrootRules package flags build deps ++ allRules package flags build deps ++
      installRules package flags deps ++ isysrootRules package flags) (names : target ∈ rule.targets) :
    ∃ suffix, target = makeTarget package suffix := by
  simp only [List.mem_append, psysrootRules, allRules, installRules, isysrootRules] at inside
  grind

theorem belongs_of_enabled (inside : rule ∈ enabledRules settings matched finallyList item deps reldeps groups)
    (names : target ∈ rule.targets) : Belongs finallyList item groups target := by
  rcases List.mem_append.mp inside with first | second
  · obtain ⟨rule, build, rfl⟩ := List.mem_map.mp first
    obtain ⟨suffix, rfl⟩ := targets_build build names
    exact .of_suffix suffix
  · obtain ⟨rule, rest, rfl⟩ := List.mem_map.mp second
    rw [targets_ruleOf] at names
    rw [List.mem_append, List.mem_append, List.mem_append, List.mem_append] at rest
    rcases rest with (((release | clean) | cache) | url) | group
    · unfold releaseRules at release
      split at release
      · rename_i flag
        obtain rfl := List.mem_singleton.mp release
        exact .inr (.inl ⟨_, List.mem_singleton.mp names, fun _ => .inl flag⟩)
      · exact absurd release List.not_mem_nil
    · rcases List.mem_append.mp clean with clean | distclean
      · obtain rfl := List.mem_singleton.mp clean
        exact .of_fixed ["clean"] (by decide) names
      · split at distclean
        · obtain rfl := List.mem_singleton.mp distclean
          exact .of_fixed ["distclean"] (by decide) names
        · exact absurd distclean List.not_mem_nil
    · unfold cacheRules at cache
      split at cache
      · obtain rfl := List.mem_singleton.mp cache
        exact .of_fixed ["setforce", "set1force", "unsetforce"] (by decide) names
      · exact absurd cache List.not_mem_nil
    · unfold urlRules at url
      split at url
      · obtain rfl := List.mem_singleton.mp url
        exact .of_fixed ["dofetch", "status", "setdev", "unsetdev"] (by decide) names
      · exact absurd url List.not_mem_nil
    · obtain ⟨group, among, inside⟩ := List.mem_flatMap.mp group
      obtain ⟨targets, listed, inside⟩ := List.mem_flatMap.mp inside
      rcases targets_subRules inside with same | same | ⟨own, same⟩
      · rw [same] at names
        obtain ⟨name, member, rfl⟩ := mem_subTargets listed names
        exact .inr (.inl ⟨name, rfl, fun release => .inr ⟨group, among, release ▸ member⟩⟩)
      · rw [same] at names
        obtain ⟨plain, among, rfl⟩ := List.mem_map.mp names
        obtain ⟨name, -, rfl⟩ := mem_subTargets listed among
        refine .inr (.inl ⟨name ++ "_single".toList, by simp [subTarget], fun release => ?_⟩)
        exact absurd ⟨name, release⟩ (by decide : ¬ "_single".toList <:+ "release".toList)
      · rw [same] at names
        exact .inr (.inr ⟨own, List.mem_singleton.mp names⟩)

/-- A name in front of an underscore is found. -/
theorem split_underscore (plain : '_' ∉ first) (plain' : '_' ∉ second) {rest rest' : Text}
    (same : first ++ '_' :: rest = second ++ '_' :: rest') : first = second ∧ rest = rest' := by
  have front {name : Text} (plain : '_' ∉ name) (rest : Text) : (name ++ '_' :: rest).takeWhile (· ≠ '_') = name := by
    have others : ∀ c ∈ name, decide (c ≠ '_') = true := fun c member =>
      decide_eq_true fun same => plain (same ▸ member)
    rw [List.takeWhile_append_of_pos others, List.takeWhile_cons_of_neg (by decide), List.append_nil]
  have names : first = second := by rw [← front plain rest, same, front plain' rest']
  subst names
  exact ⟨rfl, (List.cons.inj (List.append_cancel_left same)).2⟩

/-- A target of a plain name belongs to the package of that name. -/
theorem Belongs.owner (belongs : Belongs finallyList item groups (subTarget dep name)) (plain : PlainId dep)
    (plain' : PlainId item.target) (other : ¬ "_psysroot".toList <:+ subTarget dep name) :
    item.target = dep ∧ (name = "release".toList →
      releaseFlag finallyList item = true ∨ ∃ group ∈ groups, "release".toList ∈ group.1) := by
  rcases belongs with same | ⟨name', same, release⟩ | ⟨own, same⟩
  · have member : '_' ∈ subTarget dep name := List.mem_append_right _ (List.mem_cons_self ..)
    rw [same] at member
    exact absurd member plain'.1
  · obtain ⟨rfl, rfl⟩ := split_underscore plain.1 plain'.1 same
    exact ⟨rfl, release⟩
  · exact absurd ⟨_, same.symm⟩ other

theorem mem_vars (field : SystemVars → List Text) (none : field {} = [])
    (append : ∀ first second, field (first.append second) = field first ++ field second) {list : List SystemVars} :
    target ∈ field (list.foldr SystemVars.append {}) ↔ ∃ vars ∈ list, target ∈ field vars := by
  induction list with
  | nil => simp [none]
  | cons vars list ih => simp [append, ih]

/-- What a package adds to the variables. -/
def systemWanted (settings : SysrootSettings) (config : Config) (finallyList : List Text) (item : Item) : List Text :=
  let vars := systemVars settings config finallyList item
  vars.allTargets ++ vars.allCaches ++ vars.allFetches ++ vars.allStatuses ++ vars.allReleases ++ vars.allCleans

def systemNames : List String :=
  ["all_targets", "all_caches", "all_fetches", "all_statuses", "all_releases", "all_cleans"]

/-- The rules of a package that is not enabled ask for nothing. -/
theorem disabledRules_cases {rule : OtherRule} (inside : rule ∈ disabledRules package) :
    wanted rule = [] ∧ ∀ target ∈ rule.targets, target = package ∨ target = subTarget package ['%'] := by
  rcases List.mem_cons.mp inside with rfl | pattern
  · exact ⟨rfl, fun target names => .inl (List.mem_singleton.mp names)⟩
  · obtain rfl := List.mem_singleton.mp pattern
    exact ⟨rfl, fun target names => .inr (List.mem_singleton.mp names)⟩

/-- The rules for all packages ask for what the packages add to the variables. -/
theorem systemRules_cases (inside : rule ∈
    systemRules ((actualList.map (systemVars settings config finallyList)).foldr SystemVars.append {})) :
    (∃ name ∈ systemNames, rule.targets = [name.toList]) ∧ ∀ target ∈ wanted rule, ∃ item ∈ actualList,
      target ∈ systemWanted settings config finallyList item := by
  have among (field : SystemVars → List Text) (none : field {} = [])
      (append : ∀ first second, field (first.append second) = field first ++ field second)
      (part : ∀ vars : SystemVars, field vars ⊆ vars.allTargets ++ vars.allCaches ++ vars.allFetches ++
        vars.allStatuses ++ vars.allReleases ++ vars.allCleans) :
      ∀ target ∈ field ((actualList.map (systemVars settings config finallyList)).foldr SystemVars.append {}) ++ [],
        ∃ item ∈ actualList, target ∈ systemWanted settings config finallyList item := fun target inside => by
    rw [List.append_nil] at inside
    obtain ⟨vars, listed, inside⟩ := (mem_vars field none append).mp inside
    obtain ⟨item, member, rfl⟩ := List.mem_map.mp listed
    exact ⟨item, member, part _ inside⟩
  simp only [systemRules, List.mem_cons, List.not_mem_nil, or_false] at inside
  rcases inside with rfl | rfl | rfl | rfl | rfl | rfl
  · exact ⟨⟨"all_targets", by decide, rfl⟩,
      among (·.allTargets) rfl (fun _ _ => rfl) fun vars target inside => by simp [inside]⟩
  · exact ⟨⟨"all_caches", by decide, rfl⟩,
      among (·.allCaches) rfl (fun _ _ => rfl) fun vars target inside => by simp [inside]⟩
  · exact ⟨⟨"all_fetches", by decide, rfl⟩,
      among (·.allFetches) rfl (fun _ _ => rfl) fun vars target inside => by simp [inside]⟩
  · exact ⟨⟨"all_statuses", by decide, rfl⟩,
      among (·.allStatuses) rfl (fun _ _ => rfl) fun vars target inside => by simp [inside]⟩
  · exact ⟨⟨"all_releases", by decide, rfl⟩,
      among (·.allReleases) rfl (fun _ _ => rfl) fun vars target inside => by simp [inside]⟩
  · exact ⟨⟨"all_cleans", by decide, rfl⟩,
      among (·.allCleans) rfl (fun _ _ => rfl) fun vars target inside => by simp [inside]⟩

section Written

variable (written : genMakefile settings config matched finallyList actualList = some rules)

include written

/-- The rules that a package gets. -/
theorem rules_package (member : item ∈ actualList) : ∃ deps reldeps groups,
    Computed config finallyList item deps reldeps groups ∧
      (config.EnabledName item.target →
        ∀ rule ∈ enabledRules settings matched finallyList item deps reldeps groups, rule ∈ rules) ∧
      (¬ config.EnabledName item.target → ∀ rule ∈ disabledRules item.target, ruleOf Sum.inr rule ∈ rules) := by
  simp only [genMakefile, bind, Option.bind_eq_some_iff] at written
  obtain ⟨packages, mapped, result⟩ := written
  obtain ⟨own, listed, written⟩ := Data.exists_of_mapM mapped member
  obtain ⟨deps, reldeps, groups, computed, rfl⟩ := wholeRules_cases written
  have inside : ∀ rule ∈ (if config.EnabledName item.target then
      enabledRules settings matched finallyList item deps reldeps groups
      else (disabledRules item.target).map (ruleOf Sum.inr)), rule ∈ rules := fun rule here => by
    rw [← Option.some.inj result]
    exact List.mem_append_left _ (List.mem_append_right _ (List.mem_flatten.mpr ⟨_, listed, here⟩))
  refine ⟨deps, reldeps, groups, computed, fun enabled => ?_, fun disabled rule here => ?_⟩
  · rwa [if_pos enabled] at inside
  · rw [if_neg disabled] at inside
    exact inside _ (List.mem_map_of_mem here)

/-- Where a rule comes from. -/
theorem rules_cases (inside : rule ∈ rules) :
    (rule.targets = [finaldeps] ∧ finallyList ≠ [] ∧ ∃ other ∈ actualList, wanted rule = [other.target] ∧
      config.EnabledName other.target ∧ other.target ∉ finallyList ∧ isNative other.target = false) ∨
    (∃ item ∈ actualList, ∃ deps reldeps groups, Computed config finallyList item deps reldeps groups ∧
      config.EnabledName item.target ∧ rule ∈ enabledRules settings matched finallyList item deps reldeps groups) ∨
    (∃ item ∈ actualList, ¬ config.EnabledName item.target ∧ wanted rule = [] ∧
      ∀ target ∈ rule.targets, target = item.target ∨ target = subTarget item.target ['%']) ∨
    (∃ name ∈ systemNames, rule.targets = [name.toList]) ∧ ∀ target ∈ wanted rule, ∃ item ∈ actualList,
      target ∈ systemWanted settings config finallyList item := by
  simp only [genMakefile, bind, Option.bind_eq_some_iff] at written
  obtain ⟨packages, mapped, result⟩ := written
  rw [← Option.some.inj result, List.mem_append, List.mem_append] at inside
  rcases inside with (final | package) | system
  · obtain ⟨own, listed, rfl⟩ := List.mem_map.mp final
    obtain ⟨some, dep, among, rfl, others, cross, enabled⟩ := finalRules_cases listed
    obtain ⟨other, member, rfl⟩ := List.mem_map.mp among
    exact .inl ⟨rfl, some, other, member, rfl, enabled, others, cross⟩
  · obtain ⟨own, listed, here⟩ := List.mem_flatten.mp package
    obtain ⟨item, member, written⟩ := (Data.mem_of_mapM mapped).mp listed
    obtain ⟨deps, reldeps, groups, computed, rfl⟩ := wholeRules_cases written
    by_cases enabled : config.EnabledName item.target
    · rw [if_pos enabled] at here
      exact .inr (.inl ⟨item, member, deps, reldeps, groups, computed, enabled, here⟩)
    · rw [if_neg enabled] at here
      obtain ⟨rule, listed, rfl⟩ := List.mem_map.mp here
      obtain ⟨nothing, names⟩ := disabledRules_cases listed
      exact .inr (.inr (.inl ⟨item, member, enabled, (wanted_ruleOf ..).trans nothing, names⟩))
  · exact .inr (.inr (.inr (systemRules_cases system)))

/-- An explicit rule for a target behind the name of a package comes from that package. -/
theorem explicit_owner (given : Given config actualList) (plain : PlainId dep) {name : Text}
    (fixed : name = "install".toList ∨ name = "release".toList) (explicit : Explicit rules (subTarget dep name)) :
    ∃ other ∈ actualList, other.target = dep ∧ (name = "release".toList → dep ∉ finallyList ∨
      ∃ groups, otherTargets other = some groups ∧ ∃ group ∈ groups, "release".toList ∈ group.1) := by
  obtain ⟨-, rule, inside, names⟩ := explicit
  have member : '_' ∈ subTarget dep name := List.mem_append_right _ (List.mem_cons_self ..)
  have ends : '_' :: name <:+ subTarget dep name := List.suffix_append ..
  have other (word : String) (here : word.toList = subTarget dep name) : ¬ (word ∈ "finaldeps" :: systemNames) := by
    intro listed
    rw [← here] at ends
    have none : ∀ word ∈ "finaldeps" :: systemNames, ¬ "_install".toList <:+ word.toList ∧
        ¬ "_release".toList <:+ word.toList := by
      decide
    rcases fixed with rfl | rfl
    · exact (none word listed).1 ends
    · exact (none word listed).2 ends
  rcases rules_cases written inside with ⟨targets, -⟩ | ⟨item, listed, deps, reldeps, groups, computed, enabled, own⟩ |
    ⟨item, listed, -, -, targets⟩ | ⟨⟨word, listed, targets⟩, -⟩
  · rw [targets] at names
    exact absurd (List.mem_cons_self ..) (other "finaldeps" (List.mem_singleton.mp names).symm)
  · have ending : ¬ "_psysroot".toList <:+ subTarget dep name := fun ending => by
      have both := List.suffix_or_suffix_of_suffix ends ending
      rcases fixed with rfl | rfl <;> exact absurd both (by decide)
    obtain ⟨same, release⟩ := (belongs_of_enabled own names).owner plain (given.plain item listed) ending
    refine ⟨item, listed, same, fun isRelease => (release isRelease).imp (fun flag => ?_)
      fun group => ⟨groups, computed.groups, group⟩⟩
    rw [← same]
    simp only [releaseFlag, Bool.not_eq_true', Bool.or_eq_false_iff, List.contains_eq_mem,
      decide_eq_false_iff_not] at flag
    exact flag.2
  · rcases targets _ names with same | same
    · rw [same] at member
      exact absurd member (given.plain item listed).1
    · obtain ⟨-, same⟩ := split_underscore plain.1 (given.plain item listed).1 same
      rcases fixed with rfl | rfl <;> exact absurd same (by decide)
  · rw [targets] at names
    exact absurd (List.mem_cons_of_mem _ listed) (other word (List.mem_singleton.mp names).symm)

theorem rules_final (member : other ∈ actualList) (enabled : config.EnabledName other.target)
    (others : other.target ∉ finallyList) (cross : isNative other.target = false) (some : finallyList ≠ []) :
    ∃ rule ∈ rules, finaldeps ∈ rule.targets := by
  simp only [genMakefile, bind, Option.bind_eq_some_iff] at written
  obtain ⟨packages, mapped, result⟩ := written
  have listed : other.target ∈ (actualList.map (·.target)).filter fun dep =>
      dep ∉ finallyList ∧ isNative dep = false ∧ config.EnabledName dep :=
    List.mem_filter.mpr ⟨List.mem_map_of_mem member, decide_eq_true ⟨others, cross, enabled⟩⟩
  refine ⟨ruleOf Sum.inl { targets := [finaldeps], prereqs := [other.target] }, ?_, List.mem_singleton_self _⟩
  rw [← Option.some.inj result, finalRules, if_neg some]
  exact List.mem_append_left _ (List.mem_append_left _ (List.mem_map_of_mem (List.mem_map_of_mem
    (f := fun dep => ({ targets := [finaldeps], prereqs := [dep] } : MakeRule)) listed)))

/-- A package has a rule for its name. -/
theorem explicit_plain (given : Given config actualList) (member : item ∈ actualList) : Explicit rules item.target := by
  refine ⟨(given.plain item member).2, ?_⟩
  obtain ⟨deps, reldeps, groups, -, enabledRules, disabledRules⟩ := rules_package written member
  by_cases enabled : config.EnabledName item.target
  · obtain ⟨rule, inside, names⟩ := @enabled_target settings matched finallyList item deps reldeps groups .plain
      (by decide)
    rw [makeTarget_plain] at names
    exact ⟨rule, enabledRules enabled rule inside, names⟩
  · exact ⟨_, disabledRules enabled _ (List.mem_cons_self ..), List.mem_singleton_self _⟩

theorem explicit_target (given : Given config actualList) (found : Enabled config actualList dep) {suffix : Suffix}
    (some : suffix ∈ [Suffix.plain, .psysroot, .install, .isysroot]) : Explicit rules (makeTarget dep suffix) := by
  obtain ⟨enabled, listed⟩ := found
  obtain ⟨item, member, rfl⟩ := List.mem_map.mp listed
  obtain ⟨deps, reldeps, groups, -, enabledRules, -⟩ := rules_package written member
  obtain ⟨rule, inside, names⟩ := @enabled_target settings matched finallyList item deps reldeps groups suffix some
  refine ⟨fun percent => ?_, rule, enabledRules enabled rule inside, names⟩
  rcases List.mem_append.mp percent with here | here
  · exact (given.plain item member).2 here
  · revert here
    cases suffix <;> decide

end Written

theorem weakCondition_enabled {word : Text} {names : List Text} (found : weakCondition config word = some names)
    (listed : name ∈ names) : config.EnabledName name := by
  unfold weakCondition at found
  have chosen {condition : Prop} [Decidable condition] {dep : Text} (enabled : condition → config.EnabledName dep)
      (listed : name ∈ if condition then [dep] else []) : config.EnabledName name := by
    split at listed
    · rename_i holds
      exact List.mem_singleton.mp listed ▸ enabled holds
    · exact absurd listed List.not_mem_nil
  split at found
  · obtain ⟨⟨dep, cond⟩, -, found⟩ := Option.bind_eq_some_iff.mp found
    rw [← Option.some.inj found] at listed
    exact chosen (fun both => both.1) listed
  · rw [← Option.some.inj found] at listed
    exact chosen id listed

theorem makeDeps_enabled (given : Given config actualList) (member : item ∈ actualList)
    (made : makeDeps config item = some deps) (listed : dep ∈ deps) :
    config.EnabledName item.target ∧ config.EnabledName dep := by
  simp only [makeDeps, bind, Option.bind_eq_some_iff] at made
  obtain ⟨weak, mapped, result⟩ := made
  rw [← Option.some.inj result] at listed
  split at listed
  · rename_i enabled
    refine ⟨enabled, ?_⟩
    rcases List.mem_append.mp listed with inside | strong
    · obtain ⟨names, among, inside⟩ := List.mem_flatten.mp inside
      obtain ⟨word, -, found⟩ := (Data.mem_of_mapM mapped).mp among
      exact weakCondition_enabled found inside
    · exact (given.strong item member enabled dep strong).1
  · exact absurd listed List.not_mem_nil

theorem makeReldeps_deps (made : makeDeps config item = some deps)
    (remade : makeReldeps config finallyList item = some reldeps) (listed : dep ∈ reldeps) :
    dep ∈ deps ∧ isNative dep = false ∧ config.EnabledName item.target ∧ releaseFlag finallyList item = true := by
  simp only [makeDeps, makeReldeps, bind, Option.bind_eq_some_iff] at made remade
  obtain ⟨weak, mapped, result⟩ := made
  obtain ⟨weak', mapped', result'⟩ := remade
  obtain rfl := Option.some.inj (mapped.symm.trans mapped')
  rw [← Option.some.inj result'] at listed
  split at listed
  · rename_i both
    obtain ⟨inside, cross⟩ := List.mem_filter.mp listed
    rw [← Option.some.inj result, if_pos both.1]
    exact ⟨inside, (Bool.not_eq_true' _).mp cross, both⟩
  · exact absurd listed List.not_mem_nil

theorem makeTarget_install (dep : Text) : makeTarget dep .install = subTarget dep "install".toList :=
  congrArg (dep ++ ·) (by decide)

section Closed

variable (given : Given config actualList)
  (written : genMakefile settings config matched finallyList actualList = some rules)

include given written

/-- What a closed Makefile says of the packages. -/
theorem suited_of_closed (closed : Closed rules) : Suited settings config finallyList actualList := by
  refine ⟨fun item member deps made dep listed => ?_, fun item member reldeps remade dep listed => ?_,
    fun item member enabled final empty => ?_⟩
  · obtain ⟨enabled, -⟩ := makeDeps_enabled given member made listed
    obtain ⟨deps', reldeps, groups, computed, own, -⟩ := rules_package written member
    obtain rfl := Option.some.inj (made.symm.trans computed.deps)
    have inside := own enabled (ruleOf Sum.inl ⟨[makeTarget item.target .install],
      makeTarget item.target .plain :: deps.map (makeTarget · .install), none⟩)
      (List.mem_append_left _ (List.mem_map_of_mem
        (List.mem_append_left _ (List.mem_append_right _ (List.mem_cons_self ..)))))
    have explicit := closed _ inside (makeTarget dep .install)
      (List.mem_append_left _ (List.mem_cons_of_mem _ (List.mem_map_of_mem (f := (makeTarget · .install)) listed)))
    rw [makeTarget_install] at explicit
    obtain ⟨other, found, same, -⟩ := explicit_owner written given
      (given.named item member deps made dep listed) (.inl rfl) explicit
    exact List.mem_map.mpr ⟨other, found, same⟩
  · obtain ⟨deps, reldeps', groups, computed, own, -⟩ := rules_package written member
    obtain rfl := Option.some.inj (remade.symm.trans computed.reldeps)
    obtain ⟨strong, -, enabled, flag⟩ := makeReldeps_deps computed.deps remade listed
    obtain ⟨rule, inside, -, prereqs⟩ := @enabled_release settings matched finallyList item deps reldeps groups flag
    have asked : subTarget dep "release".toList ∈ wanted rule := List.mem_append_left _ (by
      rw [prereqs]
      exact List.mem_map_of_mem (f := (subTarget · "release".toList)) listed)
    have explicit := closed rule (own enabled rule inside) _ asked
    obtain ⟨other, found, same, release⟩ :=
      explicit_owner written given (given.named item member deps computed.deps dep strong) (.inr rfl) explicit
    exact (release rfl).imp_right fun group => ⟨other, found, same, group⟩
  · obtain ⟨deps, reldeps, groups, computed, own, -⟩ := rules_package written member
    have among : (⟨[makeTarget item.target .plain], [finaldeps], none⟩ : MakeRule) ∈
        allRules item.target (pkgFlags settings finallyList item) (matched item.target) deps := by
      rw [allRules, empty, final]
      exact List.mem_append_left _ (List.mem_singleton_self _)
    have inside := own enabled (ruleOf Sum.inl _)
      (List.mem_append_left _ (List.mem_map_of_mem
        (List.mem_append_left _ (List.mem_append_left _ (List.mem_append_right _ among)))))
    obtain ⟨-, rule, inside, names⟩ := closed _ inside finaldeps (List.mem_singleton_self _)
    have plain : '_' ∉ finaldeps := by decide
    rcases rules_cases written inside with ⟨-, -, other, found, -, chosen⟩ |
      ⟨other, found, deps, reldeps, groups, -, -, own⟩ | ⟨other, found, -, -, targets⟩ | ⟨⟨word, listed, targets⟩, -⟩
    · exact ⟨other, found, .inr chosen⟩
    · rcases belongs_of_enabled own names with same | ⟨name, same, -⟩ | ⟨names, same⟩
      · exact ⟨other, found, .inl same.symm⟩
      · rw [same] at plain
        exact absurd (List.mem_append_right _ (List.mem_cons_self ..)) plain
      · rw [same] at plain
        exact absurd (List.mem_append_right _ (by decide)) plain
    · rcases targets _ names with same | same
      · exact ⟨other, found, .inl same.symm⟩
      · rw [same] at plain
        exact absurd (List.mem_append_right _ (List.mem_cons_self ..)) plain
    · rw [targets] at names
      have none : ∀ word ∈ systemNames, finaldeps ≠ word.toList := by decide
      exact absurd (List.mem_singleton.mp names) (none word listed)

theorem explicit_release (member : item ∈ actualList) (enabled : config.EnabledName item.target)
    (flag : releaseFlag finallyList item = true) : Explicit rules (subTarget item.target "release".toList) := by
  obtain ⟨deps, reldeps, groups, -, own, -⟩ := rules_package written member
  obtain ⟨rule, inside, targets, -⟩ := @enabled_release settings matched finallyList item deps reldeps groups flag
  refine ⟨fun percent => ?_, rule, own enabled rule inside, targets ▸ List.mem_singleton_self _⟩
  exact (List.mem_append.mp percent).elim (given.plain item member).2 (by decide)

/-- What a package of a suited configuration asks for. -/
theorem explicit_wanted (suited : Suited settings config finallyList actualList) (member : item ∈ actualList)
    (enabled : config.EnabledName item.target) (computed : Computed config finallyList item deps reldeps groups)
    (own : ∀ rule ∈ enabledRules settings matched finallyList item deps reldeps groups, rule ∈ rules)
    (wants : Wants settings finallyList item deps reldeps groups target) : Explicit rules target := by
  cases wants with
  | dep listed some =>
    exact explicit_target written given ⟨(makeDeps_enabled given member computed.deps listed).2,
      suited.deps item member _ computed.deps _ listed⟩ (by revert some; cases ‹Suffix› <;> decide)
  | self some =>
    exact explicit_target written given ⟨enabled, List.mem_map_of_mem member⟩
      (by revert some; cases ‹Suffix› <;> decide)
  | finaldeps final empty =>
    obtain ⟨other, found, same | ⟨enabled, others, cross⟩⟩ := suited.final item member enabled final empty
    · exact same ▸ explicit_plain written given found
    · have some : finallyList ≠ [] := by
        simp only [pkgFlags, List.contains_eq_mem, decide_eq_true_eq] at final
        exact List.ne_nil_of_mem final
      exact ⟨by decide, rules_final written found enabled others cross some⟩
  | release listed =>
    obtain ⟨strong, cross, -, -⟩ := makeReldeps_deps computed.deps computed.reldeps listed
    obtain ⟨-, depEnabled⟩ := makeDeps_enabled given member computed.deps strong
    rcases suited.released item member _ computed.reldeps _ listed with others |
      ⟨other, found, rfl, groups, split, group, among, names⟩
    · obtain ⟨other, found, rfl⟩ := List.mem_map.mp (suited.deps item member _ computed.deps _ strong)
      refine explicit_release given written found depEnabled ?_
      simp [releaseFlag, cross, others]
    · obtain ⟨deps, reldeps, groups', computed', own', -⟩ := rules_package written found
      obtain rfl := Option.some.inj (split.symm.trans computed'.groups)
      obtain ⟨targets, listed, names⟩ := @subTargets_plain other.target _ _ names (by decide)
      obtain ⟨rule, inside, same⟩ := subRules_own other.target deps (pkgFlags settings finallyList other)
        (lists (sysrootTargets settings other) "union") (matched other.target) targets group.2
      refine ⟨fun percent => (List.mem_append.mp percent).elim (given.plain other found).2 (by decide),
        ruleOf Sum.inr rule,
        own' depEnabled _ (enabled_group among listed inside), ?_⟩
      rw [targets_ruleOf, same]
      exact names
  | own among listed some =>
    exact explicit_target written given (given.own item member enabled _ computed.groups _ among _ listed)
      (by revert some; cases ‹Suffix› <;> decide)
  | sub among nonempty psysroot some =>
    rename_i names own'
    obtain ⟨targets, listed⟩ := List.exists_mem_of_ne_nil _ nonempty
    obtain ⟨rule, inside, same⟩ := subRules_psysroot item.target _ _ (lists (sysrootTargets settings item) "union")
      (matched item.target) targets psysroot some
    refine ⟨fun percent => ?_, ruleOf Sum.inr rule, own _ (enabled_group among listed inside), ?_⟩
    · rcases List.mem_append.mp percent with front | ending
      · rcases List.mem_append.mp front with front | inner
        · rcases List.mem_append.mp front with here | middle
          · exact (given.plain item member).2 here
          · exact absurd middle (by decide)
        · rcases mem_intercalate inner with dash | ⟨dep, listed, here⟩
          · exact absurd dash (by decide)
          · obtain ⟨-, known⟩ := given.own item member enabled _ computed.groups _ among dep listed
            obtain ⟨other, found, rfl⟩ := List.mem_map.mp known
            exact (given.plain other found).2 here
      · exact absurd ending (by decide)
    · rw [targets_ruleOf, same]
      exact List.mem_singleton_self _

/-- What the variables of all packages list. -/
theorem explicit_system (member : item ∈ actualList) (asked : target ∈ systemWanted settings config finallyList item) :
    Explicit rules target := by
  obtain ⟨deps, reldeps, groups, -, own, -⟩ := rules_package written member
  by_cases enabled : config.EnabledName item.target
  · have plain := explicit_plain written given member
    have install : Explicit rules (makeTarget item.target .install) :=
      explicit_target written given ⟨enabled, List.mem_map_of_mem member⟩ (by decide)
    have other {rule : OtherRule} (name : String) (percent : '%' ∉ name.toList)
        (inside : rule ∈ cleanRules item.target (sysrootTargets settings item) (pkgFlags settings finallyList item) ∨
          rule ∈ urlRules item.target (sysrootTargets settings item))
        (names : subTarget item.target name.toList ∈ rule.targets) :
          Explicit rules (subTarget item.target name.toList) := by
      refine ⟨fun here => (List.mem_append.mp here).elim (given.plain item member).2 fun behind =>
        percent ((List.mem_cons.mp behind).resolve_left (by decide)), ruleOf Sum.inr rule, own enabled _ ?_, names⟩
      refine List.mem_append_right _ (List.mem_map_of_mem (List.mem_append_left _ ?_))
      rcases inside with clean | url
      · exact List.mem_append_left _ (List.mem_append_left _ (List.mem_append_right _ clean))
      · exact List.mem_append_right _ url
    have fetch {name : String} (percent : '%' ∉ name.toList) (listed : name ∈ ["dofetch", "status"])
        (url : lists (sysrootTargets settings item) "url" = true) :
          Explicit rules (subTarget item.target name.toList) := by
      have names : subTarget item.target name.toList ∈
          (passedRule item.target ["dofetch", "status", "setdev", "unsetdev"]).targets :=
        List.mem_map_of_mem (f := fun name => subTarget item.target name.toList)
          (List.mem_append_left ["setdev", "unsetdev"] listed)
      exact other name percent (.inr (by rw [urlRules, if_pos url]; exact List.mem_singleton_self _)) names
    simp only [systemWanted, systemVars, enabled, if_true, List.mem_append, List.mem_singleton] at asked
    rcases asked with ((((all | cache) | url) | status) | release) | rfl
    · split at all
      · rw [all, ← makeTarget_install]
        exact install
      · exact all ▸ plain
    · split at cache
      · exact List.mem_singleton.mp cache ▸ plain
      · exact absurd cache List.not_mem_nil
    · split at url
      · rename_i listed
        exact List.mem_singleton.mp url ▸ fetch (by decide) (by decide) listed
      · exact absurd url List.not_mem_nil
    · split at status
      · rename_i listed
        exact List.mem_singleton.mp status ▸ fetch (by decide) (by decide) listed
      · exact absurd status List.not_mem_nil
    · split at release
      · rename_i flag
        exact List.mem_singleton.mp release ▸ explicit_release given written member enabled flag
      · exact absurd release List.not_mem_nil
    · exact other "clean" (by decide) (.inl (List.mem_append_left _ (List.mem_singleton_self _)))
        (List.mem_singleton_self _)
  · simp only [systemWanted, systemVars, enabled, if_false, List.append_nil, List.not_mem_nil] at asked

theorem closed_of_suited (suited : Suited settings config finallyList actualList) : Closed rules := by
  intro rule inside target asked
  rcases rules_cases written inside with ⟨-, -, other, found, wants, -⟩ |
    ⟨item, member, deps, reldeps, groups, computed, enabled, own⟩ | ⟨item, -, -, wants, -⟩ | ⟨-, wants⟩
  · rw [wants] at asked
    exact List.mem_singleton.mp asked ▸ explicit_plain written given found
  · obtain ⟨deps', reldeps', groups', computed', own', -⟩ := rules_package written member
    obtain rfl := Option.some.inj (computed.deps.symm.trans computed'.deps)
    obtain rfl := Option.some.inj (computed.reldeps.symm.trans computed'.reldeps)
    obtain rfl := Option.some.inj (computed.groups.symm.trans computed'.groups)
    exact explicit_wanted given written suited member enabled computed (own' enabled) (wants_of_enabled own asked)
  · rw [wants] at asked
    exact absurd asked List.not_mem_nil
  · obtain ⟨item, member, asked⟩ := wants target asked
    exact explicit_system given written member asked

/-- Every prerequisite and every target that a recipe makes has an explicit rule if and only if the packages are suited. -/
theorem closed_iff : Closed rules ↔ Suited settings config finallyList actualList :=
  ⟨suited_of_closed given written, closed_of_suited given written⟩

end Closed

/-- A library, a package with a private system root and a test of its own, and a package that comes last. -/
def testedApp : List Item :=
  [{ target := "lib".toList },
   { target := "app".toList, targets := ["psysroot".toList, "url".toList, "test::lib".toList],
     asdeps := ["lib".toList] },
   { target := "last".toList }]

def appConfig : Config := .enabling ["lib".toList, "app".toList, "last".toList] (by decide) (by decide)

theorem testedApp_closed : ∃ rules, genMakefile {} appConfig (fun _ => false) ["last".toList] testedApp = some rules ∧
    Closed rules := by
  obtain ⟨rules, written⟩ : ∃ rules, genMakefile {} appConfig (fun _ => false) ["last".toList] testedApp = some rules :=
    Option.isSome_iff_exists.mp (by decide +kernel)
  have names : ∀ item ∈ testedApp, ('_' ∉ item.target ∧ '%' ∉ item.target) ∧
      ∀ dep ∈ (makeDeps appConfig item).getD [], ('_' ∉ dep ∧ '%' ∉ dep) ∧
        dep ∈ testedApp.map (·.target) := by decide +kernel
  have strong : ∀ item ∈ testedApp, ∀ dep ∈ item.asdeps ++ ((otherTargets item).getD []).flatMap (ownDeps ·.2),
      appConfig.EnabledName dep ∧ dep ∈ testedApp.map (·.target) := by decide +kernel
  have reldeps : ∀ item ∈ testedApp, ∀ dep ∈ (makeReldeps appConfig ["last".toList] item).getD [],
      dep ∉ ["last".toList] := by
    decide +kernel
  have given : Given appConfig testedApp := by
    refine ⟨fun item member => (names item member).1, fun item member deps made dep listed => ?_,
      fun item member _ dep listed => strong item member dep (List.mem_append_left _ listed),
      fun item member _ groups split group among dep listed => ?_⟩
    · exact ((names item member).2 dep (by rwa [made])).1
    · refine strong item member dep (List.mem_append_right _ (List.mem_flatMap.mpr ⟨group, ?_, listed⟩))
      rwa [split]
  refine ⟨rules, written, (closed_iff given written).mpr ⟨fun item member deps made dep listed => ?_,
    fun item member deps made dep listed => .inl ?_, fun item member _ _ _ => ?_⟩⟩
  · exact ((names item member).2 dep (by rwa [made])).2
  · exact reldeps item member dep (by rwa [made])
  · exact ⟨{ target := "lib".toList }, by decide, .inr (by decide +kernel)⟩

end CBuild.Soundness.ClosedMakefile
