import CBuild.Graph.Acyclic
import CBuild.Machine.MakeRuns
import CBuild.Soundness.BuildOrder

/-! # Builds that end

Whatever has been run so far, make can go on until any target is made: no prerequisite and no nested make waits in a
circle, if the packages do not.
-/

namespace CBuild.Soundness.BuildCompletes

open Machine.Make Model.GenBuildChain BuildOrder

variable {m : Makefile} {item : Item} {deps : List Text} {package dep name target other : Text}

/-- A name that is not read as the target of another package. -/
def PlainName (name : Text) : Prop :=
  name ≠ finaldeps ∧ ∀ package suffix, name = makeTarget package suffix → suffix = .plain

/-- The packages have plain names, and depend on plain names. -/
structure Named (m : Makefile) : Prop where
  plain : ∀ item ∈ m.actualList, PlainName item.target
  deps : ∀ item ∈ m.actualList, ∀ deps, makeDeps m.config item = some deps → ∀ dep ∈ deps, PlainName dep

/-- A package waits for its dependences, and a finally package that is not empty for what `finaldeps` waits for. -/
def Follows (m : Makefile) (package dep : Text) : Prop :=
  m.Edge package dep ∨
  (∃ item ∈ m.actualList, item.target = package ∧ m.config.EnabledName package ∧ (m.flags item).empty = false ∧
    (m.flags item).final = true) ∧
  ∃ other ∈ m.actualList, other.target = dep ∧ dep ∉ m.finallyList ∧ isNative dep = false ∧ m.config.EnabledName dep

def suffixes : List Suffix := [.plain, .single, .psysroot, .psysrootSingle, .install, .installSingle, .isysroot]

/-- What is in front of a suffix in another one is a suffix too. -/
theorem suffix_split (suffix suffix' : Suffix) (ends : suffix'.text <:+ suffix.text) :
    ∃ front ∈ suffixes, suffix.text.take (suffix.text.length - suffix'.text.length) = front.text := by
  cases suffix <;> cases suffix' <;> first | exact absurd ends (by decide) | decide

theorem suffix_front {suffix suffix' : Suffix} {front : Text} (same : suffix.text = front ++ suffix'.text) :
    ∃ middle : Suffix, front = middle.text := by
  obtain ⟨middle, -, split⟩ := suffix_split suffix suffix' ⟨front, same.symm⟩
  refine ⟨middle, ?_⟩
  rw [← split, same, List.length_append, Nat.add_sub_cancel, List.take_left]

/-- The names of targets of plain names are different. -/
theorem makeTarget_plain_inj (first : PlainName package) (second : PlainName name) {suffix suffix' : Suffix}
    (same : makeTarget package suffix = makeTarget name suffix') : package = name ∧ suffix = suffix' := by
  rcases List.append_eq_append_iff.mp same with ⟨front, longer, split⟩ | ⟨front, longer, split⟩
  · obtain ⟨middle, rfl⟩ := suffix_front split
    obtain rfl := second.2 package middle longer
    exact ⟨(longer.trans (List.append_nil _)).symm, Suffix.text_injective split⟩
  · obtain ⟨middle, rfl⟩ := suffix_front split
    obtain rfl := first.2 name middle longer
    exact ⟨longer.trans (List.append_nil _), (Suffix.text_injective split).symm⟩

theorem makeTarget_ne_finaldeps (plain : PlainName package) (suffix : Suffix) :
    makeTarget package suffix ≠ finaldeps := by
  intro same
  have ends : suffix.text <:+ finaldeps := ⟨package, same⟩
  cases suffix
  case plain => exact plain.1 ((makeTarget_plain package).symm.trans same)
  all_goals exact absurd ends (by decide)

/-- A name with another end is plain. -/
theorem PlainName.of_ends (other : name ≠ finaldeps)
    (ends : ∀ suffix ∈ suffixes, suffix.text <:+ name → suffix = .plain) :
    PlainName name := by
  refine ⟨other, fun package suffix same => ends suffix ?_ ⟨package, same.symm⟩⟩
  cases suffix <;> decide

/-- How far a target of a package is from its dependences. -/
def rank : Suffix → ℕ
  | .psysroot => 0
  | .isysroot | .psysrootSingle | .single | .installSingle => 1
  | .plain => 2
  | .install => 3

/-- The only nested make fills the private system root. -/
theorem recipeOf_make {flags : PkgFlags} {matched : Bool} {suffix : Suffix}
    (calls : Line.make other ∈ recipeOf package flags matched suffix) :
    other = makeTarget package .psysroot ∧ rank .psysroot < rank suffix := by
  have cache : Line.make other ∉ cacheStr package flags := by
    unfold cacheStr
    split <;> simp [command]
  have compile : Line.make other ∉ compileStr package flags := by
    unfold compileStr
    cases flags.prepare <;> cases flags.isysroot <;> simp [command]
  have line (called : Line.make other = psysrootLine package flags matched) : other = makeTarget package .psysroot := by
    unfold psysrootLine at called
    split at called
    · cases called
    · exact Line.make.inj called
  cases suffix <;> simp only [recipeOf, List.mem_append, cache, compile, or_false, false_or] at calls
  case plain =>
    split at calls
    · simp [command] at calls
    · simp only [List.mem_append, cache, compile, or_false, false_or] at calls
      split at calls
      · exact ⟨line (List.mem_singleton.mp calls), by decide⟩
      · cases calls
  case psysrootSingle => exact ⟨line (List.mem_singleton.mp calls), by decide⟩
  case install | installSingle => split at calls <;> simp [command] at calls
  all_goals simp [command] at calls

/-- A rule of a package waits for targets of dependences, for `finaldeps`, or for nearer targets of the package. -/
theorem own_waits {rule : MakeRule} (own : rule ∈ m.ownRules item deps) {suffix : Suffix}
    (names : makeTarget item.target suffix ∈ rule.targets)
    (waits : other ∈ rule.prereqs ∨ ∃ lines, rule.recipe = some lines ∧ Line.make other ∈ lines) :
    (∃ dep ∈ deps, ∃ suffix', other = makeTarget dep suffix') ∨
    (other = finaldeps ∧ (m.flags item).empty = false ∧ (m.flags item).final = true) ∨
    ∃ suffix', other = makeTarget item.target suffix' ∧ rank suffix' < rank suffix := by
  rcases waits with needed | ⟨lines, given, calls⟩
  · simp only [Makefile.ownRules, List.mem_append] at own
    rcases own with ((psysroot | all) | install) | isysroot
    · simp only [psysrootRules] at psysroot
      grind [rank, makeTarget_inj]
    · have direct : ∀ dep ∈ deps, other = dep → ∃ dep ∈ deps, ∃ suffix', other = makeTarget dep suffix' :=
        fun dep member same => ⟨dep, member, .plain, same.trans (makeTarget_plain dep).symm⟩
      simp only [allRules] at all
      grind [rank, makeTarget_inj]
    · simp only [installRules] at install
      grind [rank, makeTarget_inj]
    · simp only [isysrootRules] at isysroot
      grind [rank, makeTarget_inj]
  · rw [Makefile.own_recipe own names given] at calls
    exact .inr (.inr ⟨.psysroot, recipeOf_make calls⟩)

/-- A rule is one of `finaldeps`, or an enabled package has it. -/
theorem rules_cases {rule : MakeRule} (inside : rule ∈ m.rules) :
    (rule.targets = [finaldeps] ∧ rule.recipe = none ∧ ∃ dep, rule.prereqs = [dep] ∧
      ∃ other ∈ m.actualList, other.target = dep ∧ dep ∉ m.finallyList ∧ isNative dep = false ∧
        m.config.EnabledName dep) ∨
    ∃ item ∈ m.actualList, m.config.EnabledName item.target ∧ ∃ deps, makeDeps m.config item = some deps ∧
      rule ∈ m.ownRules item deps := by
  rcases List.mem_append.mp inside with final | package
  · obtain ⟨-, dep, listed, rfl, chosen⟩ := finalRules_cases final
    obtain ⟨other, member, same⟩ := List.mem_map.mp listed
    exact .inl ⟨rfl, rfl, dep, rfl, other, member, same, chosen⟩
  · obtain ⟨own, written, here⟩ := List.mem_flatten.mp package
    obtain ⟨item, member, found⟩ := (Data.mem_of_mapM m.written).mp written
    simp only [packageRules, bind, Option.bind_eq_some_iff] at found
    obtain ⟨deps, made, result⟩ := found
    obtain rfl := Option.some.inj result
    by_cases enabled : m.config.EnabledName item.target
    · rw [if_pos enabled] at here
      exact .inr ⟨item, member, enabled, deps, made, here⟩
    · rw [if_neg enabled] at here
      exact absurd here List.not_mem_nil

/-- Every target of a rule of a package is one of its own. -/
theorem own_target {rule : MakeRule} (own : rule ∈ m.ownRules item deps) (names : target ∈ rule.targets) :
    ∃ suffix, target = makeTarget item.target suffix := by
  simp only [Makefile.ownRules, List.mem_append, psysrootRules, allRules, installRules, isysrootRules] at own
  grind

section Named

variable (named : Named m)

include named

/-- What a target of a plain name waits for comes from the package of that name. -/
theorem waits_cases (plain : PlainName package) {suffix : Suffix}
    (waits : Waits m.rules (makeTarget package suffix) other) :
    ∃ item ∈ m.actualList, item.target = package ∧ m.config.EnabledName package ∧ ∃ deps,
      makeDeps m.config item = some deps ∧ ((∃ dep ∈ deps, ∃ suffix', other = makeTarget dep suffix') ∨
        (other = finaldeps ∧ (m.flags item).empty = false ∧ (m.flags item).final = true) ∨
        ∃ suffix', other = makeTarget package suffix' ∧ rank suffix' < rank suffix) := by
  obtain ⟨rule, inside, names, asks⟩ := waits.rule
  rcases rules_cases inside with ⟨final, -⟩ | ⟨item, member, enabled, deps, made, own⟩
  · rw [final] at names
    exact absurd (List.mem_singleton.mp names) (makeTarget_ne_finaldeps plain suffix)
  · obtain ⟨suffix', same⟩ := own_target own names
    obtain ⟨rfl, rfl⟩ := makeTarget_plain_inj plain (named.plain item member) same
    exact ⟨item, member, rfl, enabled, deps, made, own_waits own names asks⟩

/-- `finaldeps` waits for the packages that are neither native nor finally packages. -/
theorem waits_final (waits : Waits m.rules finaldeps other) :
    ∃ item ∈ m.actualList, item.target = other ∧ other ∉ m.finallyList ∧ isNative other = false ∧
      m.config.EnabledName other := by
  obtain ⟨rule, inside, names, asks⟩ := waits.rule
  rcases rules_cases inside with ⟨-, none, dep, needed, chosen⟩ | ⟨item, member, enabled, deps, made, own⟩
  · rcases asks with here | ⟨lines, given, -⟩
    · rw [needed] at here
      exact List.mem_singleton.mp here ▸ chosen
    · cases none.symm.trans given
  · obtain ⟨suffix, same⟩ := own_target own names
    exact absurd same.symm (makeTarget_ne_finaldeps (named.plain item member) suffix)

abbrev Ends (m : Makefile) (target : Text) : Prop := Acc (fun other target => Waits m.rules target other) target

/-- Nothing that a package waits for waits without end. -/
theorem ends_package (acyclic : ∀ package, ¬ Relation.TransGen (Follows m) package package) (item : Item)
    (member : item ∈ m.actualList) (suffix : Suffix) : Ends m (makeTarget item.target suffix) := by
  refine @Graph.acyclic_induction Text (Follows m) (m.actualList.map (·.target)) (fun package _ => acyclic package)
    (fun package => ∀ suffix, Ends m (makeTarget package suffix)) ?_
    item.target (List.mem_map_of_mem member) suffix
  intro package listed below suffix
  obtain ⟨owner, there, rfl⟩ := List.mem_map.mp listed
  -- the nearer targets of the package come first
  induction near : rank suffix using Nat.strong_induction_on generalizing suffix with
  | _ near' ih =>
    subst near
    refine ⟨_, fun other waits => ?_⟩
    obtain ⟨item', inside, same, enabled, deps, made, ⟨dep, needed, suffix', rfl⟩ | ⟨rfl, full, final⟩ |
      ⟨suffix', rfl, less⟩⟩ := waits_cases named (named.plain owner there) waits
    · have edge : Follows m owner.target dep := .inl ⟨item', inside, same, deps, made, needed⟩
      by_cases known : dep ∈ m.actualList.map (·.target)
      · exact below dep known edge suffix'
      · refine ⟨_, fun other waits => ?_⟩
        obtain ⟨item'', inside', same', -⟩ := waits_cases named (named.deps item' inside deps made dep needed) waits
        exact absurd (same' ▸ List.mem_map_of_mem inside') known
    · refine ⟨_, fun other waits => ?_⟩
      obtain ⟨last, inside', rfl, chosen⟩ := waits_final named waits
      have edge : Follows m owner.target last.target :=
        .inr ⟨⟨item', inside, same, enabled, full, final⟩, last, inside', rfl, chosen⟩
      simpa using below last.target (List.mem_map_of_mem inside') edge .plain
    · exact ih _ less suffix' rfl

/-- Nor is there anything else to wait for. -/
theorem ends_all (acyclic : ∀ package, ¬ Relation.TransGen (Follows m) package package) (target : Text) :
    Ends m target := by
  refine ⟨_, fun other waits => ?_⟩
  obtain ⟨rule, inside, names, -⟩ := waits.rule
  rcases rules_cases inside with ⟨final, -⟩ | ⟨item, member, enabled, deps, made, own⟩
  · rw [final] at names
    obtain rfl := List.mem_singleton.mp names
    obtain ⟨item, inside', rfl, -⟩ := waits_final named waits
    simpa using ends_package named acyclic item inside' .plain
  · obtain ⟨suffix, rfl⟩ := own_target own names
    exact (ends_package named acyclic item member suffix).inv waits

end Named

/-- Wherever a build stands and whatever make is running, it can go on until the goal is made. -/
def Completes (m : Makefile) : Prop :=
  ∀ seen, Permitted m.rules seen → seen.Nodup → ∀ inst goal, (∀ event ∈ callers inst, event ∈ seen) →
    ∃ more, Permitted m.rules (seen ++ more) ∧ .made inst goal ∈ seen ++ more

/-- Every build completes when no package follows itself. -/
theorem completes_of_acyclic (named : Named m) (acyclic : ∀ package, ¬ Relation.TransGen (Follows m) package package) :
    Completes m := by
  intro seen permitted distinct inst goal called
  obtain ⟨after, goes, made⟩ := goes_made (ends_all named acyclic goal) called
  obtain ⟨more, rfl⟩ := goes.isPrefix
  exact ⟨more, (goes_iff.mp ((goes_iff.mpr ⟨permitted, distinct⟩).trans goes)).1, made⟩

/-- Follows no package with a higher rank. -/
theorem follows_acyclic (height : Text → ℕ) (final : ∀ item ∈ m.actualList, (m.flags item).final = false)
    (falls : ∀ item ∈ m.actualList, ∀ dep ∈ (makeDeps m.config item).getD [], height dep < height item.target)
    (package : Text) : ¬ Relation.TransGen (Follows m) package package := by
  have step {package dep : Text} (follows : Follows m package dep) : height dep < height package := by
    rcases follows with ⟨item, member, rfl, deps, made, needed⟩ | ⟨⟨item, member, -, -, -, isFinal⟩, -⟩
    · exact falls item member dep (by rwa [made])
    · exact absurd isFinal (by rw [final item member]; exact Bool.false_ne_true)
  intro circle
  have lower {first last : Text} (reached : Relation.TransGen (Follows m) first last) : height last < height first := by
    induction reached with
    | single follows => exact step follows
    | tail _ follows ih => exact (step follows).trans ih
  exact absurd (lower circle) (Nat.lt_irrefl _)

/-- A package with a private system root and its library. -/
theorem privateApp_completes : Completes privateApp := by
  have apart : ∀ item ∈ privateApp.actualList, item.target ≠ finaldeps ∧
      ∀ suffix ∈ suffixes, suffix.text <:+ item.target → suffix = .plain := by decide +kernel
  have below : ∀ item ∈ privateApp.actualList, ∀ dep ∈ (makeDeps privateApp.config item).getD [], dep ≠ finaldeps ∧
      ∀ suffix ∈ suffixes, suffix.text <:+ dep → suffix = .plain := by decide +kernel
  refine @completes_of_acyclic privateApp ⟨fun item member => ?_, fun item member deps made dep needed => ?_⟩
    (follows_acyclic (["lib".toList, "app".toList].idxOf ·) (by decide +kernel) (by decide +kernel))
  · exact .of_ends (apart item member).1 (apart item member).2
  · have inside : dep ∈ (makeDeps privateApp.config item).getD [] := by rwa [made]
    exact .of_ends (below item member dep inside).1 (below item member dep inside).2

end CBuild.Soundness.BuildCompletes
