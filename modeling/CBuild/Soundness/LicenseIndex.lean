import CBuild.Graph.Search
import CBuild.Model.GenPackageInfos.Deptree
import CBuild.Soundness.DependReaders

/-! # The license index and the release set

`parse_deptree` is a depth-first search, so it ends on every Target file. What it collects from the
Target file and `.config` are the packages whose release rules make reaches, provided that along the
way names are decoded where they are enabled, `-native` only ends names, and left out dependences
are stood in for.
-/

namespace CBuild.Soundness.LicenseIndex

open CBuild.Data CBuild.Text CBuild.Graph CBuild.Model.GenBuildChain CBuild.Model.GenPackageInfos
open CBuild.Soundness.TargetLine CBuild.Soundness.DependReaders

def successors (configs : List Text) (targets : List (Text × List Text)) (package : Text) : List Text :=
  (targetDeps targets package).filterMap (depPackage configs)

theorem parseDeptree_eq_visit (configs : List Text) (targets : List (Text × List Text)) (fuel : ℕ)
    (package : Text) (packages : List Text) : parseDeptree configs targets fuel package packages =
      visit (successors configs targets) configs fuel package packages := by
  induction fuel generalizing package packages with
  | zero => rfl
  | succ fuel ih =>
    rw [parseDeptree, visit]
    by_cases fresh : package ∈ configs ∧ package ∉ packages
    · rw [if_pos fresh, if_pos fresh, successors]
      generalize package :: packages = packages
      generalize targetDeps targets package = deps
      induction deps generalizing packages with
      | nil => rfl
      | cons dep deps next =>
        rw [List.foldlM_cons, List.filterMap_cons]
        cases depPackage configs dep with
        | none => exact next packages
        | some name =>
          rw [List.foldlM_cons, ← ih]
          exact congrArg _ (funext next)
    · rw [if_neg fresh, if_neg fresh]

/-- On every Target file, cyclic ones included, `parse_deptree` ends. -/
theorem parseDeptree_ends (configs : List Text) (targets : List (Text × List Text)) (package : Text)
    (packages : List Text) : ∃ result, ∀ fuel, configs.length < fuel →
      parseDeptree configs targets fuel package packages = some result := by
  obtain ⟨result, ends⟩ := visit_ends (successors configs targets) configs package packages
  exact ⟨result, fun fuel enough => (parseDeptree_eq_visit ..).trans (ends fuel enough)⟩

/-- The name is decoded from a symbol of `.config`. -/
def Decoded (config : Config) (name : Text) : Prop := name ∈ readConfigs config.lines

instance (config : Config) (name : Text) : Decidable (Decoded config name) :=
  inferInstanceAs (Decidable (_ ∈ _))

variable {config : Config}

/-- Names are decoded from the symbols that are assigned `y`. -/
theorem decoded_iff {name : Text} (plain : '=' ∉ name) : Decoded config name ↔
    ∃ symbol, config.Enabled ("CONFIG_".toList ++ symbol) ∧ escapeTolower symbol = name := by
  simp only [Decoded, readConfigs, List.mem_filterMap, Option.map_eq_some_iff]
  constructor
  · rintro ⟨line, member, group, found, rfl⟩
    obtain ⟨entry, inside, rfl⟩ := List.mem_map.mp member
    rw [matchConfig, Option.ite_none_right_eq_some] at found
    obtain ⟨start, found⟩ := found
    obtain ⟨rest, cut⟩ := List.isPrefixOf_iff_prefix.mp start
    have groupPlain : '=' ∉ group := by
      intro inside
      refine plain ?_
      rw [escapeTolower_eq]
      exact List.mem_map.mpr ⟨'=', List.mem_map.mpr ⟨'=', inside, by decide⟩, by decide⟩
    rw [← cut, List.drop_left' (by decide)] at found
    have line : "CONFIG_".toList ++ group ++ ['=', 'y'] <+: Config.line entry := by
      rw [← cut, List.append_assoc]
      exact (List.prefix_append_right_inj _).mpr (prefix_of_beforeLast found)
    have symbolPlain : '=' ∉ "CONFIG_".toList ++ group := by
      intro inside
      rcases List.mem_append.mp inside with outside | inside
      · exact absurd outside (by decide)
      · exact groupPlain inside
    rw [(config.prefix_line_iff symbolPlain inside).mp line] at inside
    exact ⟨group, inside, rfl⟩
  · rintro ⟨symbol, enabled, rfl⟩
    refine ⟨_, List.mem_map_of_mem enabled, symbol, ?_, rfl⟩
    have start : "CONFIG_".toList.isPrefixOf (Config.line ("CONFIG_".toList ++ symbol, ['y'])) = true :=
      List.isPrefixOf_iff_prefix.mpr ((List.prefix_append _ _).trans (List.prefix_append _ _))
    have rest : (Config.line ("CONFIG_".toList ++ symbol, ['y'])).drop 7 = symbol ++ '=' :: (['y'] ++ []) := by
      rw [Config.line, List.append_assoc]
      exact List.drop_left' (by decide)
    rw [matchConfig, if_pos start, rest]
    exact beforeLast_append (by decide) symbol

theorem matchTarget_of_absent {text : Text} (absent : ¬ ['=', '"'] <:+: text) : matchTarget text = none := by
  induction text with
  | nil => rfl
  | cons c text ih =>
    have here : ['=', '"'].isPrefixOf (c :: text) = false := by
      rw [Bool.eq_false_iff]
      exact fun start => absent (List.isPrefixOf_iff_prefix.mp start).isInfix
    rw [matchTarget, ih fun inside => absent (inside.trans (List.suffix_cons c text).isInfix)]
    simp [here]

theorem matchTarget_append {rest second : Text} (absent : ¬ ['=', '"'] <:+: '"' :: rest)
    (found : beforeLast ['"', ' ', '#', ' '] rest = some second) (first : Text) :
    matchTarget (first ++ '=' :: '"' :: rest) = some (first, second) := by
  induction first with
  | nil =>
    rw [List.nil_append, matchTarget, matchTarget_of_absent absent]
    simp [found]
  | cons c first ih => simp [matchTarget, ih]

theorem strip_name (name : Name) : strip name.text = name.text := by
  have whole (text : Text) (named : ∀ c ∈ text, nameChar c = true) : text.dropWhile blank = text := by
    cases text with
    | nil => rfl
    | cons c text =>
      have here : blank c = false := by
        by_contra special
        simp only [Bool.not_eq_false, blank, Bool.or_eq_true, decide_eq_true_eq] at special
        rcases special with (rfl | rfl) | rfl <;> exact absurd (named _ (List.mem_cons_self ..)) (by decide)
      rw [List.dropWhile_cons, here]
      rfl
  rw [strip, whole _ name.named, whole _ fun c member => name.named c (List.mem_reverse.mp member),
    List.reverse_reverse]

/-- A line that the build chain wrote is read back. -/
theorem readTarget_targetLine {item : Item} (listed : Listed item) :
    (matchTarget item.targetLine).map (fun group => (strip group.1, words group.2)) =
      some (item.target, item.dvars) := by
  have quote := quote_dvars listed
  have equal : '=' ∉ [' '].intercalate item.dvars := by
    intro member
    rcases mem_intercalate member with outside | ⟨word, inside, here⟩
    · exact absurd outside (by decide)
    · exact dvars_plain listed inside (by decide) (by decide) here
  have path : '"' ∉ ' ' :: '#' :: ' ' :: item.path := by simpa using listed.path
  have absent : ¬ ['=', '"'] <:+:
      '"' :: ([' '].intercalate item.dvars ++ '"' :: ' ' :: '#' :: ' ' :: item.path) := by
    have parts : '"' :: ([' '].intercalate item.dvars ++ '"' :: ' ' :: '#' :: ' ' :: item.path) =
        ('"' :: ([' '].intercalate item.dvars ++ ['"'])) ++ ' ' :: '#' :: ' ' :: item.path := by simp
    rw [parts]
    refine not_infix_append (by simpa using equal) fun inside => path (inside.subset ?_)
    simp
  have found : beforeLast ['"', ' ', '#', ' ']
      ([' '].intercalate item.dvars ++ '"' :: ([' ', '#', ' '] ++ item.path)) = some _ :=
    beforeLast_append path _
  obtain ⟨name, same⟩ := listed.target
  rw [targetLine_eq, matchTarget_append absent found, Option.map_some, words_dvars listed, ← same, strip_name]

/-- With distinct names, a package has the words of its own line. -/
theorem targetDeps_actualList {actualList : List Item} (listed : ∀ item ∈ actualList, Listed item)
    (distinct : (actualList.map (·.target)).Nodup) {item : Item} (member : item ∈ actualList) :
    targetDeps (readTargets (actualList.map Item.targetLine)) item.target = item.dvars := by
  have read : readTargets (actualList.map Item.targetLine) =
      actualList.map fun item => (item.target, item.dvars) := by
    rw [readTargets, List.filterMap_map, ← List.filterMap_eq_map']
    exact List.filterMap_congr fun other inside => readTarget_targetLine (listed other inside)
  have keys : ((actualList.map fun item => (item.target, item.dvars)).reverse.map Prod.fst).Nodup := by
    rw [List.map_reverse, List.nodup_reverse, List.map_map]
    exact distinct
  have inside : (item.target, item.dvars) ∈
      (actualList.map fun item => (item.target, item.dvars)).reverse :=
    List.mem_reverse.mpr (List.mem_map.mpr ⟨item, member, rfl⟩)
  rw [targetDeps, read, lookup_of_nodup keys inside, Option.getD_some]

theorem native_cons {c : Char} (absent : c ∉ nativePart) (text : Text) :
    nativePart <:+: c :: text ↔ nativePart <:+: text := by
  rw [← List.nil_append (c :: text), infix_append_cons_iff absent, or_iff_right]
  exact fun inside => absurd (List.infix_nil.mp inside) (by simp [nativePart])

theorem native_condWord (cond : CondDep) : nativePart <:+: condWord cond ↔ nativePart <:+: cond.dep.text := by
  rw [condWord, infix_append_cons_iff (by decide +kernel), or_iff_left]
  intro inside
  have dash : '-' ∈ cond.condition.text := inside.subset (by decide +kernel)
  exact absurd (cond.condition.word _ dash) (by decide)

section

variable {configs : List Text}

theorem depPackage_question (dep : Text) : depPackage configs ('?' :: dep) =
    if nativePart <:+: dep then none else some dep := by
  by_cases native : nativePart <:+: dep <;>
    simp [depPackage, native_cons (c := '?') (by decide +kernel), native]

theorem depPackage_bar (dep : Text) : depPackage configs ('|' :: dep) =
    if nativePart <:+: dep then none else if dep ∈ configs then some dep else some (partner dep) := by
  by_cases native : nativePart <:+: dep <;>
    simp [depPackage, native_cons (c := '|') (by decide +kernel), native]

theorem depPackage_name (name : Name) : depPackage configs name.text =
    if nativePart <:+: name.text then none else some name.text := by
  have question : name.text.head? ≠ some '?' := name.head_ne (by decide)
  have bar : name.text.head? ≠ some '|' := name.head_ne (by decide)
  have plain : '@' ∉ name.text := name.not_mem (by decide)
  by_cases native : nativePart <:+: name.text <;> simp [depPackage, native, question, bar, plain]

theorem depPackage_cond (cond : CondDep) : depPackage configs (condWord cond) =
    if ¬ nativePart <:+: cond.dep.text ∧ decodeCond cond.condition.text ∈ configs then some cond.dep.text
    else none := by
  have inside : '@' ∈ condWord cond := by simp [condWord]
  have question := condWord_head cond (c := '?') (by decide)
  have bar := condWord_head cond (c := '|') (by decide)
  by_cases native : nativePart <:+: cond.dep.text
  · simp [depPackage, native_condWord, native]
  · by_cases holds : decodeCond cond.condition.text ∈ configs <;>
      simp [depPackage, native_condWord, native, question, bar, inside, splitOn_condWord, holds]

/-- What the word of a weak dependence leads to. -/
theorem depPackage_weak {item : Item} {dep marked name : Text} (named : ∃ name : Name, name.text = dep)
    (here : item.mark dep = some marked) :
    (∃ word, weakWord item dep = some word ∧ depPackage configs word = some name) ∧ name ∈ configs ↔
      ¬ nativePart <:+: dep ∧ name ∈ configs ∧
        (dep = name ∨ marked = '|' :: dep ∧ dep ∉ configs ∧ partner dep = name) := by
  by_cases native : nativePart <:+: dep
  · have nowhere : ¬ ∃ word, weakWord item dep = some word ∧ depPackage configs word = some name := by
      rintro ⟨word, shown, leads⟩
      rcases weakWord_eq shown with rfl | rfl | rfl
      · obtain ⟨name, rfl⟩ := named
        simp [depPackage_name, native] at leads
      · simp [depPackage_question, native] at leads
      · simp [depPackage_bar, native] at leads
    simp [nowhere, native]
  · rcases mark_eq here with rfl | rfl | rfl
    · have word : weakWord item dep = some ('?' :: dep) := by simp [weakWord, here]
      simp [word, depPackage_question, native, and_comm]
    · have word : weakWord item dep = some ('|' :: dep) := by simp [weakWord, here]
      by_cases decoded : dep ∈ configs
      · simp [word, depPackage_bar, native, decoded, and_comm]
      · have other : name ∈ configs → dep ≠ name := fun inside same => decoded (same ▸ inside)
        simp only [word, Option.some.injEq, exists_eq_left', depPackage_bar, if_neg native, if_neg decoded]
        tauto
    · have word : weakWord item dep = some dep := by simp [weakWord, here]
      obtain ⟨name, rfl⟩ := named
      simp [word, depPackage_name, native, and_comm]

end

/-- A conditional dependence on the name whose condition was decoded. -/
def CondDecoded (config : Config) (item : Item) (name : Text) : Prop :=
  ∃ cond : CondDep, cond.text ∈ item.ideps ∧ cond.dep.text = name ∧
    Decoded config (decodeCond cond.condition.text)

/-- A `|` word whose own name was not decoded leads to the name. -/
def PartnerOf (config : Config) (item : Item) (name : Text) : Prop :=
  ∃ dep ∈ item.awdeps, item.mark dep = some ('|' :: dep) ∧ ¬ nativePart <:+: dep ∧ ¬ Decoded config dep ∧
    partner dep = name

/-- The line of the item leads the search to the name. -/
def Leads (config : Config) (item : Item) (name : Text) : Prop :=
  (∃ word ∈ item.dvars, depPackage (readConfigs config.lines) word = some name) ∧ Decoded config name

theorem leads_iff {item : Item} (listed : Listed item) {name : Text} : Leads config item name ↔
    Decoded config name ∧ (¬ nativePart <:+: name ∧ (name ∈ item.asdeps ∨
      (name ∈ item.awdeps ∧ item.mark name ≠ none) ∨ CondDecoded config item name) ∨
        PartnerOf config item name) := by
  constructor
  · rintro ⟨⟨word, member, leads⟩, decoded⟩
    refine ⟨decoded, ?_⟩
    rcases (mem_dvars listed).mp member with ⟨dep, inside, here⟩ | ⟨cond, inside, rfl⟩ | inside
    · obtain ⟨marked, mark, _⟩ := Option.map_eq_some_iff.mp here
      obtain ⟨text, same, _⟩ := listed.weak dep inside
      obtain ⟨plain, _, rfl | ⟨rfl, other⟩⟩ :=
        (depPackage_weak ⟨text, same⟩ mark).mp ⟨⟨word, here, leads⟩, decoded⟩
      · exact .inl ⟨plain, .inr (.inl ⟨inside, by simp [mark]⟩)⟩
      · exact .inr ⟨dep, inside, mark, plain, other⟩
    · rw [depPackage_cond, Option.ite_none_right_eq_some] at leads
      obtain ⟨⟨plain, holds⟩, same⟩ := leads
      cases same
      exact .inl ⟨plain, .inr (.inr ⟨cond, inside, rfl, holds⟩)⟩
    · obtain ⟨text, rfl⟩ := listed.strong word inside
      rw [depPackage_name, Option.ite_none_left_eq_some] at leads
      obtain ⟨plain, same⟩ := leads
      cases same
      exact .inl ⟨plain, .inl inside⟩
  · rintro ⟨decoded, ⟨plain, inside | ⟨inside, kept⟩ | ⟨cond, inside, rfl, holds⟩⟩ |
      ⟨dep, inside, mark, plain, other⟩⟩
    · obtain ⟨text, rfl⟩ := listed.strong name inside
      exact ⟨⟨text.text, (mem_dvars listed).mpr (.inr (.inr inside)), by simp [depPackage_name, plain]⟩, decoded⟩
    · obtain ⟨marked, mark⟩ := Option.ne_none_iff_exists'.mp kept
      obtain ⟨text, same, _⟩ := listed.weak name inside
      obtain ⟨⟨word, here, leads⟩, _⟩ :=
        (depPackage_weak ⟨text, same⟩ mark).mpr ⟨plain, decoded, .inl rfl⟩
      exact ⟨⟨word, (mem_dvars listed).mpr (.inl ⟨name, inside, here⟩), leads⟩, decoded⟩
    · have holds' : decodeCond cond.condition.text ∈ readConfigs config.lines := holds
      exact ⟨⟨_, (mem_dvars listed).mpr (.inr (.inl ⟨cond, inside, rfl⟩)),
        by simp [depPackage_cond, plain, holds']⟩, decoded⟩
    · obtain ⟨text, same, _⟩ := listed.weak dep inside
      obtain ⟨⟨word, here, leads⟩, _⟩ :=
        (depPackage_weak ⟨text, same⟩ mark).mpr ⟨plain, decoded, .inr ⟨rfl, other⟩⟩
      exact ⟨⟨word, (mem_dvars listed).mpr (.inl ⟨dep, inside, here⟩), leads⟩, decoded⟩

/-- The dependences of an enabled item that make takes. -/
def Taken (config : Config) (item : Item) (name : Text) : Prop :=
  name ∈ item.asdeps ∨ config.EnabledName name ∧ (name ∈ item.awdeps ∨ Conditional config item name)

theorem mem_makeReldeps {finallyList : List Text} {item : Item} (listed : Listed item) :
    ∃ deps, makeReldeps config finallyList item = some deps ∧ ∀ name, name ∈ deps ↔
      (config.EnabledName item.target ∧ releaseFlag finallyList item = true) ∧
        isNative name = false ∧ Taken config item name := by
  obtain ⟨weak, success, same⟩ := @weakConditions config _ listed
  refine ⟨_, by rw [makeReldeps, success]; rfl, fun name => ?_⟩
  rw [List.mem_ite_nil_right, List.mem_filter, List.mem_append, same, Taken]
  simp only [Bool.not_eq_true']
  tauto

theorem native_of_isNative {name : Text} (native : isNative name = true) : nativePart <:+: name :=
  (List.isSuffixOf_iff_suffix.mp native).isInfix

/-- The item leads the search to what is released with it: names are decoded where they are enabled,
`-native` only ends names, conditions are decoded where they hold, what is left out of the line is
stood in for, and only a dependence that is taken is stood in for. -/
structure Indexed (config : Config) (actualList : List Item) (item : Item) : Prop where
  named : ∀ name, isNative name = false → name ∈ item.asdeps ∨ name ∈ item.awdeps ∨
    Conditional config item name ∨ CondDecoded config item name →
      (Decoded config name ↔ config.EnabledName name)
  native : ∀ name, Taken config item name → nativePart <:+: name → isNative name = true
  conditions : ∀ cond : CondDep, cond.text ∈ item.ideps → config.EnabledName cond.dep.text →
    isNative cond.dep.text = false →
      (Decoded config (decodeCond cond.condition.text) ↔ config.Enabled cond.condition.text)
  leftOut : ∀ name ∈ item.awdeps, item.mark name = none → config.EnabledName name →
    isNative name = false → name ∉ item.asdeps → ¬ Conditional config item name →
      PartnerOf config item name
  standIns : ∀ name, PartnerOf config item name → Decoded config name →
    isNative name = false ∧ Taken config item name
  existing : ∀ name, isNative name = false → Taken config item name → ∃ other ∈ actualList, other.target = name

/-- For an indexed item with enabled strong dependences, the line leads to the dependences that are
taken, except the native ones. -/
theorem leads_iff_taken {actualList : List Item} {item : Item} (listed : Listed item)
    (indexed : Indexed config actualList item)
    (strong : ∀ dep ∈ item.asdeps, config.EnabledName dep) {name : Text} :
    Leads config item name ↔ isNative name = false ∧ Taken config item name := by
  rw [leads_iff listed]
  constructor
  · rintro ⟨decoded, ⟨plain, own⟩ | stands⟩
    · have native : isNative name = false := by
        rw [Bool.eq_false_iff]
        exact fun native => plain (native_of_isNative native)
      refine ⟨native, ?_⟩
      rcases own with inside | ⟨inside, _⟩ | ⟨cond, inside, rfl, holds⟩
      · exact .inl inside
      · exact .inr ⟨(indexed.named name native (.inr (.inl inside))).mp decoded, .inl inside⟩
      · have enabled := (indexed.named _ native (.inr (.inr (.inr ⟨cond, inside, rfl, holds⟩)))).mp decoded
        exact .inr ⟨enabled, .inr ⟨cond, inside, rfl, (indexed.conditions cond inside enabled native).mp holds⟩⟩
    · exact indexed.standIns name stands decoded
  · rintro ⟨native, taken⟩
    have plain : ¬ nativePart <:+: name := fun inside => by simp [indexed.native name taken inside] at native
    by_cases inside : name ∈ item.asdeps
    · exact ⟨(indexed.named name native (.inl inside)).mpr (strong name inside), .inl ⟨plain, .inl inside⟩⟩
    · obtain ⟨enabled, own⟩ := taken.resolve_left inside
      by_cases holds : Conditional config item name
      · have decoded := (indexed.named name native (.inr (.inr (.inl holds)))).mpr enabled
        obtain ⟨cond, idep, rfl, holds⟩ := holds
        have condition := (indexed.conditions cond idep enabled native).mpr holds
        exact ⟨decoded, .inl ⟨plain, .inr (.inr ⟨cond, idep, rfl, condition⟩)⟩⟩
      · have weak := own.resolve_right holds
        have decoded := (indexed.named name native (.inr (.inl weak))).mpr enabled
        by_cases kept : item.mark name = none
        · exact ⟨decoded, .inr (indexed.leftOut name weak kept enabled native inside holds)⟩
        · exact ⟨decoded, .inl ⟨plain, .inr (.inl ⟨weak, kept⟩)⟩⟩

/-- Lower-case letters, digits and dashes: the names that the two translations map back and forth. -/
def lowerChar (c : Char) : Bool := c.isLower || c.isDigit || c = '-'

/-- Upper-case letters, digits and underscores. -/
def upperChar (c : Char) : Bool := c.isUpper || c.isDigit || c = '_'

theorem ascii_of_char {c : Char} (here : lowerChar c = true ∨ upperChar c = true) :
    ∃ n < 128, c = Char.ofNat n := by
  refine ⟨c.toNat, ?_, (Char.ofNat_toNat c).symm⟩
  simp only [lowerChar, upperChar, Char.isLower, Char.isUpper, Char.isDigit, Bool.or_eq_true,
    Bool.and_eq_true, decide_eq_true_eq, UInt32.le_iff_toNat_le] at here
  have value : c.toNat = c.val.toNat := rfl
  rcases here with ((⟨_, bound⟩ | ⟨_, bound⟩) | rfl) | ((⟨_, bound⟩ | ⟨_, bound⟩) | rfl)
  all_goals first
    | decide
    | (simp at bound; omega)

private theorem lower_round {c : Char} (here : lowerChar c = true) :
    (fun d => if d = '_' then '-' else d) (Char.toLower (if c = '-' then '_' else c.toUpper)) = c := by
  obtain ⟨n, small, rfl⟩ := ascii_of_char (.inl here)
  have all : ∀ n < 128, lowerChar (Char.ofNat n) = true → (fun d => if d = '_' then '-' else d)
      (Char.toLower (if Char.ofNat n = '-' then '_' else (Char.ofNat n).toUpper)) = Char.ofNat n := by
    decide +kernel
  exact all n small here

private theorem upper_round {c : Char} (here : upperChar c = true) :
    (fun d => if d = '-' then '_' else Char.toUpper d) (if c.toLower = '_' then '-' else c.toLower) = c := by
  obtain ⟨n, small, rfl⟩ := ascii_of_char (.inr here)
  have all : ∀ n < 128, upperChar (Char.ofNat n) = true → (fun d => if d = '-' then '_' else Char.toUpper d)
      (if (Char.ofNat n).toLower = '_' then '-' else (Char.ofNat n).toLower) = Char.ofNat n := by
    decide +kernel
  exact all n small here

theorem sameSymbol_of_lower {name : Text} (lower : ∀ c ∈ name, lowerChar c = true) : SameSymbol name :=
  ⟨fun member => absurd (lower _ member) (by decide), fun member => absurd (lower _ member) (by decide)⟩

theorem escapeTolower_escapeToupper {name : Text} (lower : ∀ c ∈ name, lowerChar c = true) :
    escapeTolower (escapeToupper name) = name := by
  have same := sameSymbol_of_lower lower
  rw [escapeTolower_eq, escapeToupper_plain same.1 same.2, Model.GenBuildChain.lower, List.map_map,
    List.map_map]
  exact (List.map_congr_left fun c member => lower_round (lower c member)).trans (List.map_id name)

/-- Symbols in capitals are decoded to lower-case letters, digits and dashes. -/
theorem not_mem_escapeTolower {symbol : Text} (upper : ∀ c ∈ symbol, upperChar c = true) {d : Char}
    (other : ∀ n < 128, upperChar (Char.ofNat n) = true →
      (if (Char.ofNat n).toLower = '_' then '-' else (Char.ofNat n).toLower) ≠ d) :
    d ∉ escapeTolower symbol := by
  rw [escapeTolower_eq, Model.GenBuildChain.lower, List.map_map, List.mem_map]
  rintro ⟨c, member, same⟩
  obtain ⟨n, small, rfl⟩ := ascii_of_char (.inr (upper c member))
  exact other n small (upper _ member) same

theorem escapeToupper_escapeTolower {symbol : Text} (upper : ∀ c ∈ symbol, upperChar c = true) :
    escapeToupper (escapeTolower symbol) = symbol := by
  rw [escapeToupper_plain (not_mem_escapeTolower upper (by decide +kernel))
    (not_mem_escapeTolower upper (by decide +kernel)), escapeTolower_eq, Model.GenBuildChain.lower,
    List.map_map, List.map_map]
  exact (List.map_congr_left fun c member => upper_round (upper c member)).trans (List.map_id symbol)

/-- The symbols that are assigned `y` are written in capitals. -/
def UpperSymbols (config : Config) : Prop :=
  ∀ entry ∈ config.entries, entry.2 = ['y'] → ∀ c ∈ entry.1, upperChar c = true

instance (config : Config) : Decidable (UpperSymbols config) :=
  inferInstanceAs (Decidable (∀ _ ∈ _, _))

theorem decoded_symbol (capitals : UpperSymbols config) {symbol : Text}
    (upper : ∀ c ∈ symbol, upperChar c = true) :
    Decoded config (escapeTolower symbol) ↔ config.Enabled ("CONFIG_".toList ++ symbol) := by
  have plain : '=' ∉ escapeTolower symbol := not_mem_escapeTolower upper (by decide +kernel)
  rw [decoded_iff plain]
  constructor
  · rintro ⟨other, enabled, same⟩
    have otherUpper : ∀ c ∈ other, upperChar c = true := fun c member =>
      capitals _ enabled rfl c (List.mem_append_right _ member)
    rw [← escapeToupper_escapeTolower upper, ← same, escapeToupper_escapeTolower otherUpper]
    exact enabled
  · exact fun enabled => ⟨symbol, enabled, rfl⟩

/-- Lower-case names are decoded exactly where they are enabled. -/
theorem decoded_name (capitals : UpperSymbols config) {name : Text} (lower : ∀ c ∈ name, lowerChar c = true) :
    Decoded config name ↔ config.EnabledName name := by
  have same := sameSymbol_of_lower lower
  have upper : ∀ c ∈ escapeToupper name, upperChar c = true := by
    rw [escapeToupper_plain same.1 same.2]
    intro c member
    obtain ⟨d, inside, rfl⟩ := List.mem_map.mp member
    obtain ⟨n, small, rfl⟩ := ascii_of_char (.inl (lower d inside))
    have all : ∀ n < 128, lowerChar (Char.ofNat n) = true →
        upperChar (if Char.ofNat n = '-' then '_' else (Char.ofNat n).toUpper) = true := by decide +kernel
    exact all n small (lower _ inside)
  have decoded := decoded_symbol capitals upper
  rw [escapeTolower_escapeToupper lower] at decoded
  exact decoded

/-- Ordinary packages: names in lower case, `-native` only at their end, conditions on symbols in
capitals, and every name that of a package. -/
structure Ordinary (actualList : List Item) (item : Item) : Prop extends Plain item where
  weakLower : ∀ name ∈ item.awdeps, ∀ c ∈ name, lowerChar c = true
  strongLower : ∀ name ∈ item.asdeps, ∀ c ∈ name, lowerChar c = true
  condLower : ∀ cond : CondDep, cond.text ∈ item.ideps → ∀ c ∈ cond.dep.text, lowerChar c = true
  condUpper : ∀ cond : CondDep, cond.text ∈ item.ideps →
    ∃ symbol, cond.condition.text = "CONFIG_".toList ++ symbol ∧ ∀ c ∈ symbol, upperChar c = true
  native : ∀ name, name ∈ item.asdeps ∨ name ∈ item.awdeps ∨
    (∃ cond : CondDep, cond.text ∈ item.ideps ∧ cond.dep.text = name) →
      (nativePart <:+: name → isNative name = true) ∧ ∃ other ∈ actualList, other.target = name
  prebuildNative : ∀ dep, prebuildPart ++ dep ∈ item.awdeps → isNative (prebuildPart ++ dep) = true →
    nativePart <:+: dep

theorem partner_plain {item : Item} (plain : Plain item) {dep : Text} (member : dep ∈ item.awdeps) :
    partner dep = prebuildPart ++ dep := by
  rw [partner, if_neg (plain.unpatched dep member).1]

theorem indexed_of_ordinary {actualList : List Item} (capitals : UpperSymbols config)
    (exclusive : Exclusive config) {item : Item} (ordinary : Ordinary actualList item) :
    Indexed config actualList item := by
  have named (name : Text) (member : name ∈ item.asdeps ∨ name ∈ item.awdeps ∨
      (∃ cond : CondDep, cond.text ∈ item.ideps ∧ cond.dep.text = name)) :
      Decoded config name ↔ config.EnabledName name := by
    rcases member with inside | inside | ⟨cond, inside, rfl⟩
    · exact decoded_name capitals (ordinary.strongLower name inside)
    · exact decoded_name capitals (ordinary.weakLower name inside)
    · exact decoded_name capitals (ordinary.condLower cond inside)
  have depends {name : Text} (taken : Taken config item name) : name ∈ item.asdeps ∨ name ∈ item.awdeps ∨
      (∃ cond : CondDep, cond.text ∈ item.ideps ∧ cond.dep.text = name) := by
    rcases taken with inside | ⟨_, inside | ⟨cond, inside, same, _⟩⟩
    · exact .inl inside
    · exact .inr (.inl inside)
    · exact .inr (.inr ⟨cond, inside, same⟩)
  constructor
  · rintro name _ (inside | inside | ⟨cond, inside, same, _⟩ | ⟨cond, inside, same, _⟩)
    · exact named name (.inl inside)
    · exact named name (.inr (.inl inside))
    · exact named name (.inr (.inr ⟨cond, inside, same⟩))
    · exact named name (.inr (.inr ⟨cond, inside, same⟩))
  · exact fun name taken => (ordinary.native name (depends taken)).1
  · intro cond inside _ _
    obtain ⟨symbol, same, upper⟩ := ordinary.condUpper cond inside
    rw [same, decodeCond, replaceOnce_front (by decide), List.nil_append]
    exact decoded_symbol capitals upper
  · intro name member removed enabled native _ _
    obtain ⟨dep, weak, rfl, bar⟩ := bar_of_removed ordinary.toPlain member removed
    refine ⟨dep, weak, bar, fun inside => ?_, fun decoded => ?_, partner_plain ordinary.toPlain weak⟩
    · have whole : nativePart <:+: prebuildPart ++ dep := inside.trans (List.suffix_append ..).isInfix
      simp [(ordinary.native _ (.inr (.inl member))).1 whole] at native
    · exact exclusive.prebuild dep ⟨enabled, (named dep (.inr (.inl weak))).mp decoded⟩
  · rintro name ⟨dep, weak, bar, plain, _, rfl⟩ decoded
    rw [partner_plain ordinary.toPlain weak] at decoded ⊢
    have inside := prebuild_of_bar ordinary.toPlain weak bar
    refine ⟨?_, .inr ⟨(named _ (.inr (.inl inside))).mp decoded, .inl inside⟩⟩
    rw [Bool.eq_false_iff]
    exact fun native => plain (ordinary.prebuildNative dep inside native)
  · exact fun name _ taken => (ordinary.native name (depends taken)).2

/-- A build with distinct package names, in which the strong dependences of an enabled package are
enabled. -/
structure Build where
  config : Config
  finallyList : List Text
  actualList : List Item
  listed : ∀ item ∈ actualList, Listed item
  distinct : (actualList.map (·.target)).Nodup
  strong : ∀ item ∈ actualList, config.EnabledName item.target → ∀ dep ∈ item.asdeps, config.EnabledName dep

namespace Build

variable (build : Build) {package : Text}

/-- What is released with the package. -/
def Releases (package name : Text) : Prop :=
  Released build.config build.finallyList build.actualList package name

/-- No package that is released with the root depends on a finally package. -/
def NoFinally (package : Text) : Prop :=
  ∀ item ∈ build.actualList, build.Releases package item.target →
    ∀ deps, makeReldeps build.config build.finallyList item = some deps → ∀ dep ∈ deps, dep ∉ build.finallyList

def configs : List Text := readConfigs build.config.lines

def targets : List (Text × List Text) := readTargets (build.actualList.map Item.targetLine)

/-- A released package is an enabled one of the list. -/
theorem exists_of_released {name : Text} (released : build.Releases package name) :
    ∃ item ∈ build.actualList, item.target = name ∧ build.config.EnabledName name ∧
      releaseFlag build.finallyList item = true := by
  cases released with
  | root rule => exact rule
  | dep _ _ _ _ rule => exact rule

/-- One step of the search from a released item is one step of the release rules. -/
theorem step_iff_released (noFinally : build.NoFinally package) {item : Item}
    (member : item ∈ build.actualList) (indexed : Indexed build.config build.actualList item)
    (released : build.Releases package item.target) (name : Text) :
    Step (successors build.configs build.targets) build.configs item.target name ↔
      ∃ deps, makeReldeps build.config build.finallyList item = some deps ∧ name ∈ deps ∧
        ReleaseRule build.config build.finallyList build.actualList name := by
  have listed := build.listed item member
  obtain ⟨other, inside, same, enabled, flag⟩ := build.exists_of_released released
  obtain rfl : other = item := List.inj_on_of_nodup_map build.distinct inside member same
  have strong := build.strong other member enabled
  obtain ⟨deps, made, mem_deps⟩ := @mem_makeReldeps build.config _ _ listed
  have leads : Step (successors build.configs build.targets) build.configs other.target name ↔
      Leads build.config other name := by
    rw [Step, successors, targets, targetDeps_actualList build.listed build.distinct member,
      List.mem_filterMap]
    rfl
  rw [leads, leads_iff_taken listed indexed strong]
  constructor
  · rintro ⟨native, taken⟩
    have inside := (mem_deps name).mpr ⟨⟨enabled, flag⟩, native, taken⟩
    obtain ⟨next, found, rfl⟩ := indexed.existing name native taken
    have notFinally := noFinally other member released deps made _ inside
    exact ⟨deps, made, inside, next, found, rfl, taken.elim (strong _) And.left,
      by simp [releaseFlag, native, notFinally]⟩
  · rintro ⟨deps', made', inside, _⟩
    cases made.symm.trans made'
    exact ((mem_deps name).mp inside).2

/-- The search follows the release rules from the root. -/
theorem reaches_iff_released (noFinally : build.NoFinally package)
    (root : ReleaseRule build.config build.finallyList build.actualList package)
    (indexed : ∀ item ∈ build.actualList, build.Releases package item.target →
      Indexed build.config build.actualList item) (name : Text) :
    Relation.ReflTransGen (Step (successors build.configs build.targets) build.configs) package name ↔
      build.Releases package name := by
  constructor
  · intro path
    induction path with
    | refl => exact .root root
    | tail _ step released =>
      obtain ⟨item, member, rfl, _⟩ := build.exists_of_released released
      obtain ⟨deps, made, inside, rule⟩ :=
        (build.step_iff_released noFinally member (indexed item member released) released _).mp step
      exact .dep released member made inside rule
  · intro released
    induction released with
    | root _ => exact .refl
    | dep released member made inside rule path =>
      exact path.tail ((build.step_iff_released noFinally member (indexed _ member released) released _).mpr
        ⟨_, made, inside, rule⟩)

end Build

/-- `parse_deptree` ends on every Target file. On the Target file and the `.config` of a build whose
released packages are indexed, it collects exactly the packages that are released with the root. -/
theorem parseDeptree_released (build : Build) {package : Text}
    (root : ReleaseRule build.config build.finallyList build.actualList package)
    (noFinally : build.NoFinally package) (decoded : Decoded build.config package)
    (indexed : ∀ item ∈ build.actualList, build.Releases package item.target →
      Indexed build.config build.actualList item) :
    (∀ configs targets package packages, ∃ result, ∀ fuel, configs.length < fuel →
      parseDeptree configs targets fuel package packages = some result) ∧
    ∃ packages, (∀ fuel, build.configs.length < fuel →
        parseDeptree build.configs build.targets fuel package [] = some packages) ∧
      ∀ name, name ∈ packages ↔ build.Releases package name := by
  obtain ⟨packages, ends⟩ := parseDeptree_ends build.configs build.targets package []
  refine ⟨parseDeptree_ends, packages, ends, fun name => ?_⟩
  have run := ends _ (Nat.lt_succ_self _)
  rw [parseDeptree_eq_visit] at run
  rw [mem_visit (Nat.lt_succ_self _) run, build.reaches_iff_released noFinally root indexed]
  exact and_iff_right decoded

def bare (name : Text) : Item := { target := name, path := name }

theorem bare_listed (name : Name) : Listed (bare name.text) where
  target := ⟨name, rfl⟩
  weak := by simp [bare]
  conds := by simp [bare]
  strong := by simp [bare]
  path := name.not_mem (by decide)

theorem bare_ordinary (actualList : List Item) (name : Text) : Ordinary actualList (bare name) := by
  constructor
  · constructor <;> simp [bare]
  all_goals simp [bare]

def appList : List Item :=
  [app, bare "libz".toList, bare "prebuild-libz".toList, bare "liba".toList, bare "core".toList]

theorem app_ordinary : Ordinary appList app where
  toPlain := app_plain
  weakLower := by decide
  strongLower := by decide
  condLower cond member := by
    have same := cond.idepName_text
    rw [List.mem_singleton.mp member] at same
    exact same ▸ by decide
  condUpper cond member := by
    have same := cond.splitIdep_text
    rw [List.mem_singleton.mp member] at same
    exact ⟨"FANCY".toList, (Prod.ext_iff.mp (Option.some.inj same)).2.symm, by decide⟩
  native name member := by
    have known : ∀ name ∈ ["core".toList, "libz".toList, "prebuild-libz".toList, "liba".toList],
        (nativePart <:+: name → isNative name = true) ∧ ∃ other ∈ appList, other.target = name := by
      decide +kernel
    refine known name ?_
    rcases member with inside | inside | ⟨cond, inside, rfl⟩
    · obtain rfl := List.mem_singleton.mp inside
      decide
    · simp only [app, List.mem_cons, List.not_mem_nil, or_false] at inside
      rcases inside with rfl | rfl <;> decide
    · have same := cond.idepName_text
      rw [List.mem_singleton.mp inside] at same
      exact same ▸ by decide
  prebuildNative dep member native := by
    simp only [app, List.mem_cons, List.not_mem_nil, or_false] at member
    rcases member with same | same <;> exact absurd (same ▸ native) (by decide +kernel)

def appBuild : Build where
  config := appConfig
  finallyList := []
  actualList := appList
  listed := by
    intro item member
    simp only [appList, List.mem_cons, List.not_mem_nil, or_false] at member
    rcases member with rfl | rfl | rfl | rfl | rfl
    · exact app_listed
    · exact bare_listed ⟨"libz".toList, by decide, by decide⟩
    · exact bare_listed ⟨"prebuild-libz".toList, by decide, by decide⟩
    · exact bare_listed ⟨"liba".toList, by decide, by decide⟩
    · exact bare_listed ⟨"core".toList, by decide, by decide⟩
  distinct := by decide
  strong := by decide

/-- The index of the package covers what is released with it. -/
theorem app_indexed : ∃ packages, (∀ fuel, appBuild.configs.length < fuel →
      parseDeptree appBuild.configs appBuild.targets fuel app.target [] = some packages) ∧
    ∀ name, name ∈ packages ↔ appBuild.Releases app.target name := by
  have root : ReleaseRule appConfig [] appList app.target :=
    ⟨app, List.mem_cons_self .., rfl, by decide, by decide +kernel⟩
  refine (parseDeptree_released appBuild root (by intro _ _ _ _ _ _ _; simp [appBuild]) (by decide +kernel) ?_).2
  intro item member _
  refine indexed_of_ordinary (by decide) (exclusive_of_symbols (by decide)) ?_
  simp only [appBuild, appList, List.mem_cons, List.not_mem_nil, or_false] at member
  rcases member with rfl | rfl | rfl | rfl | rfl
  · exact app_ordinary
  all_goals exact bare_ordinary _ _

def user : Item := { bare "user".toList with asdeps := ["lib_z".toList] }

/-- The package needs a library with an underscore in its name. -/
def underscored : Build where
  config := ⟨[("CONFIG_USER".toList, ['y']), ("CONFIG_LIB_Z".toList, ['y'])], by decide, by decide, by decide⟩
  finallyList := []
  actualList := [user, bare "lib_z".toList]
  listed := by
    intro item member
    simp only [List.mem_cons, List.not_mem_nil, or_false] at member
    rcases member with rfl | rfl
    · refine { bare_listed ⟨"user".toList, by decide, by decide⟩ with strong := fun dep member => ?_ }
      rw [List.mem_singleton.mp member]
      exact ⟨⟨"lib_z".toList, by decide, by decide⟩, rfl⟩
    · exact bare_listed ⟨"lib_z".toList, by decide, by decide⟩
  distinct := by decide
  strong := by decide

/-- The library is released with the package, but its name is decoded as `lib-z`. -/
theorem underscored_not_indexed : Exclusive underscored.config ∧ underscored.NoFinally "user".toList ∧
    underscored.Releases "user".toList "lib_z".toList ∧
    parseDeptree underscored.configs underscored.targets 3 "user".toList [] = some ["user".toList] := by
  have root : ReleaseRule underscored.config [] underscored.actualList "user".toList :=
    ⟨user, List.mem_cons_self .., rfl, by decide, by decide +kernel⟩
  have library : ReleaseRule underscored.config [] underscored.actualList "lib_z".toList :=
    ⟨_, List.mem_cons_of_mem _ (List.mem_singleton_self _), rfl, by decide, by decide +kernel⟩
  refine ⟨exclusive_of_symbols (by decide), by intro _ _ _ _ _ _ _; simp [underscored], ?_, by decide +kernel⟩
  have started : underscored.Releases "user".toList user.target := .root root
  exact .dep started (List.mem_cons_self ..) rfl (by decide +kernel) library

end CBuild.Soundness.LicenseIndex
