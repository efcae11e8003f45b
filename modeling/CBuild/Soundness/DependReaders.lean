import CBuild.Data.List
import CBuild.Model.GenBuildChain.MakeDeps
import CBuild.Soundness.TargetLine

/-! # Two readers of the dependences of a package

`get_depend_checksum_auto` resolves the words of the Target line against `.config`, and make reads
the conditionals of `<package>-deps`. They name the same packages exactly when, for each kind of
dependence, the symbol that the shell script greps for is assigned `y` where the symbol of the
Makefile is.
-/

namespace CBuild.Soundness.DependReaders

open CBuild.Data CBuild.Text CBuild.Model.GenBuildChain CBuild.Model.ProcessCache
open CBuild.Soundness.TargetLine

theorem grepPrefix_iff {pattern : Text} (plain : '.' ∉ pattern) (text : Text) :
    grepPrefix pattern text = true ↔ pattern <+: text := by
  induction pattern generalizing text with
  | nil => cases text <;> simp [grepPrefix]
  | cons p pattern ih =>
    have other : p ≠ '.' := fun same => plain (same ▸ List.mem_cons_self ..)
    have rest : '.' ∉ pattern := fun member => plain (List.mem_cons_of_mem _ member)
    cases text with
    | nil => simp [grepPrefix]
    | cons c text => simp [grepPrefix, other, ih rest, List.cons_prefix_cons]

theorem grepOnce_iff (config : Config) {symbol : Text} (plain : '=' ∉ symbol) (dot : '.' ∉ symbol) :
    grepOnce config.lines symbol = true ↔ config.Enabled symbol := by
  have tests (text : Text) : grepPrefix (symbol ++ "=y".toList) text = true ↔
      symbol ++ ['=', 'y'] <+: text := grepPrefix_iff (by simpa using dot) text
  rw [grepOnce, config.countP_lines plain tests]
  split <;> simp [*]

/-- The script finds the symbol of the name. -/
def Seen (config : Config) (name : Text) : Prop :=
  grepOnce config.lines (dashSymbol (translate name)) = true

instance (config : Config) (name : Text) : Decidable (Seen config name) :=
  inferInstanceAs (Decidable (_ = true))

variable {config : Config}

theorem resolve_question (dep : Text) :
    resolveDep config.lines ('?' :: dep) = if Seen config dep then some dep else none := by
  unfold Seen
  by_cases found : grepOnce config.lines (dashSymbol (translate dep)) = true <;> simp [resolveDep, found]

theorem resolve_bar (dep : Text) : resolveDep config.lines ('|' :: dep) =
    if Seen config dep then some dep
    else if grepOnce config.lines (dashSymbol (substitute dep).2) then some (substitute dep).1
    else none := by
  unfold Seen
  by_cases found : grepOnce config.lines (dashSymbol (translate dep)) = true <;> simp [resolveDep, found]

theorem resolve_name (name : Name) :
    resolveDep config.lines name.text = if Seen config name.text then some name.text else none := by
  have question : name.text.head? ≠ some '?' := name.head_ne (by decide)
  have bar : name.text.head? ≠ some '|' := name.head_ne (by decide)
  have plain : '@' ∉ name.text := name.not_mem (by decide)
  unfold Seen
  by_cases found : grepOnce config.lines (dashSymbol (translate name.text)) = true <;>
    simp [resolveDep, question, bar, plain, found]

theorem resolve_cond (cond : CondDep) : resolveDep config.lines (condWord cond) =
    if Seen config cond.dep.text ∧ config.Enabled cond.condition.text then some cond.dep.text else none := by
  have head (c : Char) (special : nameChar c = false) := condWord_head cond special
  have inside : '@' ∈ condWord cond := by simp [condWord]
  have dotless : '.' ∉ cond.condition.text := fun member => absurd (cond.condition.word _ member) (by decide)
  have holds := grepOnce_iff config (cond.condition.not_mem (by decide)) dotless
  unfold Seen
  simp only [← holds]
  by_cases found : grepOnce config.lines (dashSymbol (translate cond.dep.text)) = true <;>
    simp [resolveDep, head '?' (by decide), head '|' (by decide), inside, splitOn_condWord, found,
      cond.condition.nonempty]

/-- A conditional dependence on the name whose condition is enabled. -/
def Conditional (config : Config) (item : Item) (name : Text) : Prop :=
  ∃ cond : CondDep, cond.text ∈ item.ideps ∧ cond.dep.text = name ∧ config.Enabled cond.condition.text

/-- The weak dependence has no word of its own: the name without `prebuild-`, or with `-patch-` for `-unpatch-`, is
a weak dependence as well. -/
def LeftOut (item : Item) (name : Text) : Prop :=
  (prebuildPart <:+: name ∧ replaceOnce prebuildPart [] name ∈ item.awdeps) ∨
    (¬ prebuildPart <:+: name ∧ prebuildPart ++ name ∉ item.awdeps ∧ unpatchPart <:+: name ∧
      replaceOnce unpatchPart patchPart name ∈ item.awdeps)

/-- `prebuild-` stands in front of the name of a weak dependence that is not found itself, in which there is no
`prebuild-` and no `-patch-`. -/
def FromSource (config : Config) (item : Item) (name : Text) : Prop :=
  ∃ dep ∈ item.awdeps, name = prebuildPart ++ dep ∧ ¬ prebuildPart <:+: dep ∧ ¬ patchPart <:+: dep ∧
    ¬ Seen config dep

/-- Some word of the line is for the name. -/
def HasWord (config : Config) (item : Item) (name : Text) : Prop :=
  name ∈ item.asdeps ∨ Conditional config item name ∨
    name ∈ item.awdeps ∧ (LeftOut item name → FromSource config item name)

/-- The name is that of a patching package, but for underscores around `patch`; its own symbol is not found, and the
one with `_UNPATCH_` is. -/
def Slips (config : Config) (item : Item) (name : Text) : Prop :=
  ∃ dep ∈ item.awdeps, name = replace "_patch_".toList "_unpatch_".toList dep ∧ patchPart <:+: dep ∧
    ¬ prebuildPart <:+: dep ∧ (prebuildPart ++ dep ∈ item.awdeps ∨ ¬ unpatchPart <:+: dep) ∧ ¬ Seen config dep ∧
    grepOnce config.lines (dashSymbol (replace "_PATCH_".toList "_UNPATCH_".toList (translate dep))) = true

/-- What the word of a weak dependence resolves to. -/
theorem resolve_weak {item : Item} {dep marked name : Text} (named : ∃ name : Name, name.text = dep)
    (here : item.mark dep = some marked) :
    (∃ word, weakWord item dep = some word ∧ resolveDep config.lines word = some name) ↔
      (Seen config dep ∧ dep = name) ∨ (marked = '|' :: dep ∧ ¬ Seen config dep ∧
        (substitute dep).1 = name ∧ grepOnce config.lines (dashSymbol (substitute dep).2) = true) := by
  rcases mark_eq here with rfl | rfl | rfl
  · have word : weakWord item dep = some ('?' :: dep) := by simp [weakWord, here]
    simp [word, resolve_question]
  · have word : weakWord item dep = some ('|' :: dep) := by simp [weakWord, here]
    by_cases found : Seen config dep <;> simp [word, resolve_bar, found, and_comm]
  · have word : weakWord item dep = some dep := by simp [weakWord, here]
    obtain ⟨name, rfl⟩ := named
    simp [word, resolve_name]

theorem unlessIn_ne_bar (names : List Text) (dep : Text) : unlessIn names dep ≠ '|' :: dep := by
  rcases unlessIn_eq names dep with same | same <;> simp [same]

theorem mark_none_iff (item : Item) (dep : Text) : item.mark dep = none ↔ LeftOut item dep := by
  unfold Item.mark LeftOut
  by_cases inside : prebuildPart <:+: dep
  · by_cases partner : replaceOnce prebuildPart [] dep ∈ item.awdeps <;> simp [inside, partner]
  · by_cases prebuilt : prebuildPart ++ dep ∈ item.awdeps
    · simp [inside, prebuilt]
    · by_cases unpatch : unpatchPart <:+: dep
      · by_cases partner : replaceOnce unpatchPart patchPart dep ∈ item.awdeps <;>
          simp [inside, prebuilt, unpatch, partner]
      · simp only [inside, prebuilt, unpatch, if_false, false_and, and_false, or_false, iff_false]
        split
        · split <;> exact Option.some_ne_none _
        · exact Option.some_ne_none _

/-- Every patching package gets a `|`, since there is no `-unpatch-` to be replaced in its name. -/
theorem mark_bar_iff {item : Item} {dep : Text} (member : dep ∈ item.awdeps) :
    item.mark dep = some ('|' :: dep) ↔ ¬ prebuildPart <:+: dep ∧
      (prebuildPart ++ dep ∈ item.awdeps ∨ ¬ unpatchPart <:+: dep ∧ patchPart <:+: dep) := by
  unfold Item.mark
  by_cases inside : prebuildPart <:+: dep
  · by_cases partner : replaceOnce prebuildPart [] dep ∈ item.awdeps <;> simp [inside, partner, unlessIn_ne_bar]
  · by_cases prebuilt : prebuildPart ++ dep ∈ item.awdeps
    · simp [inside, prebuilt]
    · by_cases unpatch : unpatchPart <:+: dep
      · by_cases partner : replaceOnce unpatchPart patchPart dep ∈ item.awdeps <;>
          simp [inside, prebuilt, unpatch, partner, unlessIn_ne_bar]
      · have itself : replaceOnce unpatchPart patchPart dep ∈ item.awdeps :=
          (replaceOnce_of_absent unpatch).symm ▸ member
        by_cases patch : patchPart <:+: dep <;> simp [inside, prebuilt, unpatch, patch, itself, unlessIn_ne_bar]

theorem substitute_prebuild {dep : Text} (patch : ¬ patchPart <:+: dep) :
    (substitute dep).1 = prebuildPart ++ dep ∧
      (grepOnce config.lines (dashSymbol (substitute dep).2) = true ↔ Seen config (prebuildPart ++ dep)) := by
  rw [substitute, if_pos patch]
  exact ⟨rfl, by rw [translate_prebuild]; rfl⟩

/-- What a `|` word stands for: the prebuilt package, or a patching package. -/
theorem standsIn_iff {item : Item} {name : Text} :
    (∃ dep ∈ item.awdeps, item.mark dep = some ('|' :: dep) ∧ ¬ Seen config dep ∧ (substitute dep).1 = name ∧
        grepOnce config.lines (dashSymbol (substitute dep).2) = true) ↔
      (name ∈ item.awdeps ∧ FromSource config item name ∧ Seen config name) ∨ Slips config item name := by
  constructor
  · rintro ⟨dep, member, bar, unseen, same, found⟩
    obtain ⟨inside, reason⟩ := (mark_bar_iff member).mp bar
    by_cases patch : patchPart <:+: dep
    · rw [substitute, if_neg (not_not.mpr patch)] at same found
      exact .inr ⟨dep, member, same.symm, patch, inside, reason.imp_right And.left, unseen, found⟩
    · obtain ⟨first, symbol⟩ := @substitute_prebuild config _ patch
      have prebuilt : prebuildPart ++ dep ∈ item.awdeps := reason.resolve_right fun other => patch other.2
      obtain rfl := first.symm.trans same
      exact .inl ⟨prebuilt, ⟨dep, member, rfl, inside, patch, unseen⟩, symbol.mp found⟩
  · rintro (⟨prebuilt, ⟨dep, member, rfl, inside, patch, unseen⟩, seen⟩ |
      ⟨dep, member, rfl, patch, inside, reason, unseen, found⟩)
    · obtain ⟨first, symbol⟩ := @substitute_prebuild config _ patch
      exact ⟨dep, member, (mark_bar_iff member).mpr ⟨inside, .inl prebuilt⟩, unseen, first, symbol.mpr seen⟩
    · refine ⟨dep, member, (mark_bar_iff member).mpr ⟨inside, reason.imp_right fun no => ⟨no, patch⟩⟩, unseen, ?_⟩
      rw [substitute, if_neg (not_not.mpr patch)]
      exact ⟨rfl, found⟩

/-- The names that the script resolves are those with a word whose symbol is found, and the patching packages whose
unpatching ones are found. -/
theorem mem_resolved {item : Item} (listed : Listed item) {name : Text} :
    name ∈ getDependChecksumAuto config.lines item.target item.targetLine ↔
      (HasWord config item name ∧ Seen config name) ∨ Slips config item name := by
  have stands := @standsIn_iff config item name
  rw [getDependChecksumAuto_targetLine config.lines listed, List.mem_filterMap]
  constructor
  · rintro ⟨word, member, found⟩
    rcases (mem_dvars listed).mp member with ⟨dep, inside, here⟩ | ⟨cond, inside, rfl⟩ | inside
    · obtain ⟨marked, mark, _⟩ := Option.map_eq_some_iff.mp here
      obtain ⟨text, same, _⟩ := listed.weak dep inside
      rcases (resolve_weak ⟨text, same⟩ mark).mp ⟨word, here, found⟩ with ⟨seen, rfl⟩ | ⟨rfl, other⟩
      · have kept : ¬ LeftOut item dep := by
          rw [← mark_none_iff, mark]
          exact Option.some_ne_none _
        exact .inl ⟨.inr (.inr ⟨inside, fun left => absurd left kept⟩), seen⟩
      · exact (stands.mp ⟨dep, inside, mark, other⟩).imp_left fun ⟨weak, source, seen⟩ =>
          ⟨.inr (.inr ⟨weak, fun _ => source⟩), seen⟩
    · rw [resolve_cond, Option.ite_none_right_eq_some] at found
      obtain ⟨⟨seen, holds⟩, same⟩ := found
      cases same
      exact .inl ⟨.inr (.inl ⟨cond, inside, rfl, holds⟩), seen⟩
    · obtain ⟨text, rfl⟩ := listed.strong word inside
      rw [resolve_name, Option.ite_none_right_eq_some] at found
      obtain ⟨seen, same⟩ := found
      cases same
      exact .inl ⟨.inl inside, seen⟩
  · have weak (standing : (name ∈ item.awdeps ∧ FromSource config item name ∧ Seen config name) ∨
        Slips config item name) : ∃ word ∈ item.dvars, resolveDep config.lines word = some name := by
      obtain ⟨dep, inside, mark, other⟩ := stands.mpr standing
      obtain ⟨text, same, _⟩ := listed.weak dep inside
      obtain ⟨word, here, found⟩ := (resolve_weak ⟨text, same⟩ mark).mpr (.inr ⟨rfl, other⟩)
      exact ⟨word, (mem_dvars listed).mpr (.inl ⟨dep, inside, here⟩), found⟩
    rintro (⟨inside | ⟨cond, inside, rfl, holds⟩ | ⟨inside, partner⟩, seen⟩ | slips)
    · obtain ⟨text, rfl⟩ := listed.strong name inside
      exact ⟨text.text, (mem_dvars listed).mpr (.inr (.inr inside)), by simp [resolve_name, seen]⟩
    · exact ⟨_, (mem_dvars listed).mpr (.inr (.inl ⟨cond, inside, rfl⟩)), by simp [resolve_cond, seen, holds]⟩
    · by_cases left : LeftOut item name
      · exact weak (.inl ⟨inside, partner left, seen⟩)
      · rw [← mark_none_iff, Option.eq_none_iff_forall_ne_some] at left
        push Not at left
        obtain ⟨marked, mark⟩ := left
        obtain ⟨text, same, _⟩ := listed.weak name inside
        obtain ⟨word, here, found⟩ := (resolve_weak ⟨text, same⟩ mark).mpr (.inl ⟨seen, rfl⟩)
        exact ⟨word, (mem_dvars listed).mpr (.inl ⟨name, inside, here⟩), found⟩
    · exact weak (.inr slips)

theorem weakCondition_name (name : Name) : weakCondition config name.text =
    some (if config.EnabledName name.text then [name.text] else []) := by
  rw [weakCondition, if_neg (name.not_mem (by decide))]

theorem weakCondition_cond (cond : CondDep) : weakCondition config cond.text =
    some (if config.EnabledName cond.dep.text ∧ config.Enabled cond.condition.text then [cond.dep.text]
      else []) := by
  have inside : '@' ∈ cond.text := by
    rw [CondDep.text]
    cases cond.double <;> simp
  rw [weakCondition, if_pos inside, cond.splitIdep_text]
  rfl

/-- The conditionals around the weak dependences and what they let through. -/
theorem weakConditions {item : Item} (listed : Listed item) :
    ∃ weak, (item.awdeps ++ item.ideps).mapM (weakCondition config) = some weak ∧ ∀ name,
      name ∈ weak.flatten ↔ config.EnabledName name ∧ (name ∈ item.awdeps ∨ Conditional config item name) := by
  have total : ∀ dep ∈ item.awdeps ++ item.ideps, ∃ names, weakCondition config dep = some names := by
    intro dep member
    rcases List.mem_append.mp member with inside | inside
    · obtain ⟨text, rfl, _⟩ := listed.weak dep inside
      exact ⟨_, weakCondition_name text⟩
    · obtain ⟨cond, rfl⟩ := listed.conds dep inside
      exact ⟨_, weakCondition_cond cond⟩
  obtain ⟨weak, success⟩ := mapM_some total
  refine ⟨weak, success, fun name => ?_⟩
  rw [List.mem_flatten]
  constructor
  · rintro ⟨names, member, inside⟩
    obtain ⟨dep, listedDep, here⟩ := (mem_of_mapM success).mp member
    rcases List.mem_append.mp listedDep with weakDep | condDep
    · obtain ⟨text, rfl, _⟩ := listed.weak dep weakDep
      rw [weakCondition_name, Option.some.injEq] at here
      rw [← here, List.mem_ite_nil_right, List.mem_singleton] at inside
      obtain ⟨enabled, rfl⟩ := inside
      exact ⟨enabled, .inl weakDep⟩
    · obtain ⟨cond, rfl⟩ := listed.conds dep condDep
      rw [weakCondition_cond, Option.some.injEq] at here
      rw [← here, List.mem_ite_nil_right, List.mem_singleton] at inside
      obtain ⟨⟨enabled, holds⟩, rfl⟩ := inside
      exact ⟨enabled, .inr ⟨cond, condDep, rfl, holds⟩⟩
  · rintro ⟨enabled, weakDep | ⟨cond, condDep, rfl, holds⟩⟩
    · obtain ⟨text, rfl, _⟩ := listed.weak name weakDep
      obtain ⟨names, member, here⟩ := exists_of_mapM success (List.mem_append_left _ weakDep)
      rw [weakCondition_name, if_pos enabled, Option.some.injEq] at here
      exact ⟨names, member, here ▸ List.mem_singleton_self _⟩
    · obtain ⟨names, member, here⟩ := exists_of_mapM success (List.mem_append_right _ condDep)
      rw [weakCondition_cond, if_pos ⟨enabled, holds⟩, Option.some.injEq] at here
      exact ⟨names, member, here ▸ List.mem_singleton_self _⟩

theorem mem_makeDeps {item : Item} (listed : Listed item) : ∃ deps, makeDeps config item = some deps ∧
    ∀ name, name ∈ deps ↔ config.EnabledName item.target ∧ (name ∈ item.asdeps ∨
      config.EnabledName name ∧ (name ∈ item.awdeps ∨ Conditional config item name)) := by
  obtain ⟨weak, success, same⟩ := @weakConditions config _ listed
  refine ⟨_, by rw [makeDeps, success]; rfl, fun name => ?_⟩
  simp [List.mem_append, same, or_comm]

/-- The symbols of `.config` and the names of the dependences for which the readers agree. -/
structure ReadAlike (config : Config) (item : Item) : Prop where
  /-- No symbol of a word is found for a package that is not enabled. -/
  disabled : ¬ config.EnabledName item.target → ∀ name, HasWord config item name → ¬ Seen config name
  /-- The symbols of the strong dependences are found. -/
  strong : config.EnabledName item.target → ∀ name ∈ item.asdeps, ¬ Slips config item name → Seen config name
  /-- The two symbols of another dependence with a word are the same, or both are not assigned `y`. -/
  symbols : config.EnabledName item.target → ∀ name ∉ item.asdeps, ¬ Slips config item name →
    HasWord config item name → (Seen config name ↔ config.EnabledName name)
  /-- An enabled weak dependence has a word, or its source package has one. -/
  words : config.EnabledName item.target → ∀ name ∈ item.awdeps, name ∉ item.asdeps → ¬ Slips config item name →
    config.EnabledName name → HasWord config item name
  /-- A patching package that is taken for its unpatching one is an enabled dependence all the same. -/
  slips : ∀ name, Slips config item name → config.EnabledName item.target ∧ (name ∈ item.asdeps ∨
    config.EnabledName name ∧ (name ∈ item.awdeps ∨ Conditional config item name))

/-- The names resolved from the Target line are those of `<package>-deps` exactly when the symbols and the names of
the dependences let the readers agree. -/
theorem resolved_iff_makeDeps {item : Item} (listed : Listed item) :
    ∃ deps, makeDeps config item = some deps ∧
      ((∀ name, name ∈ getDependChecksumAuto config.lines item.target item.targetLine ↔ name ∈ deps) ↔
        ReadAlike config item) := by
  obtain ⟨deps, success, made⟩ := @mem_makeDeps config _ listed
  refine ⟨deps, success, ?_⟩
  have conditional {name : Text} (cond : Conditional config item name) : HasWord config item name := .inr (.inl cond)
  have weak {name : Text} (word : HasWord config item name) (other : name ∉ item.asdeps) :
      name ∈ item.awdeps ∨ Conditional config item name :=
    (word.resolve_left other).symm.imp_left And.left
  simp only [mem_resolved listed, made]
  constructor
  · intro same
    constructor
    · intro off name word seen
      exact off ((same name).mp (.inl ⟨word, seen⟩)).1
    · intro on name strong other
      exact (((same name).mpr ⟨on, .inl strong⟩).resolve_right other).2
    · intro on name strong other word
      refine ⟨fun seen => ?_, fun enabled => ?_⟩
      · exact (((same name).mp (.inl ⟨word, seen⟩)).2.resolve_left strong).1
      · exact (((same name).mpr ⟨on, .inr ⟨enabled, weak word strong⟩⟩).resolve_right other).2
    · intro on name member strong other enabled
      exact (((same name).mpr ⟨on, .inr ⟨enabled, .inl member⟩⟩).resolve_right other).1
    · exact fun name slips => (same name).mp (.inr slips)
  · intro alike name
    constructor
    · rintro (⟨word, seen⟩ | slips)
      · by_cases slips : Slips config item name
        · exact alike.slips name slips
        have on : config.EnabledName item.target := by_contra fun off => alike.disabled off name word seen
        by_cases strong : name ∈ item.asdeps
        · exact ⟨on, .inl strong⟩
        · exact ⟨on, .inr ⟨(alike.symbols on name strong slips word).mp seen, weak word strong⟩⟩
      · exact alike.slips name slips
    · rintro ⟨on, kind⟩
      by_cases slips : Slips config item name
      · exact .inr slips
      by_cases strong : name ∈ item.asdeps
      · exact .inl ⟨.inl strong, alike.strong on name strong slips⟩
      obtain ⟨enabled, kind⟩ := kind.resolve_left strong
      have word : HasWord config item name :=
        kind.elim (fun member => alike.words on name member strong slips enabled) conditional
      exact .inl ⟨word, (alike.symbols on name strong slips word).mpr enabled⟩

/-- At most one of a prebuilt package and its source package, and one of a patching package and its
unpatching package, is enabled. -/
structure Exclusive (config : Config) : Prop where
  prebuild : ∀ name, ¬ (config.EnabledName (prebuildPart ++ name) ∧ config.EnabledName name)
  patch : ∀ first rest, ¬ (config.EnabledName (first ++ patchPart ++ rest) ∧
    config.EnabledName (first ++ unpatchPart ++ rest))

def SameSymbol (name : Text) : Prop := '.' ∉ name ∧ '+' ∉ name

instance (name : Text) : Decidable (SameSymbol name) := inferInstanceAs (Decidable (_ ∧ _))

/-- Dependences without dots and plus signs, without patches, and with `prebuild-` only in front. -/
structure Plain (item : Item) : Prop where
  weak : ∀ dep ∈ item.awdeps, SameSymbol dep
  strong : ∀ dep ∈ item.asdeps, SameSymbol dep
  conds : ∀ cond : CondDep, cond.text ∈ item.ideps → SameSymbol cond.dep.text
  unpatched : ∀ dep ∈ item.awdeps, ¬ patchPart <:+: dep ∧ ¬ unpatchPart <:+: dep
  prebuild : ∀ dep ∈ item.awdeps, prebuildPart <:+: dep →
    ∃ name, dep = prebuildPart ++ name ∧ ¬ prebuildPart <:+: name

theorem translate_plain {name : Text} (same : SameSymbol name) : translate name = escapeToupper name :=
  (escapeToupper_plain same.1 same.2).symm

/-- Where the translations agree, the script finds exactly the enabled names. -/
theorem seen_plain (name : Name) (same : SameSymbol name.text) :
    Seen config name.text ↔ config.EnabledName name.text := by
  have symbol : dashSymbol (translate name.text) = configSymbol name.text :=
    congrArg dashSymbol (translate_plain same)
  have dot : '.' ∉ dashSymbol (translate name.text) := by
    intro member
    rcases List.mem_append.mp member with outside | inside
    · exact absurd outside (by decide)
    · obtain ⟨c, here, upper⟩ := List.mem_map.mp inside
      split at upper
      · exact absurd upper (by decide)
      · exact same.1 (toUpper_eq (by decide) upper ▸ here)
  rw [Seen, grepOnce_iff config (symbol ▸ configSymbol_plain (name.not_mem (by decide))) dot, symbol]
  rfl

theorem slips_plain {item : Item} (plain : Plain item) (name : Text) : ¬ Slips config item name := by
  rintro ⟨dep, member, -, patch, -⟩
  exact (plain.unpatched dep member).1 patch

/-- A plain dependence without a word is a prebuilt package. -/
theorem LeftOut.source {item : Item} (plain : Plain item) {name : Text} (member : name ∈ item.awdeps)
    (left : LeftOut item name) : ∃ dep ∈ item.awdeps, name = prebuildPart ++ dep ∧ ¬ prebuildPart <:+: dep := by
  rcases left with ⟨inside, source⟩ | ⟨-, -, unpatch, -⟩
  · obtain ⟨dep, rfl, once⟩ := plain.prebuild name member inside
    rw [replaceOnce_front (by simp [prebuildPart]), List.nil_append] at source
    exact ⟨dep, source, rfl, once⟩
  · exact absurd unpatch (plain.unpatched name member).2

/-- An enabled prebuilt package that is left out is one whose source package is not found. -/
theorem fromSource_plain (exclusive : Exclusive config) {item : Item} (listed : Listed item) (plain : Plain item)
    {name : Text} (member : name ∈ item.awdeps) (left : LeftOut item name) (enabled : config.EnabledName name) :
    FromSource config item name := by
  obtain ⟨dep, source, rfl, once⟩ := left.source plain member
  refine ⟨dep, source, rfl, once, (plain.unpatched dep source).1, fun seen => ?_⟩
  obtain ⟨text, rfl, _⟩ := listed.weak dep source
  exact exclusive.prebuild text.text ⟨enabled, (seen_plain text (plain.weak _ source)).mp seen⟩

/-- Without patches, only a weak dependence whose prebuilt package is one as well gets a `|`. -/
theorem prebuild_of_bar {item : Item} (plain : Plain item) {dep : Text} (member : dep ∈ item.awdeps)
    (bar : item.mark dep = some ('|' :: dep)) : prebuildPart ++ dep ∈ item.awdeps :=
  ((mark_bar_iff member).mp bar).2.resolve_right fun other => (plain.unpatched dep member).1 other.2

/-- Without patches, what is left out is a prebuilt package whose source package gets a `|`. -/
theorem bar_of_removed {item : Item} (plain : Plain item) {name : Text} (member : name ∈ item.awdeps)
    (removed : item.mark name = none) : ∃ dep ∈ item.awdeps, name = prebuildPart ++ dep ∧
      item.mark dep = some ('|' :: dep) := by
  obtain ⟨dep, source, rfl, once⟩ := ((mark_none_iff item name).mp removed).source plain member
  exact ⟨dep, source, rfl, (mark_bar_iff source).mpr ⟨once, .inl member⟩⟩

/-- The two readers agree on an enabled package with plain dependences of which the strong ones are
enabled. -/
theorem readAlike_of_plain (exclusive : Exclusive config) {item : Item} (listed : Listed item)
    (plain : Plain item) (on : config.EnabledName item.target)
    (strong : ∀ dep ∈ item.asdeps, config.EnabledName dep) : ReadAlike config item where
  disabled off := absurd on off
  strong _ name member _ := by
    obtain ⟨text, rfl⟩ := listed.strong name member
    exact (seen_plain text (plain.strong _ member)).mpr (strong _ member)
  symbols _ name other _ word := by
    rcases word.resolve_left other with ⟨cond, member, rfl, _⟩ | ⟨member, _⟩
    · exact seen_plain cond.dep (plain.conds cond member)
    · obtain ⟨text, rfl, _⟩ := listed.weak name member
      exact seen_plain text (plain.weak _ member)
  words _ name member _ _ enabled :=
    .inr (.inr ⟨member, fun left => fromSource_plain exclusive listed plain member left enabled⟩)
  slips name slips := absurd slips (slips_plain plain name)

theorem exclusive_of_symbols (absent : ∀ entry ∈ config.entries,
    ¬ "CONFIG_PREBUILD_".toList <+: entry.1 ∧ ¬ "_PATCH_".toList <:+: entry.1) : Exclusive config where
  prebuild name enabled := by
    have part : configSymbol prebuildPart = "CONFIG_PREBUILD_".toList := by decide +kernel
    have symbol : configSymbol (prebuildPart ++ name) = "CONFIG_PREBUILD_".toList ++ escapeToupper name :=
      (configSymbol_append ..).trans (congrArg (· ++ escapeToupper name) part)
    exact (absent _ enabled.1).1 ⟨escapeToupper name, symbol.symm⟩
  patch first rest enabled := by
    have part : escapeToupper patchPart = "_PATCH_".toList := by decide +kernel
    have symbol : configSymbol (first ++ patchPart ++ rest) =
        configSymbol first ++ "_PATCH_".toList ++ escapeToupper rest := by
      rw [configSymbol_append, configSymbol_append, part]
    exact (absent _ enabled.1).2 ⟨configSymbol first, escapeToupper rest, symbol.symm⟩

def app : Item :=
  { target := "app".toList, awdeps := ["libz".toList, "prebuild-libz".toList]
    ideps := ["liba@@CONFIG_FANCY".toList], asdeps := ["core".toList], path := "app".toList }

def appConfig : Config :=
  ⟨[("CONFIG_APP".toList, ['y']), ("CONFIG_CORE".toList, ['y']), ("CONFIG_LIBZ".toList, ['y'])],
    by decide, by decide, by decide⟩

theorem app_listed : Listed app where
  target := ⟨⟨"app".toList, by decide, by decide⟩, rfl⟩
  weak := by
    rintro dep member
    simp only [app, List.mem_cons, List.not_mem_nil, or_false] at member
    rcases member with rfl | rfl
    · exact ⟨⟨"libz".toList, by decide, by decide⟩, rfl, by decide⟩
    · exact ⟨⟨"prebuild-libz".toList, by decide, by decide⟩, rfl, by decide⟩
  conds := by
    rintro idep member
    rw [List.mem_singleton.mp member]
    exact ⟨⟨true, ⟨"liba".toList, by decide, by decide⟩,
      ⟨⟨"CONFIG_FANCY".toList, by decide, by decide⟩, by decide⟩⟩, rfl⟩
  strong := by
    rintro dep member
    rw [List.mem_singleton.mp member]
    exact ⟨⟨"core".toList, by decide, by decide⟩, rfl⟩
  path := by decide

theorem app_plain : Plain app where
  weak := by decide
  strong := by decide
  conds cond member := by
    have same := cond.idepName_text
    rw [List.mem_singleton.mp member] at same
    exact same ▸ by decide
  unpatched := by decide +kernel
  prebuild := by
    rintro dep member
    simp only [app, List.mem_cons, List.not_mem_nil, or_false] at member
    rcases member with rfl | rfl
    · exact fun inside => absurd inside (by decide +kernel)
    · exact fun _ => ⟨"libz".toList, by decide +kernel, by decide +kernel⟩

/-- The two readers agree on the package. -/
theorem app_resolved : ∃ deps, makeDeps appConfig app = some deps ∧
    ∀ name, name ∈ getDependChecksumAuto appConfig.lines app.target app.targetLine ↔ name ∈ deps := by
  obtain ⟨deps, success, agree⟩ := @resolved_iff_makeDeps appConfig _ app_listed
  refine ⟨deps, success, agree.mpr ?_⟩
  exact readAlike_of_plain (exclusive_of_symbols (by decide)) app_listed app_plain (by decide) (by decide)

def patched : Item :=
  { target := "user".toList, awdeps := ["lib-patch-fix".toList, "lib-unpatch-fix".toList], path := "user".toList }

def unpatchedConfig : Config :=
  ⟨[("CONFIG_USER".toList, ['y']), ("CONFIG_LIB_UNPATCH_FIX".toList, ['y'])],
    by decide, by decide, by decide⟩

theorem patched_listed : Listed patched where
  target := ⟨⟨"user".toList, by decide, by decide⟩, rfl⟩
  weak := by
    rintro dep member
    simp only [patched, List.mem_cons, List.not_mem_nil, or_false] at member
    rcases member with rfl | rfl
    · exact ⟨⟨"lib-patch-fix".toList, by decide, by decide⟩, rfl, by decide⟩
    · exact ⟨⟨"lib-unpatch-fix".toList, by decide, by decide⟩, rfl, by decide⟩
  conds := by simp [patched]
  strong := by simp [patched]
  path := by decide

/-- With the unpatching package enabled, the script resolves the patching package. -/
theorem patched_resolved_differs : Listed patched ∧ Exclusive unpatchedConfig ∧
    makeDeps unpatchedConfig patched = some ["lib-unpatch-fix".toList] ∧
    getDependChecksumAuto unpatchedConfig.lines patched.target patched.targetLine =
      ["lib-patch-fix".toList] :=
  ⟨patched_listed, exclusive_of_symbols (by decide), by decide +kernel, by decide +kernel⟩

end CBuild.Soundness.DependReaders
