import CBuild.Model.GenBuildChain.Features
import CBuild.Soundness.NativeTwins

/-! # Feature options and conditional dependences

A feature that lists a dependence gives a conditional dependence on the symbol that `ft-config` reads. The native
copy keeps one condition for each name, so a name that several features list follows the first of them.
-/

namespace CBuild.Soundness.FeatureOptions

open CBuild.Text CBuild.Model.GenBuildChain CBuild.Soundness.NativeTwins

variable {config : Config} {uniPackages : List Text} {target conf : Text} {item kept nitem : Item}
  {statements : List FtConfig} {dep cond name word : Text} {deps targetList : List Text}

def condWord (dep cond : Text) : Text := dep ++ "@@".toList ++ cond

/-- Every symbol that `ft-config` reads is an entry of the package's blocks. -/
def SymbolsDefined (reg : Registry) (item : Item) (native : Bool) (statements : List FtConfig) : Prop :=
  ∀ st ∈ statements, st.symbol native ∈ featureSymbols reg item

/-- The package's block is written: it does not share its Kconfig file, or it is the last to share it. -/
def BlockWritten (reg : Registry) (item : Item) : Prop :=
  item.conf = "kconfig".toList → (sharedTargets reg item.target).getLast? = some item.target

/-- The package names the dependence in its statements of features only; `rename` is how names are spelled in the
Makefile. -/
structure FeatureOnly (rename : Text → Text) (item : Item) (name : Text) : Prop where
  strong : ∀ dep ∈ item.asdeps, rename dep ≠ name
  weak : ∀ dep ∈ item.awdeps, rename (idepName dep) ≠ name
  conditional : ∀ idep ∈ item.ideps, rename (idepName idep) ≠ name

/-- A feature that lists the dependence is enabled. -/
def Wanted (config : Config) (rename : Text → Text) (native : Bool) (statements : List FtConfig) (name : Text) : Prop :=
  ∃ st ∈ statements, (∃ dep ∈ st.names, rename dep = name) ∧ config.Enabled (st.symbol native)

/-- The first feature that lists the dependence. -/
def firstLister (rename : Text → Text) (statements : List FtConfig) (name : Text) : Option FtConfig :=
  statements.find? fun st => ∃ dep ∈ st.names, rename dep = name

/-- The first feature that lists the dependence is enabled, and it is not the package itself. -/
def FirstWanted (config : Config) (rename : Text → Text) (native : Bool) (statements : List FtConfig)
    (target name : Text) : Prop :=
  name ≠ target ∧ ∃ st, firstLister rename statements name = some st ∧ config.Enabled (st.symbol native)

/-- Of the dependences of features, the Makefile gives the package those that are enabled packages and wanted. -/
def Follows (config : Config) (rename : Text → Text) (targetList : List Text) (item kept : Item)
    (statements : List FtConfig) (wanted : Text → Prop) : Prop :=
  ∀ deps, makeDeps config kept = some deps → ∀ st ∈ statements, ∀ dep ∈ st.names,
    FeatureOnly rename item (rename dep) →
      (rename dep ∈ deps ↔ rename dep ∈ targetList ∧ config.EnabledName (rename dep) ∧ wanted (rename dep))

/-- The dependences that features list are names. -/
def Named (statements : List FtConfig) : Prop := ∀ st ∈ statements, ∀ dep ∈ st.names, '@' ∉ dep

/-- The users of the statements agree about the package and about its native copy; `item` is the package before its
features are read. -/
structure OptionsAgree (config : Config) (uniPackages targetList : List Text) (item full : Item)
    (statements : List FtConfig) : Prop where
  defined : ∀ reg, BlockWritten reg full → SymbolsDefined reg full false statements
  follows : ∀ strict kept, filterItem strict targetList full = some kept → config.EnabledName item.target →
    Follows config id targetList item kept statements (Wanted config id false statements)
  nativeDefined : ∀ pathExists reg reg' nitem, full.getNativeDeps pathExists uniPackages reg = some (reg', nitem) →
    ∀ final, BlockWritten final nitem → SymbolsDefined final nitem true statements
  nativeFollows : item.conf ≠ "kconfig".toList → ∀ pathExists reg reg' nitem,
    full.getNativeDeps pathExists uniPackages reg = some (reg', nitem) →
    ∀ strict kept, filterItem strict targetList nitem = some kept → config.EnabledName nitem.target →
      Follows config (toNative uniPackages) targetList item kept statements
        (FirstWanted config (toNative uniPackages) true statements nitem.target)

theorem idepName_plain (plain : '@' ∉ name) : idepName name = name := by
  rw [idepName, List.takeWhile_eq_self_iff]
  intro c member
  simpa using fun same : c = '@' => plain (same ▸ member)

theorem idepName_append {rest : Text} (plain : '@' ∉ dep) : idepName (dep ++ '@' :: rest) = dep := by
  rw [idepName, List.takeWhile_append_of_pos]
  · simp
  · intro c member
    simpa using fun same : c = '@' => plain (same ▸ member)

theorem idepName_condWord (plain : '@' ∉ dep) : idepName (condWord dep cond) = dep := by
  have shape : condWord dep cond = dep ++ '@' :: '@' :: cond := by
    rw [condWord, List.append_assoc]
    rfl
  rw [shape, idepName_append plain]

theorem at_mem_condWord : '@' ∈ condWord dep cond := by simp [condWord]

theorem splitIdep_condWord (plain : '@' ∉ dep) (plainCond : '@' ∉ cond) :
    splitIdep (condWord dep cond) = some (dep, cond) := by
  have rest : (condWord dep cond).drop dep.length = "@@".toList ++ cond := by
    rw [condWord, List.append_assoc]
    exact List.drop_left
  have tail : ("@@".toList ++ cond).dropWhile (· = '@') = cond := by
    cases cond with
    | nil => rfl
    | cons c cond =>
      have other : c ≠ '@' := fun same => plainCond (same ▸ List.mem_cons_self ..)
      simp [other]
  rw [splitIdep, idepName_condWord plain, rest, tail, if_pos ⟨by simp, plainCond⟩]

theorem splitIdep_name {pair : Text × Text} (split : splitIdep word = some pair) : pair.1 = idepName word := by
  rw [splitIdep] at split
  split at split
  · cases split
    rfl
  · cases split

/-- A condition adds at most the name of its dependence. -/
theorem weakCondition_name {names : List Text} (made : weakCondition config word = some names)
    (member : name ∈ names) : name = idepName word := by
  rw [weakCondition] at made
  split at made
  · simp only [bind, Option.bind_eq_some_iff] at made
    obtain ⟨pair, split, result⟩ := made
    cases result
    split at member
    · rw [List.mem_singleton.mp member, splitIdep_name split]
    · cases member
  · next plain =>
    cases made
    split at member
    · rw [List.mem_singleton.mp member, idepName_plain plain]
    · cases member

theorem weakCondition_condWord (plain : '@' ∉ dep) (plainCond : '@' ∉ cond) :
    weakCondition config (condWord dep cond) =
      some (if config.EnabledName dep ∧ config.Enabled cond then [dep] else []) := by
  rw [weakCondition, if_pos at_mem_condWord, splitIdep_condWord plain plainCond]
  rfl

/-- The variable of the dependences holds a name that is in no other list exactly when a condition adds it. -/
theorem mem_makeDeps (enabled : config.EnabledName kept.target) (made : makeDeps config kept = some deps)
    (strong : name ∉ kept.asdeps) (weak : ∀ dep ∈ kept.awdeps, idepName dep ≠ name) :
    name ∈ deps ↔ ∃ word ∈ kept.ideps, ∃ names, weakCondition config word = some names ∧ name ∈ names := by
  simp only [makeDeps, bind, Option.bind_eq_some_iff] at made
  obtain ⟨parts, found, result⟩ := made
  cases result
  rw [if_pos enabled, List.mem_append, or_iff_left strong, List.mem_flatten]
  constructor
  · rintro ⟨names, inside, here⟩
    obtain ⟨word, listed, condition⟩ := (Data.mem_of_mapM found).mp inside
    rcases List.mem_append.mp listed with other | listed
    · exact absurd (weakCondition_name condition here).symm (weak word other)
    · exact ⟨word, listed, names, condition, here⟩
  · rintro ⟨word, listed, names, condition, here⟩
    exact ⟨names, (Data.mem_of_mapM found).mpr ⟨word, List.mem_append_right _ listed, condition⟩, here⟩

theorem symbol_plain (st : FtConfig) (native : Bool) : '@' ∉ st.symbol native := by
  have front : '@' ∉ "CONFIG_".toList := by decide
  have back : '@' ∉ if native then "_NATIVE".toList else [] := by cases native <;> decide
  unfold FtConfig.symbol
  exact fun member => (List.mem_append.mp member).elim
    (fun member => (List.mem_append.mp member).elim front st.plain) back

/-- What the statements add to an item. -/
structure Added (item after : Item) (statements : List FtConfig) : Prop where
  same : after.target = item.target ∧ after.asdeps = item.asdeps ∧ after.awdeps = item.awdeps ∧ after.conf = item.conf
  ideps : after.ideps = item.ideps ++ statements.flatMap fun st => st.names.map (condWord · (st.symbol false))
  features : after.features.map (·.config) = item.features.map (·.config) ++ statements.map (·.config)

theorem addFeatures_added (prependFlag : Bool) (item : Item) (statements : List FtConfig) :
    Added item (item.addFeatures prependFlag statements) statements := by
  induction statements generalizing item with
  | nil => exact ⟨⟨rfl, rfl, rfl, rfl⟩, by simp [Item.addFeatures], by simp [Item.addFeatures]⟩
  | cons st statements ih =>
    obtain ⟨same, ideps, features⟩ := ih (item.addFeature prependFlag st)
    refine ⟨same, ?_, ?_⟩
    · refine ideps.trans ?_
      rw [List.flatMap_cons, ← List.append_assoc]
      rfl
    · refine features.trans ?_
      rw [List.map_cons, Item.addFeature, List.map_append, List.append_assoc]
      rfl

theorem filterItem_asdeps {strict : Bool} (filtered : filterItem strict targetList item = some kept)
    (member : dep ∈ kept.asdeps) : dep ∈ item.asdeps := by
  simp only [filterItem, bind, Option.bind_eq_some_iff] at filtered
  obtain ⟨wrule, -, select, -, imply, -, result⟩ := filtered
  cases result
  cases strict with
  | false => exact member
  | true => exact List.mem_of_mem_filter member

theorem follows_added {full : Item} (plain : Named statements) (added : Added item full statements) {strict : Bool}
    (filtered : filterItem strict targetList full = some kept) (enabled : config.EnabledName item.target) :
    Follows config id targetList item kept statements (Wanted config id false statements) := by
  obtain ⟨-, sameTarget, -, keptWeak, keptIdeps⟩ := filterItem_frame filtered
  obtain ⟨⟨fullTarget, fullStrong, fullWeak, -⟩, fullIdeps, -⟩ := added
  intro deps made st inside dep listed only
  rw [id_eq] at only ⊢
  have strong : dep ∉ kept.asdeps := fun member =>
    only.strong dep (fullStrong ▸ filterItem_asdeps filtered member) rfl
  have weak : ∀ other ∈ kept.awdeps, idepName other ≠ dep := fun other member =>
    only.weak other (fullWeak ▸ List.mem_of_mem_filter (keptWeak ▸ member))
  rw [mem_makeDeps (by rwa [sameTarget, fullTarget]) made strong weak, keptIdeps, fullIdeps]
  constructor
  · rintro ⟨word, member, names, condition, here⟩
    obtain ⟨member, target⟩ := List.mem_filter.mp member
    have named := weakCondition_name condition here
    obtain before | after := List.mem_append.mp member
    · exact absurd named.symm (only.conditional word before)
    obtain ⟨other, among, ofFeature⟩ := List.mem_flatMap.mp after
    obtain ⟨dep', listed', rfl⟩ := List.mem_map.mp ofFeature
    rw [idepName_condWord (plain other among dep' listed')] at named target
    subst named
    rw [weakCondition_condWord (plain other among dep listed') (symbol_plain other false), Option.some_inj] at condition
    subst condition
    split at here
    · next both => exact ⟨by simpa using target, both.1, other, among, ⟨dep, listed', rfl⟩, both.2⟩
    · cases here
  · rintro ⟨target, name, other, among, ⟨dep', listed', same⟩, on⟩
    rw [id_eq] at same
    subst same
    refine ⟨condWord dep' (other.symbol false), List.mem_filter.mpr ⟨List.mem_append_right _ ?_, ?_⟩, [dep'], ?_, ?_⟩
    · exact List.mem_flatMap.mpr ⟨other, among, List.mem_map_of_mem listed'⟩
    · rw [idepName_condWord (plain other among dep' listed')]
      exact decide_eq_true target
    · rw [weakCondition_condWord (plain other among dep' listed') (symbol_plain other false), if_pos ⟨name, on⟩]
    · exact List.mem_singleton_self _

def nativeWord (uniPackages : List Text) (conf idep dep cond : Text) : Text :=
  toNative uniPackages dep ++ (if "@@".toList <:+: idep then "@@".toList else ['@']) ++
    if conf = "kconfig".toList then cond else cond ++ "_NATIVE".toList

theorem at_not_mem_toNative (plain : '@' ∉ dep) : '@' ∉ toNative uniPackages dep := by
  have suffix : '@' ∉ nativePart := by
    unfold nativePart
    decide
  obtain same | added := toNative_cases uniPackages dep
  · rwa [same]
  · rw [added, List.mem_append, not_or]
    exact ⟨plain, suffix⟩

theorem at_not_mem_idepName : '@' ∉ idepName word := fun member => by
  have other := List.mem_takeWhile_imp member
  simp at other

theorem idepName_nativeWord {idep : Text} (plain : '@' ∉ dep) :
    idepName (nativeWord uniPackages conf idep dep cond) = toNative uniPackages dep := by
  obtain ⟨rest, shape⟩ : ∃ rest, nativeWord uniPackages conf idep dep cond = toNative uniPackages dep ++ '@' :: rest := by
    rw [nativeWord, List.append_assoc]
    by_cases double : "@@".toList <:+: idep
    · rw [if_pos double]
      exact ⟨_, rfl⟩
    · rw [if_neg double]
      exact ⟨_, rfl⟩
  rw [shape, idepName_append (at_not_mem_toNative plain)]

theorem nativeIdeps_cons {seen ideps words : List Text} {idep : Text}
    (copied : nativeIdeps uniPackages target conf seen (idep :: ideps) = some words) :
    ∃ cond, splitIdep idep = some (idepName idep, cond) ∧
      if toNative uniPackages (idepName idep) ≠ target ∧ toNative uniPackages (idepName idep) ∉ seen then
        ∃ rest, nativeIdeps uniPackages target conf (seen ++ [toNative uniPackages (idepName idep)]) ideps = some rest ∧
          words = nativeWord uniPackages conf idep (idepName idep) cond :: rest
      else nativeIdeps uniPackages target conf seen ideps = some words := by
  rw [nativeIdeps] at copied
  simp only [bind, Option.bind_eq_some_iff] at copied
  obtain ⟨⟨dep, cond⟩, split, copied⟩ := copied
  obtain rfl : dep = idepName idep := splitIdep_name split
  refine ⟨cond, split, ?_⟩
  split at copied
  · next fresh =>
    rw [if_pos fresh]
    obtain ⟨rest, inner, result⟩ := Option.bind_eq_some_iff.mp copied
    exact ⟨rest, inner, (Option.some_inj.mp result).symm⟩
  · next old => rwa [if_neg old]

/-- A name that was not seen yet keeps the first of its conditions. -/
theorem mem_nativeIdeps {seen ideps words : List Text}
    (copied : nativeIdeps uniPackages target conf seen ideps = some words) :
    (word ∈ words ∧ idepName word = name) ↔ (name ≠ target ∧ name ∉ seen) ∧
      ∃ idep cond, ideps.find? (fun idep => toNative uniPackages (idepName idep) = name) = some idep ∧
        splitIdep idep = some (idepName idep, cond) ∧ word = nativeWord uniPackages conf idep (idepName idep) cond := by
  induction ideps generalizing seen words with
  | nil =>
    cases copied
    simp
  | cons idep ideps ih =>
    obtain ⟨cond, split, step⟩ := nativeIdeps_cons copied
    have wordName := @idepName_nativeWord uniPackages conf (idepName idep) cond idep at_not_mem_idepName
    by_cases here : toNative uniPackages (idepName idep) = name
    · have found : (idep :: ideps).find? (fun idep => toNative uniPackages (idepName idep) = name) = some idep :=
        List.find?_cons_of_pos (decide_eq_true here)
      rw [found]
      by_cases fresh : name ≠ target ∧ name ∉ seen
      · rw [if_pos (here ▸ fresh)] at step
        obtain ⟨rest, inner, rfl⟩ := step
        have noMore := (ih inner).not.mpr fun later => later.1.2 (here ▸ List.mem_append_right _ (List.mem_singleton_self _))
        constructor
        · rintro ⟨member, named⟩
          obtain rfl | inRest := List.mem_cons.mp member
          · exact ⟨fresh, idep, cond, rfl, split, rfl⟩
          · exact absurd ⟨inRest, named⟩ noMore
        · rintro ⟨-, idep', cond', same, split', rfl⟩
          cases same
          cases split.symm.trans split'
          exact ⟨List.mem_cons_self .., wordName.trans here⟩
      · rw [if_neg (here ▸ fresh)] at step
        exact iff_of_false (fun member => fresh ((ih step).mp member).1) fun later => fresh later.1
    · have skipped : (idep :: ideps).find? (fun idep => toNative uniPackages (idepName idep) = name) =
          ideps.find? fun idep => toNative uniPackages (idepName idep) = name :=
        List.find?_cons_of_neg (by simpa using here)
      rw [skipped]
      split at step
      · obtain ⟨rest, inner, rfl⟩ := step
        rw [List.mem_cons, or_and_right, ih inner, List.mem_append, List.mem_singleton, not_or]
        have elsewhere : ¬ (word = nativeWord uniPackages conf idep (idepName idep) cond ∧ idepName word = name) := by
          rintro ⟨rfl, named⟩
          exact here (wordName.symm.trans named)
        rw [or_iff_right elsewhere, and_iff_left fun same => here same.symm]
      · exact ih step

theorem symbol_false (st : FtConfig) : st.symbol false = "CONFIG_".toList ++ st.config := by
  unfold FtConfig.symbol
  exact List.append_nil _

theorem symbol_native (st : FtConfig) : st.symbol false ++ "_NATIVE".toList = st.symbol true := by
  rw [symbol_false]
  rfl

/-- The conditional dependence of a feature under the names of the copy. -/
theorem nativeWord_condWord (unshared : conf ≠ "kconfig".toList) (st : FtConfig) :
    nativeWord uniPackages conf (condWord dep (st.symbol false)) dep (st.symbol false) =
      condWord (toNative uniPackages dep) (st.symbol true) := by
  have double : "@@".toList <:+: condWord dep (st.symbol false) := ⟨dep, st.symbol false, rfl⟩
  rw [nativeWord, if_pos double, if_neg unshared, symbol_native]
  rfl

theorem find_condWord (plain : Named statements) :
    (statements.flatMap fun st => st.names.map (condWord · (st.symbol false))).find?
        (fun idep => toNative uniPackages (idepName idep) = name) =
      (firstLister (toNative uniPackages) statements name).bind fun st =>
        (st.names.find? fun dep => toNative uniPackages dep = name).map (condWord · (st.symbol false)) := by
  induction statements with
  | nil => rfl
  | cons st statements ih =>
    have head : (st.names.map (condWord · (st.symbol false))).find?
          (fun idep => toNative uniPackages (idepName idep) = name) =
        (st.names.find? fun dep => toNative uniPackages dep = name).map (condWord · (st.symbol false)) := by
      rw [List.find?_map]
      refine congrArg _ (List.find?_congr fun dep listed => ?_)
      rw [Function.comp_apply, idepName_condWord (plain st (List.mem_cons_self ..) dep listed)]
    rw [List.flatMap_cons, List.find?_append, head]
    by_cases lists : ∃ dep ∈ st.names, toNative uniPackages dep = name
    · have first : firstLister (toNative uniPackages) (st :: statements) name = some st :=
        List.find?_cons_of_pos (decide_eq_true lists)
      obtain ⟨dep, found⟩ : ∃ dep, st.names.find? (fun dep => toNative uniPackages dep = name) = some dep :=
        Option.isSome_iff_exists.mp (List.find?_isSome.mpr (by simpa using lists))
      rw [first, Option.bind_some, found]
      rfl
    · have first : firstLister (toNative uniPackages) (st :: statements) name =
          firstLister (toNative uniPackages) statements name :=
        List.find?_cons_of_neg (by simpa using lists)
      have nothing : st.names.find? (fun dep => toNative uniPackages dep = name) = none :=
        List.find?_eq_none.mpr (by simpa using lists)
      rw [first, nothing, Option.map_none, Option.none_or, ih fun st' member => plain st' (List.mem_cons_of_mem _ member)]

theorem getNativeDeps_features {pathExists : Text → Bool} {uniPackages : List Text} {reg reg' : Registry}
    (copied : item.getNativeDeps pathExists uniPackages reg = some (reg', nitem)) :
    nitem.asdeps = switchNative uniPackages nitem.target item.asdeps ∧
      nitem.awdeps = switchNative uniPackages nitem.target item.awdeps ∧
      nativeIdeps uniPackages nitem.target item.conf [] item.ideps = some nitem.ideps ∧
      nitem.features = item.features.map (nativeFeature uniPackages nitem.target) := by
  simp only [Item.getNativeDeps, bind, Option.bind_eq_some_iff] at copied
  obtain ⟨targets, -, ideps, found, result⟩ := copied
  cases result
  exact ⟨rfl, rfl, found, rfl⟩

/-- The name of a renamed weak dependence is the renamed name, or there was no need to rename it. -/
theorem toNative_idepName_toNative (same : idepName (toNative uniPackages dep) = name)
    (native : toNative uniPackages name = name) : toNative uniPackages (idepName dep) = name := by
  by_cases simple : '@' ∈ dep
  · have kept : idepName (toNative uniPackages dep) = idepName dep := by
      obtain unchanged | added := toNative_cases uniPackages dep
      · rw [unchanged]
      · rw [added, idepName, List.takeWhile_append, if_neg]
        · rfl
        · intro full
          have all := List.takeWhile_prefix (fun c => decide (c ≠ '@')) |>.eq_of_length full
          exact at_not_mem_idepName (all ▸ simple)
    rw [← kept, same, native]
  · rw [idepName_plain simple, ← same, idepName_plain (at_not_mem_toNative simple)]

/-- The condition that a name keeps in the copy is that of the first feature. -/
theorem mem_nativeIdeps_features {full : Item} {words : List Text} (plain : Named statements)
    (added : Added item full statements) (unshared : item.conf ≠ "kconfig".toList)
    (copied : nativeIdeps uniPackages target full.conf [] full.ideps = some words)
    (only : ∀ idep ∈ item.ideps, toNative uniPackages (idepName idep) ≠ name) :
    (word ∈ words ∧ idepName word = name) ↔ name ≠ target ∧
      ∃ st, firstLister (toNative uniPackages) statements name = some st ∧ word = condWord name (st.symbol true) := by
  obtain ⟨⟨-, -, -, sameConf⟩, sameIdeps, -⟩ := added
  have find : full.ideps.find? (fun idep => toNative uniPackages (idepName idep) = name) =
      (firstLister (toNative uniPackages) statements name).bind fun st =>
        (st.names.find? fun dep => toNative uniPackages dep = name).map (condWord · (st.symbol false)) := by
    have nothing : item.ideps.find? (fun idep => toNative uniPackages (idepName idep) = name) = none :=
      List.find?_eq_none.mpr fun idep member => by simpa using only idep member
    rw [sameIdeps, List.find?_append, nothing, Option.none_or, find_condWord plain]
  rw [mem_nativeIdeps copied, and_iff_left (List.not_mem_nil (a := name)), find, sameConf]
  refine and_congr_right fun _ => ⟨?_, ?_⟩
  · rintro ⟨idep, cond, result, split, rfl⟩
    obtain ⟨lister, lists, mapped⟩ := Option.bind_eq_some_iff.mp result
    obtain ⟨dep, found, rfl⟩ := Option.map_eq_some_iff.mp mapped
    have among := List.mem_of_find?_eq_some lists
    have renamed : toNative uniPackages dep = name := by simpa using List.find?_some found
    have plain' := plain lister among dep (List.mem_of_find?_eq_some found)
    rw [splitIdep_condWord plain' (symbol_plain lister false), idepName_condWord plain'] at split
    cases split
    rw [idepName_condWord plain', nativeWord_condWord unshared, renamed]
    exact ⟨lister, lists, rfl⟩
  · rintro ⟨lister, lists, rfl⟩
    have among := List.mem_of_find?_eq_some lists
    obtain ⟨dep, found⟩ : ∃ dep, lister.names.find? (fun dep => toNative uniPackages dep = name) = some dep :=
      Option.isSome_iff_exists.mp (List.find?_isSome.mpr (by simpa using List.find?_some lists))
    have renamed : toNative uniPackages dep = name := by simpa using List.find?_some found
    have plain' := plain lister among dep (List.mem_of_find?_eq_some found)
    refine ⟨condWord dep (lister.symbol false), lister.symbol false, ?_, ?_, ?_⟩
    · rw [lists, Option.bind_some, found]
      rfl
    · rw [idepName_condWord plain', splitIdep_condWord plain' (symbol_plain lister false)]
    · rw [idepName_condWord plain', nativeWord_condWord unshared, renamed]

theorem follows_native {full : Item} {pathExists : Text → Bool} {reg reg' : Registry} (plain : Named statements)
    (added : Added item full statements) (unshared : item.conf ≠ "kconfig".toList)
    (copied : full.getNativeDeps pathExists uniPackages reg = some (reg', nitem)) {strict : Bool}
    (filtered : filterItem strict targetList nitem = some kept) (enabled : config.EnabledName nitem.target) :
    Follows config (toNative uniPackages) targetList item kept statements
      (FirstWanted config (toNative uniPackages) true statements nitem.target) := by
  obtain ⟨-, sameTarget, -, keptWeak, keptIdeps⟩ := filterItem_frame filtered
  obtain ⟨nativeStrong, nativeWeak, nativeConditions, -⟩ := getNativeDeps_features copied
  intro deps made st inside dep listed only
  have plainName : '@' ∉ toNative uniPackages dep := at_not_mem_toNative (plain st inside dep listed)
  generalize named : toNative uniPackages dep = name at only plainName ⊢
  have strong : name ∉ kept.asdeps := fun member => by
    have before := filterItem_asdeps filtered member
    rw [nativeStrong, added.same.2.1, mem_switchNative] at before
    obtain ⟨-, other, among, same⟩ := before
    exact only.strong other among same
  have weak : ∀ other ∈ kept.awdeps, idepName other ≠ name := fun other member same => by
    rw [keptWeak] at member
    have before := List.mem_of_mem_filter member
    rw [nativeWeak, added.same.2.2.1, mem_switchNative] at before
    obtain ⟨-, source, among, rfl⟩ := before
    exact only.weak source among (toNative_idepName_toNative same (named ▸ toNative_toNative ..))
  have first {word : Text} : (word ∈ nitem.ideps ∧ idepName word = name) ↔ _ :=
    mem_nativeIdeps_features plain added unshared nativeConditions only.conditional
  rw [mem_makeDeps (by rwa [sameTarget]) made strong weak, keptIdeps]
  constructor
  · rintro ⟨word, member, names, condition, here⟩
    obtain ⟨member, target⟩ := List.mem_filter.mp member
    have wordName := weakCondition_name condition here
    obtain ⟨other, lister, lists, rfl⟩ := first.mp ⟨member, wordName.symm⟩
    rw [weakCondition_condWord plainName (symbol_plain lister true), Option.some_inj] at condition
    subst condition
    rw [← wordName] at target
    split at here
    · next both => exact ⟨by simpa using target, both.1, other, lister, lists, both.2⟩
    · cases here
  · rintro ⟨target, name', other, lister, lists, on⟩
    obtain ⟨member, wordName⟩ := first.mpr ⟨other, lister, lists, rfl⟩
    refine ⟨_, List.mem_filter.mpr ⟨member, ?_⟩, [name], ?_, List.mem_singleton_self _⟩
    · rw [wordName]
      exact decide_eq_true target
    · rw [weakCondition_condWord plainName (symbol_plain lister true), if_pos ⟨name', on⟩]

theorem defined_of_configs {reg : Registry} {native : Bool} (written : BlockWritten reg item)
    (configs : ∀ st ∈ statements, ∃ feature ∈ item.features,
      "CONFIG_".toList ++ feature.config = st.symbol native) :
    SymbolsDefined reg item native statements := by
  intro st inside
  obtain ⟨feature, listed, same⟩ := configs st inside
  have whole : writtenFeatures reg item = item.features := by
    rw [writtenFeatures]
    split
    · next shared => rw [if_pos (written shared)]
    · rfl
  rw [featureSymbols, whole, ← same]
  exact List.mem_map_of_mem listed

theorem Added.feature {full : Item} (added : Added item full statements) {st : FtConfig} (inside : st ∈ statements) :
    ∃ feature ∈ full.features, feature.config = st.config := by
  have listed : st.config ∈ full.features.map (·.config) :=
    added.features ▸ List.mem_append_right _ (List.mem_map_of_mem inside)
  exact List.mem_map.mp listed

/-- The statements are read alike by make, by the parser and by the writers of the Makefile and of the Kconfig. -/
theorem options_agree (config : Config) (uniPackages targetList : List Text) (prependFlag : Bool) (item : Item)
    (statements : List FtConfig) (plain : Named statements) :
    OptionsAgree config uniPackages targetList item (item.addFeatures prependFlag statements) statements := by
  have added := addFeatures_added prependFlag item statements
  refine ⟨?_, ?_, ?_, ?_⟩
  · intro reg written
    refine defined_of_configs written fun st inside => ?_
    obtain ⟨feature, listed, same⟩ := added.feature inside
    exact ⟨feature, listed, same ▸ (symbol_false st).symm⟩
  · intro strict kept filtered enabled
    exact follows_added plain added filtered enabled
  · intro pathExists reg reg' nitem copied final written
    obtain ⟨-, -, -, features⟩ := getNativeDeps_features copied
    refine defined_of_configs written fun st inside => ?_
    obtain ⟨feature, listed, same⟩ := added.feature inside
    refine ⟨_, features ▸ List.mem_map_of_mem listed, ?_⟩
    rw [← symbol_native, symbol_false, ← same, List.append_assoc]
    rfl
  · intro unshared pathExists reg reg' nitem copied strict kept filtered enabled
    exact follows_native plain added unshared copied filtered enabled

/-- A feature of `app` that lists `zlib`. -/
def lists (feature : String) (plain : '@' ∉ feature.toList) : FtConfig where
  config := feature.toList
  depends := "zlib".toList
  plain := plain

def twice : List FtConfig := [lists "APP_FT_A" (by decide), lists "APP_FT_B" (by decide)]

def app : Item where
  target := "app".toList

def secondEnabled : Config :=
  Config.enabling ["app-native".toList, "zlib-native".toList, "app-ft-b-native".toList] (by decide +kernel)
    (by decide +kernel)

def appTargets : List Text := ["app-native".toList, "zlib-native".toList]

def keptCopy : Item :=
  let copy := twinOf (app.addFeatures true twice)
  (filterItem true appTargets copy).getD copy

theorem named_twice : Named twice := by
  unfold Named
  decide +kernel

/-- The condition of the native `zlib` is the first feature, so the second one does not add it. -/
theorem second_dropped :
    ((app.addFeatures true twice).getNativeDeps (fun _ => false) [] {}).map Prod.snd =
        some (twinOf (app.addFeatures true twice)) ∧
      filterItem true appTargets (twinOf (app.addFeatures true twice)) = some keptCopy ∧
      secondEnabled.EnabledName (twinOf (app.addFeatures true twice)).target ∧
      ¬ Follows secondEnabled (toNative []) appTargets app keptCopy twice
        (Wanted secondEnabled (toNative []) true twice) := by
  refine ⟨by decide +kernel, by decide +kernel, by decide +kernel, fun follows => ?_⟩
  have renamed : toNative [] "zlib".toList = "zlib-native".toList := by decide +kernel
  have only : FeatureOnly (toNative []) app "zlib-native".toList := ⟨nofun, nofun, nofun⟩
  have inside : lists "APP_FT_B" (by decide) ∈ twice := List.mem_cons_of_mem _ (List.mem_singleton_self _)
  have listed : "zlib".toList ∈ (lists "APP_FT_B" (by decide)).names := by decide +kernel
  have wanted : Wanted secondEnabled (toNative []) true twice "zlib-native".toList :=
    ⟨_, inside, ⟨_, listed, renamed⟩, by decide +kernel⟩
  have made : makeDeps secondEnabled keptCopy = some [] := by decide +kernel
  have added := (follows [] made _ inside _ listed (renamed ▸ only)).mpr
    ⟨renamed ▸ by decide +kernel, renamed ▸ by decide +kernel, renamed ▸ wanted⟩
  cases added

theorem app_agree : Named twice ∧ OptionsAgree secondEnabled [] appTargets app (app.addFeatures true twice) twice :=
  ⟨named_twice, options_agree secondEnabled [] appTargets true app twice named_twice⟩

end CBuild.Soundness.FeatureOptions
