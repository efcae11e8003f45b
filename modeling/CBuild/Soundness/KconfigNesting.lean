import CBuild.Data.Nesting
import CBuild.Model.GenBuildChain.GenKconfig

/-! # Nesting of the Kconfig file

The options of the members of a choice are written behind it, because nothing but entries may stand in a choice.
The options of the choice itself are written inside it.
-/

namespace CBuild.Soundness.KconfigNesting

open CBuild.Data.Nesting CBuild.Text CBuild.Model.GenBuildChain

/-- The brackets of the file. -/
inductive Bracket
  | choice | menu | cond
deriving DecidableEq

def role : Line → Role Bracket
  | .choice _ => .opens .choice
  | .endchoice => .closes .choice
  | .menu _ => .opens .menu
  | .endmenu => .closes .menu
  | .cond .. => .opens .cond
  | .endif => .closes .cond
  | _ => .stays

/-- No menu, condition or source stands in a choice. -/
def allowed (stack : List Bracket) : Line → Bool
  | .menu _ | .cond .. | .source _ => Bracket.choice ∉ stack
  | _ => true

/-- What is to be written in order: entries, ends of choices, and the blocks of options. -/
inductive Event
  | entry (item : Item)
  | endchoice
  | block (item : Item)
deriving DecidableEq

def event : Line → Option Event
  | .choice item | .config item | .menuconfig item => some (.entry item)
  | .endchoice => some .endchoice
  | .cond (some item) _ => some (.block item)
  | _ => none

/-- The item has options, in a Kconfig file of its own, in a shared one that it is the last to share, or as
features. -/
def HasBlock (reg : Registry) (item : Item) : Prop :=
  if item.conf = "kconfig".toList then (checkSharedKconfig reg item.target).2.getLast? = some item.target
  else item.conf ≠ [] ∨ item.features ≠ []

instance (reg : Registry) (item : Item) : Decidable (HasBlock reg item) := by
  unfold HasBlock
  infer_instance

/-- The block of the item reads the Kconfig file. -/
def Sources (reg : Registry) (path : Text) (item : Item) : Prop :=
  if item.conf = "kconfig".toList then
    (checkSharedKconfig reg item.target).1 = path ∧
      (checkSharedKconfig reg item.target).2.getLast? = some item.target
  else item.conf ≠ [] ∧ item.conf = path

instance (reg : Registry) (path : Text) (item : Item) : Decidable (Sources reg path item) := by
  unfold Sources
  infer_instance

def blocks (reg : Registry) (item : Item) : List Event := if HasBlock reg item then [.block item] else []

/-- The order of a forest: the options of the members of a choice follow the end of the choice, other options
follow the entry of their item. -/
def order (reg : Registry) : Forest → List Event
  | .nil => []
  | .cons item member rest =>
    .entry item :: (match item.vtype with
      | .choice | .menuchoice =>
        member.items.map .entry ++ [.endchoice] ++ member.items.flatMap (blocks reg)
      | .menuconfig => blocks reg item ++ order reg member
      | _ => blocks reg item) ++ order reg rest

/-- The file is well nested, and every entry and every block has its place. -/
structure WellNested (reg : Registry) (forest : Forest) (w : Writer) : Prop where
  brackets : scan role allowed [] w.text = some []
  ordered : w.text.filterMap event = order reg forest
  flushed : w.confStr = []
  sourced : ∀ shared ∈ reg.kconfigDict, 2 ≤ shared.2.length → w.text.count (.source shared.1) = 1

/-- No choice has options of its own. -/
def Clean (reg : Registry) (items : List Item) : Prop := ∀ item ∈ items, item.vtype.isChoice → ¬ HasBlock reg item

/-- No choice has options of its own, and every shared Kconfig file is read for one item. -/
structure Suited (reg : Registry) (forest : Forest) : Prop where
  choices : Clean reg forest.items
  sharers : ∀ shared ∈ reg.kconfigDict, 2 ≤ shared.2.length → forest.items.countP (Sources reg shared.1 ·) = 1

/-- Packages and virtual configs only, without members. -/
def Flat : Forest → Prop
  | .nil => True
  | .cons item member rest => (item.vtype = .package ∨ item.vtype = .config) ∧ member = .nil ∧ Flat rest

/-- Only menus and choices have members, and no choice or menu is the member of a choice. -/
def Proper : Forest → Prop
  | .nil => True
  | .cons item member rest =>
    (match item.vtype with
      | .choice | .menuchoice => Flat member
      | .menuconfig => Proper member
      | _ => member = .nil) ∧ Proper rest

variable {settings : KconfigSettings} {reg : Registry} {item : Item} {path : Text} {choiceFlag : Bool}
  {clean clean' : Prop} {before between after stack : List Bracket} {events events' : List Event}
  {items items' : List Item} {lines lines' : List Line} {line : Line}

/-- What a part of the file does: between two stacks when it is clean, and with which events; the blocks of `items`
are in it. -/
structure Wrote (reg : Registry) (clean : Prop) (before after : List Bracket) (events : List Event)
    (items : List Item) (lines : List Line) : Prop where
  scans : clean → scan role allowed before lines = some after
  breaks : ¬ clean → scan role allowed before lines = none
  ordered : clean → lines.filterMap event = events
  sourced : ∀ path, lines.count (.source path) = items.countP (Sources reg path ·)

theorem Wrote.append (first : Wrote reg clean before between events items lines)
    (second : Wrote reg clean' between after events' items' lines') :
    Wrote reg (clean ∧ clean') before after (events ++ events') (items ++ items') (lines ++ lines') where
  scans both := by rw [scan_append, first.scans both.1, Option.bind_some, second.scans both.2]
  breaks not := by
    rw [scan_append]
    by_cases here : clean
    · rw [first.scans here, Option.bind_some, second.breaks fun there => not ⟨here, there⟩]
    · rw [first.breaks here, Option.bind_none]
  ordered both := by rw [List.filterMap_append, first.ordered both.1, second.ordered both.2]
  sourced path := by rw [List.count_append, List.countP_append, first.sourced, second.sourced]

theorem Wrote.of_iff (part : Wrote reg clean before after events items lines) (same : clean' ↔ clean) :
    Wrote reg clean' before after events items lines :=
  ⟨fun is => part.scans (same.mp is), fun not => part.breaks fun is => not (same.mpr is),
    fun is => part.ordered (same.mp is), part.sourced⟩

/-- A part that is always clean, before another one. -/
theorem Wrote.andThen (first : Wrote reg True before between events items lines)
    (second : Wrote reg clean between after events' items' lines') :
    Wrote reg clean before after (events ++ events') (items ++ items') (lines ++ lines') :=
  (first.append second).of_iff ⟨fun is => ⟨trivial, is⟩, And.right⟩

/-- Lines of options, names of features and empty lines. -/
def Still (line : Line) : Prop := ∃ text, line = .option text ∨ line = .feature text ∨ line = .blank

theorem Still.neutral (still : Still line) : (∀ stack, allowed stack line = true ∧ role line = .stays) ∧
    event line = none ∧ ∀ path, line ≠ .source path := by
  obtain ⟨text, rfl | rfl | rfl⟩ := still
  all_goals exact ⟨fun _ => ⟨rfl, rfl⟩, rfl, nofun⟩

theorem Wrote.still (all : ∀ line ∈ lines, Still line) : Wrote reg True stack stack [] [] lines where
  scans _ := scan_stays fun line member => (all line member).neutral.1 stack
  breaks not := absurd trivial not
  ordered _ := List.filterMap_eq_nil_iff.mpr fun line member => (all line member).neutral.2.1
  sourced path := List.count_eq_zero.mpr fun member => (all _ member).neutral.2.2 path rfl

/-- One line that is no source. -/
theorem Wrote.single (scans : step role allowed before line = some after) (other : ∀ path, line ≠ .source path) :
    Wrote reg True before after (event line).toList [] [line] where
  scans _ := by rw [scan_cons, scans]; rfl
  breaks not := absurd trivial not
  ordered _ := by cases found : event line <;> simp [found]
  sourced path := List.count_eq_zero.mpr fun member => other path (List.mem_singleton.mp member).symm

theorem boolLines_still (mark : Text) (choiceFlag : Bool) (item : Item) :
    ∀ line ∈ boolLines mark choiceFlag item, Still line := by
  intro line member
  unfold boolLines at member
  split at member
  · rw [List.mem_singleton.mp member]
    exact ⟨_, Or.inl rfl⟩
  · obtain rfl | member := List.mem_cons.mp member
    · exact ⟨_, Or.inl rfl⟩
    · rw [List.mem_singleton.mp member]
      exact ⟨_, Or.inl rfl⟩

/-- An entry is one line of its own kind and lines of options. -/
theorem entryHead_cons (settings : KconfigSettings) (choiceFlag : Bool) (item : Item) :
    ∃ first rest, entryHead settings choiceFlag item = first :: rest ∧ (∀ line ∈ rest, Still line) ∧
      event first = some (.entry item) ∧ (∀ path, first ≠ .source path) ∧
      ∀ stack, step role allowed stack first = some (if item.vtype.isChoice then .choice :: stack else stack) := by
  unfold entryHead
  cases kind : item.vtype with
  | package =>
    simp only
    split
    · exact ⟨_, _, rfl, boolLines_still _ _ _, rfl, nofun, fun _ => rfl⟩
    · exact ⟨_, _, rfl, boolLines_still _ _ _, rfl, nofun, fun _ => rfl⟩
  | menuconfig => exact ⟨_, _, rfl, boolLines_still _ _ _, rfl, nofun, fun _ => rfl⟩
  | config => exact ⟨_, _, rfl, boolLines_still _ _ _, rfl, nofun, fun _ => rfl⟩
  | menuchoice | choice =>
    refine ⟨_, _, rfl, ?_, rfl, nofun, fun _ => rfl⟩
    intro line member
    obtain rfl | member := List.mem_cons.mp member
    · exact ⟨_, Or.inl rfl⟩
    · split at member
      · cases member
      · rw [List.mem_singleton.mp member]
        exact ⟨_, Or.inl rfl⟩

theorem helpLines_still (info : PackageInfo) : ∀ line ∈ helpLines info, Still line := by
  intro line member
  have option : ∃ text, line = .option text := by
    unfold helpLines at member
    simp only [List.mem_append, List.mem_cons, List.not_mem_nil, or_false, Option.mem_toList, Option.map_eq_some_iff]
      at member
    obtain ((((((rfl | rfl) | field) | field) | field) | field) | field) := member
    · exact ⟨_, rfl⟩
    · exact ⟨_, rfl⟩
    · obtain ⟨_, -, rfl⟩ := field
      exact ⟨_, rfl⟩
    · obtain ⟨_, -, rfl⟩ := field
      exact ⟨_, rfl⟩
    · obtain ⟨_, -, rfl⟩ := field
      exact ⟨_, rfl⟩
    · obtain ⟨_, -, rfl⟩ := field
      exact ⟨_, rfl⟩
    · split at field
      · cases field
      · obtain rfl | more := List.mem_cons.mp field
        · exact ⟨_, rfl⟩
        · obtain ⟨_, -, rfl⟩ := List.mem_map.mp more
          exact ⟨_, rfl⟩
  exact option.imp fun _ same => Or.inl same

theorem entryBody_still (written : entryBody settings item = some lines) : ∀ line ∈ lines, Still line := by
  intro line member
  rw [entryBody, Option.bind_eq_bind, Option.bind_eq_some_iff] at written
  obtain ⟨deps, -, result⟩ := written
  cases result
  simp only [List.mem_append, List.mem_singleton, List.mem_map, Option.mem_toList, Option.map_eq_some_iff] at member
  obtain (((((depends | version) | selects) | implies) | help) | rfl) := member
  · obtain ⟨_, -, rfl⟩ := depends
    exact ⟨_, Or.inl rfl⟩
  · split at version
    · rw [List.mem_singleton.mp version]
      exact ⟨_, Or.inl rfl⟩
    · cases version
  · obtain ⟨_, -, rfl⟩ := selects
    exact ⟨_, Or.inl rfl⟩
  · obtain ⟨_, -, rfl⟩ := implies
    exact ⟨_, Or.inl rfl⟩
  · cases found : settings.infoDict (packageName item) with
    | none =>
      rw [found] at help
      cases help
    | some info =>
      rw [found] at help
      exact helpLines_still info line help
  · exact ⟨[], Or.inr (Or.inr rfl)⟩

theorem writeFeatureKconfig_still (settings : KconfigSettings) (item : Item) :
    ∀ line ∈ writeFeatureKconfig settings item, Still line := by
  intro line member
  unfold writeFeatureKconfig at member
  split at member
  · cases member
  obtain rfl | member := List.mem_cons.mp member
  · exact ⟨[], Or.inr (Or.inr rfl)⟩
  obtain ⟨ft, -, member⟩ := List.mem_flatMap.mp member
  simp only [List.mem_append, List.mem_cons, List.not_mem_nil, or_false] at member
  obtain ((((rfl | rfl | rfl) | depends) | extracfg) | rfl) := member
  · exact ⟨_, Or.inr (Or.inl rfl)⟩
  · exact ⟨_, Or.inl rfl⟩
  · exact ⟨_, Or.inl rfl⟩
  · split at depends
    · cases depends
    · rw [List.mem_singleton.mp depends]
      exact ⟨_, Or.inl rfl⟩
  · split at extracfg
    · cases extracfg
    · rw [List.mem_singleton.mp extracfg]
      exact ⟨_, Or.inl rfl⟩
  · exact ⟨[], Or.inr (Or.inr rfl)⟩

theorem writeFeatureKconfig_eq_nil : writeFeatureKconfig settings item = [] ↔ item.features = [] := by
  unfold writeFeatureKconfig
  split
  · next none => exact iff_of_true rfl none
  · next some => exact iff_of_false (List.cons_ne_nil _ _) some

/-- An entry, at its place or in a choice. -/
theorem Wrote.entry {body : List Line} (written : entryBody settings item = some body) :
    Wrote reg True stack (if item.vtype.isChoice then .choice :: stack else stack) [.entry item] []
      (entryHead settings choiceFlag item ++ body) := by
  obtain ⟨first, rest, head, still, named, other, scans⟩ := entryHead_cons settings choiceFlag item
  have plain : ∀ line ∈ rest ++ body, Still line := fun line member =>
    (List.mem_append.mp member).elim (still line) (entryBody_still written line)
  have whole := (@Wrote.single reg _ _ _ (scans stack) other).andThen (Wrote.still plain)
  rw [named] at whole
  rw [head, List.cons_append, ← List.singleton_append]
  exact whole

/-- A Kconfig file is read for the item. -/
theorem Wrote.source (outside : Bracket.choice ∉ stack) (reads : ∀ other, Sources reg other item ↔ path = other) :
    Wrote reg True stack stack [] [item] [.source path] where
  scans _ := by rw [scan_cons, step_stays (by simpa [allowed] using outside) rfl]; rfl
  breaks not := absurd trivial not
  ordered _ := rfl
  sourced other := by
    rw [List.countP_singleton, List.count_singleton]
    simp [reads other]

/-- The item reads no Kconfig file. -/
theorem Wrote.unsourced (part : Wrote reg clean before after events [] lines) (none : ∀ path, ¬ Sources reg path item) :
    Wrote reg clean before after events [item] lines where
  scans := part.scans
  breaks := part.breaks
  ordered := part.ordered
  sourced path := by rw [part.sourced, List.countP_nil, List.countP_singleton, if_neg (by simpa using none path)]

theorem choice_not_mem {kind : Bracket} (other : Bracket.choice ≠ kind) (outside : Bracket.choice ∉ stack) :
    Bracket.choice ∉ kind :: stack := fun member => (List.mem_cons.mp member).elim other outside

/-- A part in a menu. -/
theorem Wrote.inMenu (title : Text) (outside : Bracket.choice ∉ stack)
    (inner : Bracket.choice ∉ Bracket.menu :: stack →
      Wrote reg clean (.menu :: stack) (.menu :: stack) events items lines) :
    Wrote reg clean stack stack events items (.menu title :: (lines ++ [.endmenu])) := by
  have opens : step role allowed stack (.menu title) = some (.menu :: stack) :=
    step_opens (by simpa [allowed] using outside) rfl
  have closes : step role allowed (.menu :: stack) .endmenu = some stack := rfl
  have whole := ((Wrote.single opens nofun).andThen (inner (choice_not_mem nofun outside))).append
    (Wrote.single closes nofun)
  simpa [event] using whole.of_iff ⟨fun is => ⟨is, trivial⟩, And.left⟩

/-- A part below a condition, with an empty line behind it. -/
theorem Wrote.inCond (owner : Option Item) (expr : Text) (outside : Bracket.choice ∉ stack)
    (inner : Bracket.choice ∉ Bracket.cond :: stack →
      Wrote reg clean (.cond :: stack) (.cond :: stack) events items lines) :
    Wrote reg clean stack stack ((owner.map .block).toList ++ events) items
      (.cond owner expr :: (lines ++ [.endif]) ++ [.blank]) := by
  have opens : step role allowed stack (.cond owner expr) = some (.cond :: stack) :=
    step_opens (by simpa [allowed] using outside) rfl
  have closes : step role allowed (.cond :: stack) .endif = some stack := rfl
  have named : event (.cond owner expr) = owner.map .block := by cases owner <;> rfl
  have blank : ∀ line ∈ [Line.blank], Still line := List.forall_mem_singleton.mpr ⟨[], Or.inr (Or.inr rfl)⟩
  have whole := ((Wrote.single opens nofun).andThen (inner (choice_not_mem nofun outside))).append
    ((Wrote.single closes nofun).andThen (Wrote.still blank))
  rw [named] at whole
  simpa [event] using whole.of_iff ⟨fun is => ⟨is, trivial⟩, And.left⟩

theorem confBlock_eq_nil (none : ¬ HasBlock settings.registry item) : confBlock settings choiceFlag item = [] := by
  rw [confBlock, HasBlock] at *
  simp only [ne_eq, writeFeatureKconfig_eq_nil]
  split
  · next some =>
    split at none
    · next shared => rw [if_pos shared, if_neg none]
    · exact absurd some none
  · rfl

/-- The Kconfig file, if there is one, and the features. -/
theorem Wrote.options (own : item.conf ≠ "kconfig".toList) (outside : Bracket.choice ∉ stack) :
    Wrote settings.registry True stack stack [] [item]
      ((if item.conf ≠ [] then [.source item.conf] else []) ++ writeFeatureKconfig settings item) := by
  have reads (path : Text) : Sources settings.registry path item ↔ item.conf ≠ [] ∧ item.conf = path := by
    rw [Sources, if_neg own]
  have features := @Wrote.still settings.registry stack _ (writeFeatureKconfig_still settings item)
  by_cases some : item.conf ≠ []
  · rw [if_pos some]
    exact (Wrote.source outside fun path => (reads path).trans (and_iff_right some)).andThen features
  · rw [if_neg some, List.nil_append]
    exact features.unsourced fun path sources => some ((reads path).mp sources).1

private theorem menu_shape (opening menu : Line) (options : List Line) :
    [opening, menu] ++ options ++ [.endmenu, .endif, .blank] =
      opening :: ((menu :: (options ++ [.endmenu])) ++ [.endif]) ++ [.blank] := by simp

private theorem cond_shape (opening : Line) (options : List Line) :
    [opening] ++ options ++ [.endif, .blank] = opening :: (options ++ [.endif]) ++ [.blank] := by simp

theorem confBlock_cond (choiceFlag : Bool) (has : HasBlock settings.registry item) :
    ∃ expr inner, confBlock settings choiceFlag item = .cond (some item) expr :: (inner ++ [.endif]) ++ [.blank] ∧
      ∀ stack, Bracket.choice ∉ stack → Wrote settings.registry True stack stack [] [item] inner := by
  unfold HasBlock at has
  split at has
  · next shared =>
    have given : item.conf ≠ [] ∨ writeFeatureKconfig settings item ≠ [] :=
      Or.inl (by rw [shared]; decide)
    rw [confBlock, if_pos given, if_pos shared, if_pos has]
    refine ⟨_, _, menu_shape _ _ (.source _ :: writeFeatureKconfig settings item), fun stack outside => ?_⟩
    refine Wrote.inMenu _ outside fun inMenu => ?_
    refine (Wrote.source inMenu fun path => ?_).andThen (Wrote.still (writeFeatureKconfig_still settings item))
    rw [Sources, if_pos shared]
    exact and_iff_left has
  · next own =>
    have given : item.conf ≠ [] ∨ writeFeatureKconfig settings item ≠ [] := by
      simpa only [ne_eq, writeFeatureKconfig_eq_nil] using has
    rw [confBlock, if_pos given, if_neg own]
    cases choiceFlag with
    | true =>
      exact ⟨_, _, menu_shape _ _ _, fun stack outside => Wrote.inMenu _ outside fun inMenu => Wrote.options own inMenu⟩
    | false => exact ⟨_, _, cond_shape _ _, fun stack outside => Wrote.options own outside⟩

theorem not_sources (none : ¬ HasBlock settings.registry item) (path : Text) : ¬ Sources settings.registry path item := by
  unfold HasBlock at none
  unfold Sources
  split at none
  · next shared =>
    rw [if_pos shared]
    exact fun reads => none reads.2
  · next own =>
    rw [if_neg own]
    exact fun reads => none (Or.inl reads.1)

/-- A block outside every choice. -/
theorem Wrote.block (choiceFlag : Bool) (outside : Bracket.choice ∉ stack) :
    Wrote settings.registry True stack stack (blocks settings.registry item) [item]
      (confBlock settings choiceFlag item) := by
  unfold blocks
  split
  · next has =>
    obtain ⟨expr, inner, shape, wrote⟩ := confBlock_cond choiceFlag has
    rw [shape]
    exact Wrote.inCond (some item) expr outside fun inCond => wrote _ inCond
  · next none =>
    rw [confBlock_eq_nil none]
    exact Wrote.unsourced (Wrote.still (List.forall_mem_nil _)) (not_sources none)

/-- The block of a choice stands in the choice. -/
theorem Wrote.choiceBlock (inside : Bracket.choice ∈ stack) :
    Wrote settings.registry (¬ HasBlock settings.registry item) stack stack [] [item]
      (confBlock settings false item) where
  scans none := by rw [confBlock_eq_nil none, scan_nil]
  breaks has := by
    obtain ⟨expr, inner, shape, -⟩ := confBlock_cond false (not_not.mp has)
    have never : allowed stack (.cond (some item) expr) = false := by simpa [allowed] using inside
    rw [shape, List.cons_append, scan_cons, step_forbidden never, Option.bind_none]
  ordered none := by rw [confBlock_eq_nil none, List.filterMap_nil]
  sourced := (Wrote.block false (List.not_mem_nil (a := Bracket.choice))).sourced

theorem sharedTargets_eq (reg : Registry) (target : Text) :
    sharedTargets reg target = (checkSharedKconfig reg target).2 := by
  unfold sharedTargets checkSharedKconfig
  cases reg.kconfigDict.find? (target ∈ ·.2) <;> rfl

theorem feature_mem_writeFeatureKconfig {symbol : Text} :
    .feature symbol ∈ writeFeatureKconfig settings item ↔
      ∃ ft ∈ item.features, (if settings.prependFlag then "CONFIG_".toList else []) ++ ft.config = symbol := by
  unfold writeFeatureKconfig
  split
  · next none =>
    rw [none]
    exact iff_of_false List.not_mem_nil fun found => by obtain ⟨_, member, -⟩ := found; cases member
  · rw [List.mem_cons, or_iff_right nofun, List.mem_flatMap]
    refine exists_congr fun ft => and_congr_right fun _ => ?_
    constructor
    · intro member
      simp only [List.mem_append, List.mem_cons, List.not_mem_nil, or_false, Line.feature.injEq, reduceCtorEq]
        at member
      obtain (same | depends) | extracfg := member
      · exact same.symm
      · split at depends
        · cases depends
        · exact Line.noConfusion (List.mem_singleton.mp depends)
      · split at extracfg
        · cases extracfg
        · exact Line.noConfusion (List.mem_singleton.mp extracfg)
    · rintro rfl
      exact List.mem_append_left _ (List.mem_append_left _ (List.mem_append_left _ (List.mem_cons_self ..)))

/-- The block has the entries of the features that it is for. -/
theorem feature_mem_confBlock {symbol : Text} :
    .feature symbol ∈ confBlock settings choiceFlag item ↔ ∃ ft ∈ writtenFeatures settings.registry item,
      (if settings.prependFlag then "CONFIG_".toList else []) ++ ft.config = symbol := by
  by_cases given : item.conf ≠ [] ∨ writeFeatureKconfig settings item ≠ []
  · rw [confBlock, if_pos given, writtenFeatures, sharedTargets_eq]
    by_cases shared : item.conf = "kconfig".toList
    · rw [if_pos shared, if_pos shared]
      by_cases last : (checkSharedKconfig settings.registry item.target).2.getLast? = some item.target
      · rw [if_pos last, if_pos last, ← feature_mem_writeFeatureKconfig]
        simp only [List.mem_append, List.mem_cons, List.not_mem_nil, reduceCtorEq, or_false, false_or]
      · rw [if_neg last, if_neg last]
        exact iff_of_false List.not_mem_nil fun found => by obtain ⟨_, member, -⟩ := found; cases member
    · rw [if_neg shared, if_neg shared, ← feature_mem_writeFeatureKconfig]
      split <;> split <;>
        simp only [List.mem_append, List.mem_cons, List.not_mem_nil, reduceCtorEq, or_false, false_or]
  · have none : item.features = [] := writeFeatureKconfig_eq_nil.mp (not_not.mp (not_or.mp given).2)
    have other : writtenFeatures settings.registry item = [] := by
      rw [writtenFeatures, none]
      split
      · exact ite_self _
      · rfl
    rw [confBlock, if_neg given, other]
    exact iff_of_false List.not_mem_nil fun found => by obtain ⟨_, member, -⟩ := found; cases member

/-- The brackets of open menus. -/
def menusIn (curDirs : List Text) (stack : List Bracket) : List Bracket :=
  List.replicate curDirs.length .menu ++ stack

variable {dirs curDirs : List Text} {maxDepth : ℤ}

theorem choice_not_mem_menusIn (outside : Bracket.choice ∉ stack) : Bracket.choice ∉ menusIn curDirs stack := by
  rw [menusIn, List.mem_append, not_or]
  exact ⟨fun member => absurd (List.eq_of_mem_replicate member) nofun, outside⟩

theorem Wrote.blank : Wrote reg True stack stack [] [] [Line.blank] :=
  Wrote.still (List.forall_mem_singleton.mpr ⟨[], Or.inr (Or.inr rfl)⟩)

theorem Wrote.endmenu (dir : Text) : Wrote reg True (menusIn (dir :: curDirs) stack) (menusIn curDirs stack) [] []
    [.endmenu, .blank] := by
  have closes : step role allowed (menusIn (dir :: curDirs) stack) .endmenu = some (menusIn curDirs stack) := rfl
  exact (Wrote.single closes nofun).andThen Wrote.blank

theorem Wrote.leaveMenus : Wrote reg True (menusIn curDirs stack) stack [] [] (leaveMenus curDirs) := by
  induction curDirs with
  | nil => exact Wrote.still (List.forall_mem_nil _)
  | cons dir curDirs ih => exact (Wrote.endmenu dir).andThen ih

theorem Wrote.closeMenus (dirs : List Text) : Wrote reg True (menusIn curDirs stack)
    (menusIn (closeMenus dirs curDirs).1 stack) [] [] (closeMenus dirs curDirs).2 := by
  induction curDirs with
  | nil => exact Wrote.still (List.forall_mem_nil _)
  | cons dir curDirs ih =>
    unfold CBuild.Model.GenBuildChain.closeMenus
    split
    · exact Wrote.still (List.forall_mem_nil _)
    · exact (Wrote.endmenu dir).andThen ih

theorem Wrote.openMenus (maxDepth : ℤ) (curDirs dirs : List Text) (outside : Bracket.choice ∉ stack) :
    Wrote reg True (menusIn curDirs stack) (menusIn (openMenus maxDepth curDirs dirs).1 stack) [] []
      (openMenus maxDepth curDirs dirs).2 := by
  induction dirs generalizing curDirs with
  | nil => exact Wrote.still (List.forall_mem_nil _)
  | cons dir dirs ih =>
    cases dirs with
    | nil => exact Wrote.still (List.forall_mem_nil _)
    | cons next dirs =>
      unfold CBuild.Model.GenBuildChain.openMenus
      split
      · have opens : step role allowed (menusIn curDirs stack) (.menu dir) = some (menusIn (dir :: curDirs) stack) :=
          step_opens (by simpa [allowed] using choice_not_mem_menusIn outside) rfl
        exact (Wrote.single opens nofun).andThen (Wrote.blank.andThen (ih (dir :: curDirs)))
      · exact Wrote.still (List.forall_mem_nil _)

theorem Wrote.enterMenus (maxDepth : ℤ) (dirs curDirs : List Text) (outside : Bracket.choice ∉ stack) :
    Wrote reg True (menusIn curDirs stack) (menusIn (enterMenus maxDepth dirs curDirs).1 stack) [] []
      (enterMenus maxDepth dirs curDirs).2 :=
  (Wrote.closeMenus dirs).andThen (Wrote.openMenus maxDepth _ _ outside)

variable {genMember : Bool → Writer → Option Writer} {w w' : Writer} {member forest : Forest}

/-- What has been written when the members come. -/
def written (settings : KconfigSettings) (choiceFlag : Bool) (item : Item) (body : List Line) (w : Writer) : Writer :=
  if choiceFlag then (w.write (entryHead settings choiceFlag item ++ body)).defer (confBlock settings choiceFlag item)
  else (w.write (entryHead settings choiceFlag item ++ body)).write (confBlock settings choiceFlag item)

theorem writeOneKconfig_cases (wrote : writeOneKconfig settings choiceFlag item genMember w = some w') :
    ∃ body, entryBody settings item = some body ∧
      ((item.vtype = .package ∨ item.vtype = .config) ∧ w' = written settings choiceFlag item body w ∨
      item.vtype.isChoice = true ∧ (∃ inner, genMember true (written settings choiceFlag item body w) = some inner ∧
        w' = (inner.write [.endchoice, .blank]).flush) ∨
      item.vtype = .menuconfig ∧ ∃ inner, genMember false ((written settings choiceFlag item body w).write
          [.cond none (prependedSymbol settings.prependFlag item.target), .blank]) = some inner ∧
        w' = inner.write [.endif, .blank]) := by
  rw [writeOneKconfig, Option.bind_eq_bind, Option.bind_eq_some_iff] at wrote
  obtain ⟨body, made, wrote⟩ := wrote
  refine ⟨body, made, ?_⟩
  cases kind : item.vtype with
  | package | config =>
    rw [kind] at wrote
    exact Or.inl ⟨by simp, (Option.some_inj.mp wrote).symm⟩
  | menuchoice | choice =>
    rw [kind] at wrote
    obtain ⟨inner, members, result⟩ := Option.bind_eq_some_iff.mp wrote
    exact Or.inr (Or.inl ⟨rfl, inner, members, (Option.some_inj.mp result).symm⟩)
  | menuconfig =>
    rw [kind] at wrote
    obtain ⟨inner, members, result⟩ := Option.bind_eq_some_iff.mp wrote
    exact Or.inr (Or.inr ⟨rfl, inner, members, (Option.some_inj.mp result).symm⟩)

/-- The members of a choice are entries; their options are deferred. -/
theorem flat_written {maxDepth : ℤ} {prefixStr : Text} {curDirs : List Text} (flat : Flat forest)
    (wrote : genKconfig settings forest true maxDepth prefixStr curDirs w = some w') :
    ∃ lines, w'.text = w.text ++ lines ∧
      w'.confStr = w.confStr ++ forest.items.flatMap (confBlock settings true) ∧
      ∀ stack, Wrote settings.registry True stack stack (forest.items.map .entry) [] lines := by
  induction forest generalizing w with
  | nil =>
    cases wrote
    exact ⟨[], by simp, by simp, fun stack => Wrote.still (List.forall_mem_nil _)⟩
  | cons item member rest _ ih =>
    obtain ⟨leaf, rfl, flat⟩ := flat
    rw [genKconfig, if_pos rfl, Option.bind_eq_bind, Option.bind_eq_some_iff] at wrote
    obtain ⟨next, one, others⟩ := wrote
    obtain ⟨body, made, cases⟩ := writeOneKconfig_cases one
    have plain : item.vtype.isChoice = false := by rcases leaf with kind | kind <;> rw [kind] <;> rfl
    have notMenu : item.vtype ≠ .menuconfig := by rcases leaf with kind | kind <;> rw [kind] <;> nofun
    obtain ⟨-, rfl⟩ | ⟨choice, -⟩ | ⟨menu, -⟩ := cases
    · obtain ⟨lines, text, deferred, part⟩ := ih flat others
      refine ⟨entryHead settings true item ++ body ++ lines, ?_, ?_, fun stack => ?_⟩
      · rw [text, written, if_pos rfl, Writer.defer, Writer.write, List.append_assoc]
      · rw [deferred, written, if_pos rfl, Writer.defer, Writer.write, List.append_assoc]
        rfl
      · have entry := @Wrote.entry settings settings.registry item true stack body made
        rw [plain, if_neg Bool.false_ne_true] at entry
        exact entry.andThen (part stack)
    · exact absurd choice (by rw [plain]; exact Bool.false_ne_true)
    · exact absurd menu notMenu

/-- The deferred options. -/
theorem Wrote.blocks (items : List Item) (outside : Bracket.choice ∉ stack) :
    Wrote settings.registry True stack stack (items.flatMap (blocks settings.registry)) items
      (items.flatMap (confBlock settings true)) := by
  induction items with
  | nil => exact Wrote.still (List.forall_mem_nil _)
  | cons item items ih => exact (Wrote.block true outside).andThen ih

theorem flush_text (w : Writer) : ∃ behind, w.flush.text = w.text ++ (w.confStr ++ behind) ∧ w.flush.confStr = [] ∧
    ∀ line ∈ behind, Still line := by
  unfold Writer.flush
  split
  · next none => exact ⟨[], by rw [none, List.append_nil, List.append_nil], none, List.forall_mem_nil _⟩
  · exact ⟨[.blank], List.append_assoc .., rfl, List.forall_mem_singleton.mpr ⟨[], Or.inr (Or.inr rfl)⟩⟩

/-- The options of a choice stand in it, those of its members behind it. -/
theorem choice_written (outside : Bracket.choice ∉ stack) (choice : item.vtype.isChoice = true) {body lines : List Line}
    (made : entryBody settings item = some body) (items : List Item)
    (members : Wrote settings.registry True (.choice :: stack) (.choice :: stack) (items.map .entry) [] lines)
    {behind : List Line} (still : ∀ line ∈ behind, Still line) :
    Wrote settings.registry (¬ HasBlock settings.registry item) stack stack
      (.entry item :: (items.map .entry ++ [.endchoice] ++ items.flatMap (blocks settings.registry))) (item :: items)
      (entryHead settings false item ++ body ++ (confBlock settings false item ++
        (lines ++ ([.endchoice, .blank] ++ (items.flatMap (confBlock settings true) ++ behind))))) := by
  have entry := @Wrote.entry settings settings.registry item false stack body made
  rw [choice, if_pos rfl] at entry
  have closes : step role allowed (.choice :: stack) .endchoice = some stack := rfl
  have closing := (@Wrote.single settings.registry _ _ _ closes nofun).andThen Wrote.blank
  have inside := @Wrote.choiceBlock settings item (.choice :: stack) (List.mem_cons_self ..)
  have rest := members.andThen (closing.andThen ((Wrote.blocks items outside).andThen (Wrote.still still)))
  have whole := (entry.andThen inside).append rest
  simpa [event] using whole.of_iff ⟨fun is => ⟨is, trivial⟩, And.left⟩

/-- The options of a menu stand before its members. -/
theorem menu_written (outside : Bracket.choice ∉ stack) (menu : item.vtype = .menuconfig) {body lines : List Line}
    (made : entryBody settings item = some body)
    (members : Bracket.choice ∉ Bracket.cond :: stack →
      Wrote settings.registry clean (.cond :: stack) (.cond :: stack) events items lines) (expr : Text) :
    Wrote settings.registry clean stack stack (.entry item :: (blocks settings.registry item ++ events)) (item :: items)
      (entryHead settings false item ++ body ++ (confBlock settings false item ++
        (.cond none expr :: (.blank :: lines ++ [.endif]) ++ [.blank]))) := by
  have entry := @Wrote.entry settings settings.registry item false stack body made
  rw [menu] at entry
  have inner := Wrote.inCond none expr outside fun inCond => Wrote.blank.andThen (members inCond)
  exact entry.andThen ((Wrote.block false outside).andThen inner)

theorem leaf_written (outside : Bracket.choice ∉ stack) (leaf : item.vtype = .package ∨ item.vtype = .config)
    {body : List Line} (made : entryBody settings item = some body) :
    Wrote settings.registry True stack stack (.entry item :: blocks settings.registry item) [item]
      (entryHead settings false item ++ body ++ confBlock settings false item) := by
  have entry := @Wrote.entry settings settings.registry item false stack body made
  have plain : item.vtype.isChoice = false := by rcases leaf with kind | kind <;> rw [kind] <;> rfl
  rw [plain, if_neg Bool.false_ne_true] at entry
  exact entry.andThen (Wrote.block false outside)

theorem clean_cons : Clean reg (item :: items) ↔ (item.vtype.isChoice → ¬ HasBlock reg item) ∧ Clean reg items :=
  List.forall_mem_cons

theorem clean_append : Clean reg (items ++ items') ↔ Clean reg items ∧ Clean reg items' := List.forall_mem_append

theorem flat_clean (flat : Flat forest) : Clean reg forest.items := by
  induction forest with
  | nil => exact List.forall_mem_nil _
  | cons item member rest _ ih =>
    obtain ⟨leaf, rfl, flat⟩ := flat
    refine clean_cons.mpr ⟨fun choice => ?_, ih flat⟩
    rcases leaf with kind | kind <;> rw [kind] at choice <;> cases choice

/-- What is appended to the file, with nothing deferred at the end. -/
def Writes (settings : KconfigSettings) (clean : Prop) (before after : List Text) (events : List Event)
    (items : List Item) (w w' : Writer) : Prop :=
  ∃ lines, w'.text = w.text ++ lines ∧ w'.confStr = [] ∧ ∀ stack, Bracket.choice ∉ stack →
    Wrote settings.registry clean (menusIn before stack) (menusIn after stack) events items lines

theorem Writes.append {first second third : List Text} {w'' : Writer}
    (one : Writes settings clean first second events items w w')
    (other : Writes settings clean' second third events' items' w' w'') :
    Writes settings (clean ∧ clean') first third (events ++ events') (items ++ items') w w'' := by
  obtain ⟨lines, text, -, part⟩ := one
  obtain ⟨lines', text', empty, part'⟩ := other
  exact ⟨lines ++ lines', by rw [text', text, List.append_assoc], empty,
    fun stack outside => (part stack outside).append (part' stack outside)⟩

theorem Writes.of_iff {before after : List Text} (writes : Writes settings clean before after events items w w')
    (same : clean' ↔ clean) : Writes settings clean' before after events items w w' := by
  obtain ⟨lines, text, empty, part⟩ := writes
  exact ⟨lines, text, empty, fun stack outside => (part stack outside).of_iff same⟩

/-- The events of an item and its members. -/
def itemEvents (reg : Registry) (item : Item) (member : Forest) : List Event :=
  .entry item :: match item.vtype with
    | .choice | .menuchoice => member.items.map .entry ++ [.endchoice] ++ member.items.flatMap (blocks reg)
    | .menuconfig => blocks reg item ++ order reg member
    | _ => blocks reg item

theorem order_cons (reg : Registry) (item : Item) (member rest : Forest) :
    order reg (.cons item member rest) = itemEvents reg item member ++ order reg rest := rfl

theorem written_text (body : List Line) (w : Writer) : (written settings false item body w).text =
    w.text ++ (entryHead settings false item ++ body ++ confBlock settings false item) :=
  List.append_assoc ..

/-- One item with its members, when the members of a menu are written well. -/
theorem one_written {curDirs : List Text} (empty : w.confStr = [])
    (proper : Proper (.cons item member .nil)) {maxDepth : ℤ} {prefixStr : Text}
    (wrote : writeOneKconfig settings false item
      (fun flag w => genKconfig settings member flag maxDepth prefixStr [] w) w = some w')
    (menu : ∀ w w', Proper member → w.confStr = [] → genKconfig settings member false maxDepth prefixStr [] w = some w' →
      Writes settings (Clean settings.registry member.items) [] [] (order settings.registry member) member.items w w') :
    Writes settings (Clean settings.registry (item :: member.items)) curDirs curDirs
      (itemEvents settings.registry item member) (item :: member.items) w w' := by
  obtain ⟨here, -⟩ := proper
  obtain ⟨body, made, cases⟩ := writeOneKconfig_cases wrote
  obtain ⟨leaf, rfl⟩ | ⟨choice, inner, members, rfl⟩ | ⟨kind, inner, members, rfl⟩ := cases
  · obtain rfl : member = .nil := by rcases leaf with kind | kind <;> rw [kind] at here <;> exact here
    have events : itemEvents settings.registry item .nil = .entry item :: blocks settings.registry item := by
      rcases leaf with kind | kind <;> rw [itemEvents, kind]
    have clean : Clean settings.registry [item] := by
      refine clean_cons.mpr ⟨fun choice => ?_, List.forall_mem_nil _⟩
      rcases leaf with kind | kind <;> rw [kind] at choice <;> cases choice
    refine ⟨entryHead settings false item ++ body ++ confBlock settings false item, written_text body w, empty,
      fun stack outside => ?_⟩
    rw [events]
    exact (leaf_written (choice_not_mem_menusIn outside) leaf made).of_iff (iff_of_true clean trivial)
  · have flat : Flat member := by
      cases kind : item.vtype <;> rw [kind] at choice here <;> first | exact here | cases choice
    have events : itemEvents settings.registry item member = .entry item ::
        (member.items.map .entry ++ [.endchoice] ++ member.items.flatMap (blocks settings.registry)) := by
      unfold itemEvents
      cases kind : item.vtype <;> rw [kind] at choice <;> first | rfl | cases choice
    have clean : Clean settings.registry (item :: member.items) ↔ ¬ HasBlock settings.registry item :=
      clean_cons.trans ((and_iff_left (flat_clean flat)).trans (imp_iff_right choice))
    obtain ⟨lines, text, deferred, part⟩ := flat_written flat members
    obtain ⟨behind, flushed, done, still⟩ := flush_text (inner.write [.endchoice, .blank])
    refine ⟨entryHead settings false item ++ body ++ (confBlock settings false item ++ (lines ++
      ([.endchoice, .blank] ++ (member.items.flatMap (confBlock settings true) ++ behind)))), ?_, done,
      fun stack outside => ?_⟩
    · have noneYet : (written settings false item body w).confStr = [] := empty
      rw [flushed, Writer.write, deferred, noneYet, List.nil_append, text, written_text]
      simp only [List.append_assoc]
    · rw [events]
      exact (choice_written (choice_not_mem_menusIn outside) choice made member.items (part _) still).of_iff clean
  · rw [kind] at here
    have noneYet : ((written settings false item body w).write
        [.cond none (prependedSymbol settings.prependFlag item.target), .blank]).confStr = [] := empty
    obtain ⟨lines, text, done, part⟩ := menu _ _ here noneYet members
    have events : itemEvents settings.registry item member = .entry item ::
        (blocks settings.registry item ++ order settings.registry member) := by
      rw [itemEvents, kind]
    have clean : Clean settings.registry (item :: member.items) ↔ Clean settings.registry member.items :=
      clean_cons.trans (and_iff_right fun choice => by rw [kind] at choice; cases choice)
    refine ⟨entryHead settings false item ++ body ++ (confBlock settings false item ++
      (.cond none (prependedSymbol settings.prependFlag item.target) :: (.blank :: lines ++ [.endif]) ++ [.blank])), ?_, done,
      fun stack outside => ?_⟩
    · rw [Writer.write, text, Writer.write, written_text]
      simp only [List.append_assoc, List.cons_append, List.nil_append]
    · rw [events]
      refine (menu_written (choice_not_mem_menusIn outside) kind made (fun inCond => ?_) _).of_iff clean
      exact part _ inCond

/-- The menus are well nested, and every item has its place, exactly when no choice has options of its own. -/
theorem proper_written {maxDepth : ℤ} {prefixStr : Text} {curDirs : List Text} (proper : Proper forest)
    (empty : w.confStr = []) (wrote : genKconfig settings forest false maxDepth prefixStr curDirs w = some w') :
    Writes settings (Clean settings.registry forest.items) curDirs [] (order settings.registry forest) forest.items
      w w' := by
  induction forest generalizing maxDepth prefixStr curDirs w w' with
  | nil =>
    cases wrote
    exact ⟨_, rfl, empty, fun stack _ => Wrote.leaveMenus.of_iff (iff_of_true (List.forall_mem_nil _) trivial)⟩
  | cons item member rest ihMember ihRest =>
    obtain ⟨here, later⟩ := proper
    rw [genKconfig, if_neg Bool.false_ne_true, Option.bind_eq_bind, Option.bind_eq_some_iff] at wrote
    obtain ⟨next, one, others⟩ := wrote
    set dirs := itemDirs settings.keywords prefixStr item
    have moved : Writes settings True curDirs (enterMenus maxDepth dirs curDirs).1 [] [] w
        (w.write (enterMenus maxDepth dirs curDirs).2) :=
      ⟨_, rfl, empty, fun stack outside => Wrote.enterMenus maxDepth dirs curDirs outside⟩
    have item := @one_written settings item (w.write (enterMenus maxDepth dirs curDirs).2) next member
      (enterMenus maxDepth dirs curDirs).1 empty ⟨here, trivial⟩ _ _ one fun w w' proper empty wrote => ihMember proper empty wrote
    obtain ⟨_, -, emptyNext, -⟩ := id item
    have whole := (moved.append item).append (ihRest later emptyNext others)
    rw [order_cons, Forest.items_cons]
    refine whole.of_iff ?_
    rw [clean_append]
    simp

/-- The file is well nested, with every entry and block once and in its place, exactly when no choice has options of its
own and one item reads each shared Kconfig file. -/
theorem wellNested_iff (settings : KconfigSettings) (forest : Forest) (maxDepth : ℤ) (w : Writer) (proper : Proper forest)
    (wrote : genKconfig settings forest false maxDepth [] [] {} = some w) :
    WellNested settings.registry forest w ↔ Suited settings.registry forest := by
  obtain ⟨lines, text, flushed, parts⟩ := proper_written proper rfl wrote
  have part : Wrote settings.registry (Clean settings.registry forest.items) [] [] (order settings.registry forest)
      forest.items lines := parts [] List.not_mem_nil
  rw [List.nil_append] at text
  constructor
  · rintro ⟨brackets, -, -, sourced⟩
    refine ⟨?_, fun shared member several => ?_⟩
    · by_contra dirty
      rw [text, part.breaks dirty] at brackets
      cases brackets
    · rw [← part.sourced, ← text]
      exact sourced shared member several
  · rintro ⟨clean, sharers⟩
    refine ⟨?_, ?_, flushed, fun shared member several => ?_⟩
    · rw [text]
      exact part.scans clean
    · rw [text]
      exact part.ordered clean
    · rw [text, part.sourced]
      exact sharers shared member several

def inApp (vtype : VType) (target conf : String) (targets : List String) : Item where
  spath := "app".toList
  vtype := vtype
  target := target.toList
  targets := targets.map String.toList
  conf := conf.toList

/-- The choice `mode` of the packages `fast` and `small`; `small` shares a Kconfig file with `big` beside it. -/
def modes (conf : String) : Forest :=
  .cons (inApp .choice "mode" conf ["fast", "small"])
    (.leaves [inApp .package "fast" "app/Kconfig" [], inApp .package "small" "kconfig" []])
    (.leaves [inApp .package "big" "kconfig" []])

/-- What the statements with `kconfig` share. -/
def sharing (choices : List (Text × List Text)) : KconfigSettings where
  prependFlag := true
  registry := { kconfigDict := ("lib/Kconfig".toList, ["big".toList, "small".toList]) :: choices }

def fileOf (settings : KconfigSettings) (forest : Forest) : Writer :=
  (genKconfig settings forest false 3 [] [] {}).getD {}

theorem modes_wellNested : (fileOf (sharing []) (modes "")).text.length = 29 ∧
    WellNested (sharing []).registry (modes "") (fileOf (sharing []) (modes "")) := by
  have proper : Proper (modes "") := ⟨⟨Or.inl rfl, rfl, Or.inl rfl, rfl, trivial⟩, rfl, trivial⟩
  have suited : Suited (sharing []).registry (modes "") := ⟨by unfold Clean; decide +kernel, by decide +kernel⟩
  exact ⟨by decide +kernel, (wellNested_iff (sharing []) (modes "") 3 _ proper (by decide +kernel)).mpr suited⟩

/-- A choice that is given `kconfig` has a condition and a menu between its entry and its members. -/
theorem sharedChoice_broken :
    genKconfig (sharing [([], ["mode".toList])]) (modes "kconfig") false 3 [] [] {} =
      some (fileOf (sharing [([], ["mode".toList])]) (modes "kconfig")) ∧
    ¬ WellNested (sharing [([], ["mode".toList])]).registry (modes "kconfig")
      (fileOf (sharing [([], ["mode".toList])]) (modes "kconfig")) := by
  refine ⟨by decide +kernel, fun nested => ?_⟩
  have broken : scan role allowed [] (fileOf (sharing [([], ["mode".toList])]) (modes "kconfig")).text = none := by
    decide +kernel
  exact nomatch nested.brackets.symm.trans broken

end CBuild.Soundness.KconfigNesting
