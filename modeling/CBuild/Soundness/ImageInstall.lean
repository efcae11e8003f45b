import CBuild.Model.GenBuildChain.ImageAnalysis
import CBuild.Soundness.LicenseIndex

/-! # The selected recipes and the image

A recipe reaches the image when its name survives `escape_toupper` and `escape_tolower`. The decoder
replaces underscores first, so it never finds the escapes of dots and plus signs; and what it decodes
instead has the same symbol, so it is no other recipe.
-/

namespace CBuild.Soundness.ImageInstall

open CBuild.Text CBuild.Model.GenBuildChain CBuild.Model.GenPackageInfos CBuild.Soundness.LicenseIndex

/-- The characters of recipe names. -/
def recipeChar (c : Char) : Bool := lowerChar c || c = '.' || c = '+'

theorem recipeChar_ascii {c : Char} (here : recipeChar c = true) : ∃ n < 128, c = Char.ofNat n := by
  simp only [recipeChar, Bool.or_eq_true, decide_eq_true_eq] at here
  rcases here with (lower | rfl) | rfl
  · exact ascii_of_char (.inl lower)
  · exact ⟨46, by decide, by decide⟩
  · exact ⟨43, by decide, by decide⟩

/-- The symbol of a recipe is written in capitals. -/
theorem escapeToupper_upper {name : Text} (named : ∀ c ∈ name, recipeChar c = true) :
    ∀ c ∈ escapeToupper name, upperChar c = true := by
  induction name with
  | nil => simp [escapeToupper, Text.replace_char, upper]
  | cons d name ih =>
    have split : escapeToupper (d :: name) = escapeToupper [d] ++ escapeToupper name :=
      escapeToupper_append [d] name
    intro c member
    rw [split] at member
    rcases List.mem_append.mp member with here | there
    · obtain ⟨n, small, rfl⟩ := recipeChar_ascii (named d (List.mem_cons_self ..))
      have all : ∀ n < 128, recipeChar (Char.ofNat n) = true →
          ∀ c ∈ escapeToupper [Char.ofNat n], upperChar c = true := by decide +kernel
      exact all n small (named _ (List.mem_cons_self ..)) c here
    · exact ih (fun c inside => named c (List.mem_cons_of_mem _ inside)) c there

/-- A recipe name survives the two translations exactly when it has no dots and no plus signs. -/
theorem round_trip_iff {name : Text} (named : ∀ c ∈ name, recipeChar c = true) :
    escapeTolower (escapeToupper name) = name ↔ '.' ∉ name ∧ '+' ∉ name := by
  constructor
  · intro same
    have upper := escapeToupper_upper named
    rw [← same]
    exact ⟨not_mem_escapeTolower upper (by decide +kernel), not_mem_escapeTolower upper (by decide +kernel)⟩
  · rintro ⟨dot, plus⟩
    refine escapeTolower_escapeToupper fun c member => ?_
    have here := named c member
    simp only [recipeChar, Bool.or_eq_true, decide_eq_true_eq] at here
    rcases here with (lower | rfl) | rfl
    · exact lower
    · exact absurd member dot
    · exact absurd member plus

theorem strip_named {name : Text} (named : ∀ c ∈ name, recipeChar c = true) : strip name = name := by
  have solid : ∀ c ∈ name, blank c = false := by
    intro c member
    obtain ⟨n, small, rfl⟩ := recipeChar_ascii (named c member)
    have all : ∀ n < 128, recipeChar (Char.ofNat n) = true → blank (Char.ofNat n) = false := by decide +kernel
    exact all n small (named _ member)
  have kept (text : Text) (solid : ∀ c ∈ text, blank c = false) : text.dropWhile blank = text := by
    cases text with
    | nil => rfl
    | cons c text => simp [solid c (List.mem_cons_self ..)]
  rw [strip, kept name solid, kept name.reverse fun c member => solid c (List.mem_reverse.mp member),
    List.reverse_reverse]

theorem readRecipe_line {name : Text} (named : ∀ c ∈ name, recipeChar c = true) (rest : Text) :
    readRecipe (name ++ '=' :: rest) = name := by
  have plain : '=' ∉ name := fun member => absurd (named _ member) (by decide)
  have parts : splitOn ['='] (name ++ '=' :: rest) = name :: splitOn ['='] rest :=
    @splitOn_part '=' [] name plain rest
  rw [readRecipe, parts]
  exact strip_named named

/-- The recipes of a build: what `gen_yocto_target` writes lines for. -/
def recipes (pokyNames : List Text) (actualList : List Item) : List Text :=
  pokyNames ++ actualList.map (·.target)

theorem readRecipe_genYoctoTarget {pokyNames : List Text} {actualList : List Item}
    (named : ∀ name ∈ recipes pokyNames actualList, ∀ c ∈ name, recipeChar c = true) :
    (genYoctoTarget pokyNames actualList).map readRecipe = recipes pokyNames actualList := by
  rw [genYoctoTarget, recipes, List.map_append, List.map_map, List.map_map]
  congr 1
  · refine (List.map_congr_left fun name member => ?_).trans (List.map_id pokyNames)
    exact readRecipe_line (named name (List.mem_append_left _ member)) _
  · refine List.map_congr_left fun item member => ?_
    have inside : item.target ∈ recipes pokyNames actualList :=
      List.mem_append_right _ (List.mem_map_of_mem member)
    simp only [Function.comp_apply, List.append_assoc, List.cons_append]
    exact readRecipe_line (named _ inside) _

/-- The symbols that `.config` assigns `y` are those of the selected recipes. -/
def Selects (config : Config) (selected : List Text) : Prop :=
  ∀ symbol, config.Enabled ("CONFIG_".toList ++ symbol) ↔ ∃ name ∈ selected, escapeToupper name = symbol

/-- What is taken from `.config` are the selected recipes without dots and plus signs. -/
theorem mem_configList {pokyNames : List Text} {actualList : List Item}
    (named : ∀ name ∈ recipes pokyNames actualList, ∀ c ∈ name, recipeChar c = true)
    (distinct : ((recipes pokyNames actualList).map configSymbol).Nodup) {selected : List Text}
    (subset : selected ⊆ recipes pokyNames actualList) {config : Config} (selects : Selects config selected)
    (name : Text) : name ∈ configList (genYoctoTarget pokyNames actualList) config.lines ↔
      name ∈ selected ∧ '.' ∉ name ∧ '+' ∉ name := by
  have unique {first second : Text} (one : first ∈ recipes pokyNames actualList)
      (two : second ∈ recipes pokyNames actualList) (same : escapeToupper first = escapeToupper second) :
      first = second :=
    List.inj_on_of_nodup_map distinct one two (congrArg ("CONFIG_".toList ++ ·) same)
  rw [configList, List.mem_filter, decide_eq_true_eq, readRecipe_genYoctoTarget named]
  constructor
  · rintro ⟨decoded, recipe⟩
    have plain : '=' ∉ name := fun member => absurd (named name recipe _ member) (by decide)
    obtain ⟨symbol, enabled, back⟩ := (decoded_iff plain).mp decoded
    obtain ⟨other, chosen, rfl⟩ := (selects symbol).mp enabled
    -- the decoded name has the same symbol as the selected one
    have same : escapeToupper name = escapeToupper other := by
      rw [← back, escapeToupper_escapeTolower (escapeToupper_upper (named other (subset chosen)))]
    obtain rfl := unique recipe (subset chosen) same
    exact ⟨chosen, (round_trip_iff (named name recipe)).mp back⟩
  · rintro ⟨chosen, bare⟩
    have recipe := subset chosen
    have plain : '=' ∉ name := fun member => absurd (named name recipe _ member) (by decide)
    have enabled := (selects (escapeToupper name)).mpr ⟨name, chosen, rfl⟩
    exact ⟨(decoded_iff plain).mpr ⟨_, enabled, (round_trip_iff (named name recipe)).mpr bare⟩, recipe⟩

/-- The image and the patch file get exactly the selected recipes when those whose names have a dot or
a plus sign are ignored and are no patches; and exactly the names without them survive the translations. -/
theorem imageInstall_exact_iff (pokyNames : List Text) (actualList : List Item)
    (named : ∀ name ∈ recipes pokyNames actualList, ∀ c ∈ name, recipeChar c = true)
    (distinct : ((recipes pokyNames actualList).map configSymbol).Nodup) (selected : List Text)
    (subset : selected ⊆ recipes pokyNames actualList) (config : Config) (selects : Selects config selected)
    (ignoreRecipes : List Text) :
    (((∀ name, name ∈ imageInstall ignoreRecipes (genYoctoTarget pokyNames actualList) config.lines ↔
        name ∈ selected ∧ name ∉ ignoreRecipes) ∧
      (∀ name, name ∈ patchDepends (genYoctoTarget pokyNames actualList) config.lines ↔
        name ∈ selected ∧ isPatchRecipe name = true)) ↔
      ∀ name ∈ selected, '.' ∈ name ∨ '+' ∈ name → name ∈ ignoreRecipes ∧ isPatchRecipe name = false) ∧
    ∀ name ∈ recipes pokyNames actualList, escapeTolower (escapeToupper name) = name ↔ '.' ∉ name ∧ '+' ∉ name := by
  have taken := mem_configList named distinct subset selects
  refine ⟨?_, fun name recipe => round_trip_iff (named name recipe)⟩
  simp only [imageInstall, patchDepends, List.mem_filter, taken, decide_eq_true_eq]
  constructor
  · rintro ⟨image, patches⟩ name chosen marked
    have lost : ¬ ('.' ∉ name ∧ '+' ∉ name) := fun bare => marked.elim bare.1 bare.2
    refine ⟨?_, Bool.eq_false_iff.mpr fun patched => ?_⟩
    · by_contra wanted
      exact lost ((image name).mpr ⟨chosen, wanted⟩).1.2
    · exact lost ((patches name).mpr ⟨chosen, patched⟩).1.2
  · intro rest
    have bare {name : Text} (chosen : name ∈ selected)
        (used : name ∉ ignoreRecipes ∨ isPatchRecipe name = true) : '.' ∉ name ∧ '+' ∉ name := by
      by_contra marked
      have dropped := rest name chosen (by tauto)
      rcases used with wanted | patched
      · exact wanted dropped.1
      · exact absurd patched (by simp [dropped.2])
    exact ⟨fun name => ⟨fun inside => ⟨inside.1.1, inside.2⟩, fun wanted => ⟨⟨wanted.1, bare wanted.1 (.inl wanted.2)⟩, wanted.2⟩⟩,
      fun name => ⟨fun inside => ⟨inside.1.1, inside.2⟩, fun wanted => ⟨⟨wanted.1, bare wanted.1 (.inr wanted.2)⟩, wanted.2⟩⟩⟩

def busybox : Item := { target := "busybox".toList, src := "/meta/busybox.bb".toList }

theorem selects_enabling {selected : List Text} (once : (selected.map configSymbol).Nodup)
    (symbols : ∀ name ∈ selected, '=' ∉ configSymbol name) :
    Selects (.enabling selected once symbols) selected := by
  intro symbol
  rw [Config.enabled_enabling]
  exact exists_congr fun name => and_congr_right fun _ => List.append_right_inj _

def plainConfig : Config := .enabling ["base-files".toList, "busybox".toList] (by decide) (by decide)

/-- Both reach the image. -/
theorem busybox_installed :
    (∀ name, name ∈ imageInstall [] (genYoctoTarget ["base-files".toList] [busybox]) plainConfig.lines ↔
      name ∈ ["base-files".toList, "busybox".toList] ∧ name ∉ ([] : List Text)) ∧
    ∀ name, name ∈ patchDepends (genYoctoTarget ["base-files".toList] [busybox]) plainConfig.lines ↔
      name ∈ ["base-files".toList, "busybox".toList] ∧ isPatchRecipe name = true :=
  (imageInstall_exact_iff ["base-files".toList] [busybox] (by decide) (by decide)
    ["base-files".toList, "busybox".toList] (by decide) plainConfig (selects_enabling _ _) []).1.mpr (by decide)

def gtkConfig : Config := .enabling ["gtk+".toList] (by decide) (by decide)

/-- `gtk+` is selected and left out of the image. -/
theorem gtk_missing :
    (∀ name ∈ recipes ["gtk+".toList] [], ∀ c ∈ name, recipeChar c = true) ∧
    ((recipes ["gtk+".toList] []).map configSymbol).Nodup ∧ Selects gtkConfig ["gtk+".toList] ∧
    imageInstall [] (genYoctoTarget ["gtk+".toList] []) gtkConfig.lines = [] ∧
    escapeTolower (escapeToupper "gtk+".toList) = "gtk--plus--".toList :=
  ⟨by decide, by decide, selects_enabling _ _, by decide +kernel, by decide⟩

end CBuild.Soundness.ImageInstall
