import CBuild.Model.ProcessCache.Depends
import CBuild.Model.GenBuildChain.Target
import Mathlib.Data.List.TakeWhile

/-! # The words of a Target line

The marking loop of `gen_normal_target` marks every weak dependence on its own, and the words
between the quotation marks of the line are exactly the marked weak dependences, the conditional
dependences and the strong dependences.
-/

namespace CBuild.Soundness.TargetLine

open CBuild.Text CBuild.Model.GenBuildChain CBuild.Model.ProcessCache

/-- The dependences of an item as the parsers leave them, in a directory whose path can be written
into makefiles. -/
structure Listed (item : Item) : Prop where
  target : ∃ name : Name, name.text = item.target
  weak : ∀ dep ∈ item.awdeps, ∃ name : Name, name.text = dep ∧ dep.head? ≠ some '+'
  conds : ∀ idep ∈ item.ideps, ∃ cond : CondDep, cond.text = idep
  strong : ∀ dep ∈ item.asdeps, ∃ name : Name, name.text = dep
  path : '"' ∉ item.path

def markChar (c : Char) : Prop := c = '?' ∨ c = '|' ∨ c = '+'

theorem unlessIn_eq (names : List Text) (dep : Text) :
    unlessIn names dep = '+' :: dep ∨ unlessIn names dep = '?' :: dep := by
  unfold unlessIn
  split
  · exact .inl rfl
  · exact .inr rfl

private theorem unlessIn_cases (names : List Text) (dep : Text) {marked : Text}
    (here : some (unlessIn names dep) = some marked) :
    marked = '?' :: dep ∨ marked = '|' :: dep ∨ marked = '+' :: dep := by
  rw [← Option.some.inj here]
  rcases unlessIn_eq names dep with plus | question
  · exact .inr (.inr plus)
  · exact .inl question

theorem mark_eq {item : Item} {dep marked : Text} (here : item.mark dep = some marked) :
    marked = '?' :: dep ∨ marked = '|' :: dep ∨ marked = '+' :: dep := by
  have bar (same : some ('|' :: dep) = some marked) : marked = '|' :: dep := (Option.some.inj same).symm
  unfold Item.mark at here
  split at here
  · split at here
    · cases here
    · exact unlessIn_cases _ _ here
  split at here
  · exact .inr (.inl (bar here))
  split at here
  · split at here
    · cases here
    · exact unlessIn_cases _ _ here
  split at here
  · split at here
    · exact .inr (.inl (bar here))
    · exact unlessIn_cases _ _ here
  · exact unlessIn_cases _ _ here

theorem replaceList_append {ori rep : Text} {first rest : List Text} (absent : ori ∉ first) :
    replaceList ori rep (first ++ ori :: rest) = first ++ rep :: rest := by
  induction first with
  | nil => simp [replaceList]
  | cons text first ih =>
    have other : text ≠ ori := fun same => absent (same ▸ List.mem_cons_self ..)
    simp [replaceList, other, ih fun member => absent (List.mem_cons_of_mem _ member)]

/-- The loop replaces the names in front of the copy one by one: what it leaves begins with a mark,
so it is never taken for a name that is still to come. -/
theorem foldl_markStep (item : Item) (done : List Text) {rest : List Text}
    (marked : ∀ text ∈ done, ∃ c dep, markChar c ∧ text = c :: dep)
    (named : ∀ dep ∈ rest, ∃ name : Name, name.text = dep ∧ dep.head? ≠ some '+') :
    rest.foldl item.markStep (done ++ rest) = done ++ rest.filterMap item.mark := by
  induction rest generalizing done with
  | nil => simp
  | cons dep rest ih =>
    have later := fun other member => named other (List.mem_cons_of_mem _ member)
    have absent : dep ∉ done := by
      intro member
      obtain ⟨c, text, special, same⟩ := marked dep member
      obtain ⟨name, rfl, plus⟩ := named dep (List.mem_cons_self ..)
      have first : name.text.head? = some c := by rw [same]; rfl
      rcases special with rfl | rfl | rfl
      · exact name.head_ne (by decide) first
      · exact name.head_ne (by decide) first
      · exact plus first
    rw [List.foldl_cons, Item.markStep, List.filterMap_cons]
    cases here : item.mark dep with
    | none =>
      have removed : (done ++ dep :: rest).erase dep = done ++ rest := by
        rw [List.erase_append_right _ absent, List.erase_cons_head]
      simpa only [removed] using ih done marked later
    | some text =>
      have special : ∃ c dep, markChar c ∧ text = c :: dep := by
        rcases mark_eq here with rfl | rfl | rfl
        · exact ⟨_, _, .inl rfl, rfl⟩
        · exact ⟨_, _, .inr (.inl rfl), rfl⟩
        · exact ⟨_, _, .inr (.inr rfl), rfl⟩
      have next := ih (done ++ [text]) (by
        intro other member
        rcases List.mem_append.mp member with old | new
        · exact marked other old
        · exact List.mem_singleton.mp new ▸ special) later
      simpa [replaceList_append absent] using next

theorem markedAwdeps_eq {item : Item} (listed : Listed item) :
    item.markedAwdeps = item.awdeps.filterMap item.mark :=
  foldl_markStep item [] (by simp) listed.weak

def weakWord (item : Item) (dep : Text) : Option Text :=
  (item.mark dep).map fun marked => if marked.head? = some '+' then marked.drop 1 else marked

def condWord (cond : CondDep) : Text := cond.dep.text ++ '@' :: cond.condition.text

/-- A weak dependence that is not left out appears by itself or after `?` or `|`. -/
theorem weakWord_eq {item : Item} {dep word : Text} (here : weakWord item dep = some word) :
    word = dep ∨ word = '?' :: dep ∨ word = '|' :: dep := by
  obtain ⟨marked, found, same⟩ := Option.map_eq_some_iff.mp here
  rcases mark_eq found with rfl | rfl | rfl
  · exact .inr (.inl (by simpa using same.symm))
  · exact .inr (.inr (by simpa using same.symm))
  · exact .inl (by simpa using same.symm)

theorem replace_condText (cond : CondDep) : replace ['@', '@'] ['@'] cond.text = condWord cond := by
  have plainDep : '@' ∉ cond.dep.text := cond.dep.not_mem (by decide)
  have plain : '@' ∉ cond.condition.text := cond.condition.not_mem (by decide)
  have absent : ¬ ['@', '@'] <:+: '@' :: cond.condition.text := by
    intro inside
    rcases List.infix_cons_iff.mp inside with start | later
    · obtain ⟨tail, same⟩ := (List.cons_prefix_cons.mp start).2
      exact plain (same ▸ List.mem_cons_self ..)
    · exact plain (later.subset (List.mem_cons_self ..))
  rw [CondDep.text, replace_part plainDep, condWord]
  cases cond.double with
  | true =>
    have double := @replace_front ['@', '@'] (by simp) ['@'] cond.condition.text
    rw [if_pos rfl, double, replace_of_absent]
    · rfl
    · exact fun inside => plain (inside.subset (List.mem_cons_self ..))
  | false => exact congrArg _ (replace_of_absent absent)

theorem condWord_head (cond : CondDep) {c : Char} (special : nameChar c = false) :
    (condWord cond).head? ≠ some c := by
  obtain ⟨d, rest, same⟩ := List.exists_cons_of_ne_nil cond.dep.nonempty
  have other : cond.dep.text.head? ≠ some c := cond.dep.head_ne special
  rw [condWord, same] at *
  simpa using other

theorem splitOn_condWord (cond : CondDep) :
    splitOn ['@'] (condWord cond) = [cond.dep.text, cond.condition.text] := by
  have plain : '@' ∉ cond.condition.text := cond.condition.not_mem (by decide)
  have parts : splitOn ['@'] (condWord cond) = cond.dep.text :: splitOn ['@'] cond.condition.text :=
    splitOn_part (cond.dep.not_mem (by decide)) cond.condition.text
  rw [parts, splitOn_of_absent fun inside => plain (inside.subset (List.mem_cons_self ..))]

theorem mem_dvars {item : Item} (listed : Listed item) {word : Text} :
    word ∈ item.dvars ↔ (∃ dep ∈ item.awdeps, weakWord item dep = some word) ∨
      (∃ cond : CondDep, cond.text ∈ item.ideps ∧ condWord cond = word) ∨ word ∈ item.asdeps := by
  have weak : word ∈ (item.awdeps.filterMap item.mark).map
      (fun dep => if dep.head? = some '+' then dep.drop 1 else dep) ↔
      ∃ dep ∈ item.awdeps, weakWord item dep = some word := by
    simp only [List.mem_map, List.mem_filterMap, weakWord, Option.map_eq_some_iff]
    constructor
    · rintro ⟨marked, ⟨dep, member, here⟩, same⟩
      exact ⟨dep, member, marked, here, same⟩
    · rintro ⟨dep, member, marked, here, same⟩
      exact ⟨marked, ⟨dep, member, here⟩, same⟩
  have conds : word ∈ item.ideps.map (replace ['@', '@'] ['@']) ↔
      ∃ cond : CondDep, cond.text ∈ item.ideps ∧ condWord cond = word := by
    rw [List.mem_map]
    constructor
    · rintro ⟨idep, member, same⟩
      obtain ⟨cond, rfl⟩ := listed.conds idep member
      exact ⟨cond, member, (replace_condText cond).symm.trans same⟩
    · rintro ⟨cond, member, same⟩
      exact ⟨_, member, (replace_condText cond).trans same⟩
  rw [Item.dvars, markedAwdeps_eq listed, List.mem_append, List.mem_append, weak, conds, or_assoc]

/-- The characters of the words of a line. -/
private theorem wordChar {item : Item} (listed : Listed item) {word : Text} (member : word ∈ item.dvars) :
    word ≠ [] ∧ ∀ c ∈ word, nameChar c = true ∨ c = '?' ∨ c = '|' ∨ c = '@' := by
  rcases (mem_dvars listed).mp member with ⟨dep, inside, here⟩ | ⟨cond, _, rfl⟩ | inside
  · obtain ⟨name, rfl, _⟩ := listed.weak dep inside
    rcases weakWord_eq here with rfl | rfl | rfl
    · exact ⟨name.nonempty, fun c member => .inl (name.named c member)⟩
    · refine ⟨by simp, fun c member => ?_⟩
      rcases List.mem_cons.mp member with rfl | member
      · exact .inr (.inl rfl)
      · exact .inl (name.named c member)
    · refine ⟨by simp, fun c member => ?_⟩
      rcases List.mem_cons.mp member with rfl | member
      · exact .inr (.inr (.inl rfl))
      · exact .inl (name.named c member)
  · refine ⟨by simp [condWord], fun c member => ?_⟩
    rcases List.mem_append.mp member with first | second
    · exact .inl (cond.dep.named c first)
    · rcases List.mem_cons.mp second with rfl | second
      · exact .inr (.inr (.inr rfl))
      · exact .inl (cond.condition.named c second)
  · obtain ⟨name, rfl⟩ := listed.strong word inside
    exact ⟨name.nonempty, fun c member => .inl (name.named c member)⟩

theorem dvars_plain {item : Item} (listed : Listed item) {word : Text} (member : word ∈ item.dvars)
    {c : Char} (special : nameChar c = false) (mark : c ≠ '?' ∧ c ≠ '|' ∧ c ≠ '@') : c ∉ word := by
  intro inside
  rcases (wordChar listed member).2 c inside with named | same | same | same
  · simp [special] at named
  · exact mark.1 same
  · exact mark.2.1 same
  · exact mark.2.2 same

/-- The words are read back from between the quotation marks. -/
theorem words_dvars {item : Item} (listed : Listed item) :
    words ([' '].intercalate item.dvars) = item.dvars := by
  refine words_intercalate (fun word member => (wordChar listed member).1) fun word member c inside => ?_
  rcases (wordChar listed member).2 c inside with named | rfl | rfl | rfl
  · by_contra here
    simp only [Bool.not_eq_false, blank, Bool.or_eq_true, decide_eq_true_eq] at here
    rcases here with (rfl | rfl) | rfl <;> exact absurd named (by decide)
  · rfl
  · rfl
  · rfl

theorem quote_dvars {item : Item} (listed : Listed item) : '"' ∉ [' '].intercalate item.dvars := by
  intro member
  rcases mem_intercalate member with outside | ⟨word, inside, here⟩
  · exact absurd outside (by decide)
  · exact dvars_plain listed inside (by decide) (by decide) here

theorem grepPrefix_of_isPrefix {pattern text : Text} (here : pattern <+: text) :
    grepPrefix pattern text = true := by
  induction pattern generalizing text with
  | nil => cases text <;> rfl
  | cons p pattern ih =>
    cases text with
    | nil => simp at here
    | cons c text =>
      obtain ⟨rfl, rest⟩ := List.cons_prefix_cons.mp here
      simp [grepPrefix, ih rest]

/-- The line with its parts: the name, the words and the path. -/
theorem targetLine_eq (item : Item) : item.targetLine =
    item.target ++ '=' :: '"' :: ([' '].intercalate item.dvars ++ '"' :: ' ' :: '#' :: ' ' :: item.path) :=
  rfl

theorem lineDeps_targetLine {item : Item} (listed : Listed item) :
    lineDeps item.target item.targetLine = some ([' '].intercalate item.dvars) := by
  have start : item.target ++ "=\"".toList <+: item.targetLine :=
    (List.prefix_append_right_inj _).mpr (List.prefix_append _ _)
  have plain : '"' ∉ ' ' :: '#' :: ' ' :: item.path := by simpa using listed.path
  have cut : item.targetLine.drop (item.target.length + 2) =
      [' '].intercalate item.dvars ++ '"' :: ' ' :: '#' :: ' ' :: item.path := by
    rw [targetLine_eq, ← List.drop_drop, List.drop_left]
    rfl
  rw [lineDeps, if_pos (grepPrefix_of_isPrefix start), cut, beforeLast_char plain]

/-- The resolved names are those of the words that the build chain wrote. -/
theorem getDependChecksumAuto_targetLine (confpath : List Text) {item : Item} (listed : Listed item) :
    getDependChecksumAuto confpath item.target item.targetLine =
      item.dvars.filterMap (resolveDep confpath) := by
  rw [getDependChecksumAuto, lineDeps_targetLine listed]
  exact congrArg _ (words_dvars listed)

/-- The symbol of a prebuilt package. -/
theorem translate_prebuild (dep : Text) :
    "PREBUILD_".toList ++ translate dep = translate (prebuildPart ++ dep) := by
  rw [Model.ProcessCache.translate, Model.ProcessCache.translate, List.map_append, prebuildPart]
  rfl

end CBuild.Soundness.TargetLine
