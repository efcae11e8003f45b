import CBuild.Model.ConvertRecipe
import CBuild.Soundness.DependsLine
import CBuild.Soundness.LineFolding
import CBuild.Soundness.WeakGrammar

/-! # The dependences of a converted recipe

The `mk.deps` file that `write_mkdeps` writes is read back: it has one statement, with the dependences of the recipe and
its features as tokens.
-/

namespace CBuild.Soundness.RecipeDeps

open CBuild.Text CBuild.Text.Folding CBuild.Model.GenBuildChain CBuild.Model.GenPackageInfos CBuild.Model.ConvertRecipe
  LineFolding

variable {line text first rest : Text} {c : Char} {info : PkgInfo} {r : Reader}

/-- A line that begins at once, and not as a statement does. -/
def Ordinary (line : Text) : Prop :=
  line = [] ∨ ∃ c rest, line = c :: rest ∧ blank c = false ∧ ¬ "#DEPS".toList <+: line

/-- The blanks at the end are taken away. -/
theorem strip_begins (shown : blank c = false) (rest : Text) : strip (c :: rest) <+: c :: rest := by
  change trimmed (skip (c :: rest)) <+: _
  rw [skip_other shown]
  have ends := List.dropWhile_suffix (l := (c :: rest).reverse) blank
  have turned := List.reverse_prefix.mpr ends
  rwa [List.reverse_reverse] at turned

theorem behind_none {word : String} (other : ¬ word.toList <+: text) : behind word text = none :=
  if_neg fun begins => other (List.isPrefixOf_iff_prefix.mp begins)

theorem matchDeps_none (other : ¬ "#DEPS".toList <+: text) : matchDeps text = none := by
  unfold matchDeps matchStatement
  rw [behind_none other]
  rfl

theorem Ordinary.none (ordinary : Ordinary line) : matchDeps (strip line) = none := by
  rcases ordinary with rfl | ⟨c, rest, rfl, shown, other⟩
  · exact matchDeps_none (by decide)
  · exact matchDeps_none fun begins => other (begins.trans (strip_begins shown rest))

def depsOf : Statement → Option (Text × Text × List Text × List Text)
  | .deps makestr target targets depends => some (makestr, target, targets, depends)
  | _ => none

/-- No `#DEPS` statement is open, and none has been read. -/
structure Quiet (read : Reader × List Statement) : Prop where
  closed : ∀ groups, read.1.matchType ≠ some (.deps groups)
  none : read.2.filterMap depsOf = []

/-- The lines that a file begins with: comments and empty lines. -/
def Comment (line : Text) : Prop :=
  line = [] ∨ ∃ rest, line = '#' :: rest ∧ ¬ "#DEPS".toList <+: line ∧ ¬ "#INCDEPS".toList <+: line

/-- A text that begins with a character of no statement. -/
def begins (front : Text) : Bool := front.head?.any fun c => !blank c && decide (c ≠ '#')

theorem blank_nil : Blank [] := fun _ member => absurd member List.not_mem_nil

/-- The characters of names that a recipe and a `mk.deps` file share. -/
def sharedChar (c : Char) : Bool := c.isAlphanum || c = '-' || c = '.'

/-- The words that are no names among the tokens of a statement. -/
def keywords : List Text :=
  ["kconfig", "nokconfig", "versioncfg", "featurecfg", "unselect", "selected"].map String.toList

structure Named (name : Text) : Prop where
  some : name ≠ []
  chars : ∀ c ∈ name, sharedChar c = true

/-- The names can be written to `mk.deps`; empty entries come from empty values. -/
structure Suited (info : PkgInfo) : Prop where
  package : Named info.package
  depends : ∀ dep ∈ info.depends, dep = [] ∨ Named dep ∧ dep ∉ keywords
  features : ∀ feature ∈ info.pkgconfig, (∀ c ∈ feature.name, nameChar c = true) ∧ ∀ pkg ∈ feature.pkgs, Named pkg

theorem shared_token (shared : sharedChar c = true) : depsToken c = true ∧ blank c = false ∧ c ≠ '\\' := by
  have word : depsToken c = true := by
    simp only [sharedChar, Bool.or_eq_true, decide_eq_true_eq] at shared
    rcases shared with (alpha | rfl) | rfl
    · simp [depsToken, wordChar, alpha]
    · decide
    · decide
  refine ⟨word, ?_, ?_⟩
  · by_contra isBlank
    have none := @not_blank c sharedChar (by decide) (by decide) (by decide) ((Bool.not_eq_false _).mp isBlank)
    rw [none] at shared
    cases shared
  · rintro rfl
    exact absurd shared (by decide)

theorem Named.words (named : Named text) : words text = [text] := by
  have whole := @words_intercalate [text] (fun part member => List.mem_singleton.mp member ▸ named.some)
    fun part member c inside => (shared_token (named.chars c (List.mem_singleton.mp member ▸ inside))).2.1
  rwa [List.intercalate_singleton] at whole

theorem makefile_chars : ∀ c ∈ "mk.deps".toList, makeChar c = true := by decide

theorem kinds_chars : ∀ c ∈ "native psysroot".toList, (blank c || wordChar c || oneOf "-.%:" c) = true := by decide

theorem package_chars (suited : Suited info) : ∀ c ∈ info.package, packageChar c = true := by
  intro c member
  have shared := suited.package.chars c member
  simp only [sharedChar, Bool.or_eq_true, decide_eq_true_eq] at shared
  rcases shared with (alpha | rfl) | rfl
  · simp [packageChar, wordChar, alpha]
  · decide
  · decide

theorem package_some (suited : Suited info) : info.package ≠ [] := suited.package.some

def headGap (i : Fin 6) : Text := if i.val = 3 then [' '] else []

theorem blank_headGap (i : Fin 6) : Blank (headGap i) := by
  unfold headGap
  split
  · decide
  · exact blank_nil

/-- The statement of the package. -/
def head (suited : Suited info) : Head "#DEPS" makeChar packageChar
    (fun c => blank c || wordChar c || oneOf "-.%:" c) where
  first := "mk.deps".toList
  target := info.package
  targets := "native psysroot".toList
  gap := headGap
  gaps := blank_headGap
  first_chars := makefile_chars
  target_chars := package_chars suited
  targets_chars := kinds_chars
  target_some := package_some suited

def written (info : PkgInfo) : List Text := "unselect".toList :: info.depends.filter (· ≠ []) ++ info.tokens

variable {reg : Registry} {item : Item}

theorem shared_absent (named : Named text) (other : sharedChar c = false) : c ∉ text := fun member => by
  rw [named.chars c member] at other
  cases other

/-- A token of a feature becomes a conditional dependence. -/
theorem setItemDep_token (suited : Suited info) {token : Text} (listed : token ∈ info.tokens) :
    setItemDep reg item token = some (reg, { item with ideps := item.ideps ++ [token] }) := by
  obtain ⟨feature, member, inside⟩ := List.mem_flatMap.mp listed
  obtain ⟨pkg, among, rfl⟩ := List.mem_map.mp inside
  have named := (suited.features feature member).2 pkg among
  obtain ⟨c, rest, rfl⟩ := List.exists_cons_of_ne_nil named.some
  have first (d : Char) (other : sharedChar d = false) : c ≠ d := fun same =>
    shared_absent named other (same ▸ List.mem_cons_self ..)
  have mark : '@' ∈ c :: (rest ++ "@@CONFIG_".toList ++ info.symbol feature) := by
    rw [← List.cons_append, ← List.cons_append]
    exact List.mem_append_left _ (List.mem_append_right _ (by decide))
  rw [List.cons_append, List.cons_append,
    WeakGrammar.setItemDep_special (first '*' (by decide)) ⟨'@', mark, by decide⟩,
      if_neg (first '!' (by decide)), if_pos mark]

theorem setItemDeps_tokens {tokens : List Text}
    (each : ∀ token ∈ tokens, ∀ item,
      setItemDep reg item token = some (reg, { item with ideps := item.ideps ++ [token] })) :
    setItemDeps reg item tokens = some (reg, { item with ideps := item.ideps ++ tokens }) := by
  induction tokens generalizing item with
  | nil => rw [List.append_nil]; rfl
  | cons token tokens ih =>
    obtain ⟨here, others⟩ := List.forall_mem_cons.mp each
    rw [setItemDeps, here]
    change setItemDeps reg { item with ideps := item.ideps ++ [token] } tokens = _
    rw [ih others, List.append_assoc, List.singleton_append]

end CBuild.Soundness.RecipeDeps
