import CBuild.Text.Basic
import Mathlib.Data.List.Nodup

/-! # Package names and the symbols of `.config`

A package is enabled by the Kconfig symbol that its name is translated to. `escape_toupper` and
`escape_tolower` translate between the two; `.config` assigns values to symbols, and its readers
test for lines that begin with `<symbol>=y`.
-/

namespace CBuild.Model.GenBuildChain

open Text

def upper (text : Text) : Text := text.map Char.toUpper
def lower (text : Text) : Text := text.map Char.toLower

def escapeToupper (var : Text) : Text :=
  upper (replace ['-'] ['_'] (replace ['+'] "__plus__".toList (replace ['.'] "__dot__".toList var)))

def escapeTolower (var : Text) : Text :=
  replace "__plus__".toList ['+'] (replace "__dot__".toList ['.'] (replace ['_'] ['-'] (lower var)))

/-- `CONFIG_<escape_toupper(name)>`. -/
def configSymbol (name : Text) : Text := "CONFIG_".toList ++ escapeToupper name

/-- The dashes are decoded first, so no underscore is left for the two other escapes to match. -/
theorem escapeTolower_eq (var : Text) :
    escapeTolower var = (lower var).map fun c => if c = '_' then '-' else c := by
  have absent : ∀ old : Text, '_' ∈ old → ¬ old <:+: (lower var).map fun c => if c = '_' then '-' else c := by
    intro old member inside
    obtain ⟨c, _, same⟩ := List.mem_map.mp (inside.subset member)
    split at same
    · contradiction
    · next other => exact other same
  rw [escapeTolower, replace_char_char, replace_of_absent (absent _ (by decide)),
    replace_of_absent (absent _ (by decide))]

theorem escapeToupper_append (first second : Text) :
    escapeToupper (first ++ second) = escapeToupper first ++ escapeToupper second := by
  simp [escapeToupper, upper, replace_char]

theorem configSymbol_append (first second : Text) :
    configSymbol (first ++ second) = configSymbol first ++ escapeToupper second :=
  (congrArg _ (escapeToupper_append first second)).trans (List.append_assoc ..).symm

theorem toUpper_eq {c d : Char} (plain : d.isUpper = false) (same : c.toUpper = d) : c = d := by
  unfold Char.toUpper at same
  split at same
  · next lower =>
    subst same
    simp only [Char.isUpper, UInt32.le_iff_toNat_le] at plain lower
    simp [UInt32.toNat_add] at plain lower
    grind
  · exact same

private theorem mem_of_mem_replace {c d : Char} {new text : Text} (fresh : d ∉ new)
    (member : d ∈ replace [c] new text) : d ∈ text := by
  rw [replace_char] at member
  obtain ⟨e, inside, here⟩ := List.mem_flatMap.mp member
  split at here
  · exact absurd here fresh
  · exact List.mem_singleton.mp here ▸ inside

/-- The symbol of a name without `=` has none. -/
theorem configSymbol_plain {name : Text} (plain : '=' ∉ name) : '=' ∉ configSymbol name := by
  intro member
  rcases List.mem_append.mp member with outside | inside
  · exact absurd outside (by decide)
  · obtain ⟨c, here, same⟩ := List.mem_map.mp inside
    rw [toUpper_eq (by decide) same] at here
    exact plain (mem_of_mem_replace (by decide) (mem_of_mem_replace (by decide)
      (mem_of_mem_replace (by decide) here)))

/-- Without dots and plus signs only the dashes and the case of a name change. -/
theorem escapeToupper_plain {name : Text} (dot : '.' ∉ name) (plus : '+' ∉ name) :
    escapeToupper name = name.map fun c => if c = '-' then '_' else c.toUpper := by
  have undotted : replace ['.'] "__dot__".toList name = name :=
    replace_of_absent fun inside => dot (inside.subset (List.mem_cons_self ..))
  have unplussed : replace ['+'] "__plus__".toList name = name :=
    replace_of_absent fun inside => plus (inside.subset (List.mem_cons_self ..))
  rw [escapeToupper, undotted, unplussed, replace_char_char, upper, List.map_map]
  refine List.map_congr_left fun c _ => ?_
  by_cases dash : c = '-'
  · simp [dash]
  · simp [dash]

-- The parts of names that tell the packages of a pair apart, and that of native packages.

@[irreducible] def prebuildPart : Text := "prebuild-".toList
@[irreducible] def patchPart : Text := "-patch-".toList
@[irreducible] def unpatchPart : Text := "-unpatch-".toList
@[irreducible] def nativePart : Text := "-native".toList

def nameChar (c : Char) : Bool := c.isAlphanum || c = '_' || c = '-' || c = '.' || c = '+'

/-- A package name as dependency tokens spell it. -/
structure Name where
  text : Text
  nonempty : text ≠ []
  named : ∀ c ∈ text, nameChar c = true
deriving DecidableEq

namespace Name

theorem not_mem (name : Name) {c : Char} (special : nameChar c = false) : c ∉ name.text :=
  fun member => absurd (name.named c member) (by simp [special])

theorem head_ne (name : Name) {c : Char} (special : nameChar c = false) : name.text.head? ≠ some c :=
  fun first => name.not_mem special (List.mem_of_head? first)

end Name

/-- A condition: a symbol of Kconfig. -/
structure Symbol extends Name where
  word : ∀ c ∈ text, c.isAlphanum || c = '_'

structure CondDep where
  double : Bool
  dep : Name
  condition : Symbol

def CondDep.text (cond : CondDep) : Text :=
  cond.dep.text ++ ((if cond.double then ['@', '@'] else ['@']) ++ cond.condition.text)

/-- The assignments of a `.config`: a symbol contains no `=` and is assigned once, and a value
that begins with `y` is `y`. -/
structure Config where
  entries : List (Text × Text)
  once : (entries.map Prod.fst).Nodup
  symbols : ∀ entry ∈ entries, '=' ∉ entry.1
  values : ∀ entry ∈ entries, ['y'] <+: entry.2 → entry.2 = ['y']

namespace Config

def line (entry : Text × Text) : Text := entry.1 ++ '=' :: entry.2

def lines (config : Config) : List Text := config.entries.map line

/-- The symbol is assigned `y`. -/
def Enabled (config : Config) (symbol : Text) : Prop := (symbol, ['y']) ∈ config.entries

instance (config : Config) (symbol : Text) : Decidable (config.Enabled symbol) :=
  inferInstanceAs (Decidable (_ ∈ _))

/-- The package's own symbol is enabled. -/
def EnabledName (config : Config) (name : Text) : Prop := config.Enabled (configSymbol name)

instance (config : Config) (name : Text) : Decidable (config.EnabledName name) :=
  inferInstanceAs (Decidable (config.Enabled _))

/-- The `.config` that enables these names and nothing else. -/
def enabling (names : List Text) (once : (names.map configSymbol).Nodup)
    (symbols : ∀ name ∈ names, '=' ∉ configSymbol name) : Config where
  entries := names.map fun name => (configSymbol name, ['y'])
  once := by simpa [Function.comp_def] using once
  symbols entry member := by
    obtain ⟨name, inside, rfl⟩ := List.mem_map.mp member
    exact symbols name inside
  values entry member _ := by
    obtain ⟨name, inside, rfl⟩ := List.mem_map.mp member
    rfl

theorem enabled_enabling {names : List Text} {once : (names.map configSymbol).Nodup}
    {symbols : ∀ name ∈ names, '=' ∉ configSymbol name} {symbol : Text} :
    (enabling names once symbols).Enabled symbol ↔ ∃ name ∈ names, configSymbol name = symbol := by
  simp [Enabled, enabling]

private theorem key_isPrefix {key symbol value : Text} (keyPlain : '=' ∉ key) (plain : '=' ∉ symbol)
    (here : key ++ ['=', 'y'] <+: symbol ++ '=' :: value) : key = symbol ∧ ['y'] <+: value := by
  induction key generalizing symbol with
  | nil =>
    cases symbol with
    | nil => exact ⟨rfl, (List.prefix_cons_inj '=').mp here⟩
    | cons c symbol =>
      have same := (List.cons_prefix_cons.mp here).1
      exact absurd (same ▸ List.mem_cons_self ..) plain
  | cons c key ih =>
    cases symbol with
    | nil =>
      have same := (List.cons_prefix_cons.mp here).1
      exact absurd (same ▸ List.mem_cons_self ..) keyPlain
    | cons d symbol =>
      obtain ⟨rfl, rest⟩ := List.cons_prefix_cons.mp here
      obtain ⟨rfl, value⟩ := ih (fun h => keyPlain (List.mem_cons_of_mem _ h))
        (fun h => plain (List.mem_cons_of_mem _ h)) rest
      exact ⟨rfl, value⟩

/-- A line begins with `<symbol>=y` exactly when it assigns `y` to the symbol. -/
theorem prefix_line_iff (config : Config) {symbol : Text} (plain : '=' ∉ symbol)
    {entry : Text × Text} (member : entry ∈ config.entries) :
    symbol ++ ['=', 'y'] <+: line entry ↔ entry = (symbol, ['y']) := by
  constructor
  · intro here
    obtain ⟨rfl, value⟩ := key_isPrefix plain (config.symbols entry member) here
    exact Prod.ext rfl (config.values entry member value)
  · rintro rfl
    exact ⟨[], by simp [line]⟩

/-- Some line of the file begins with `<symbol>=y` exactly when the symbol is enabled. -/
theorem exists_prefix_iff (config : Config) {symbol : Text} (plain : '=' ∉ symbol) :
    (∃ text ∈ config.lines, symbol ++ ['=', 'y'] <+: text) ↔ config.Enabled symbol := by
  constructor
  · rintro ⟨text, member, here⟩
    obtain ⟨entry, inside, rfl⟩ := List.mem_map.mp member
    rw [(config.prefix_line_iff plain inside).mp here] at inside
    exact inside
  · intro enabled
    exact ⟨_, List.mem_map_of_mem enabled, (config.prefix_line_iff plain enabled).mpr rfl⟩

/-- A symbol is assigned once, so at most one line begins with `<symbol>=y`. -/
theorem countP_lines (config : Config) {symbol : Text} (plain : '=' ∉ symbol) {test : Text → Bool}
    (tests : ∀ text, test text = true ↔ symbol ++ ['=', 'y'] <+: text) :
    config.lines.countP test = if config.Enabled symbol then 1 else 0 := by
  have once : config.entries.Nodup := List.Nodup.of_map Prod.fst config.once
  have counted : config.lines.countP test = config.entries.count (symbol, ['y']) := by
    rw [lines, List.countP_map, List.count]
    refine List.countP_congr fun entry member => ?_
    simpa [Function.comp, tests] using config.prefix_line_iff plain member
  rw [counted, once.count]
  rfl

end Config

end CBuild.Model.GenBuildChain
