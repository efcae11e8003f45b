import CBuild.Data.List
import CBuild.Graph.Acyclic
import CBuild.Text.Basic

/-! # References in texts

A text may refer to names as `${name}`; some names have values, which may refer to others. The expansion of a text puts
the expansion of its value for each reference. A pass replaces the names one after the other, each at most once: it
gives the expansion when the values that are met refer only to names whose turn is still to come.
-/

namespace CBuild.Text

namespace References

/-- The characters of a name. -/
def nameChar (c : Char) : Bool := c.isAlphanum || c = '_' || c = '-' || c = '.' || c = '/'

def Named (name : Text) : Prop := ∀ c ∈ name, nameChar c = true

instance (name : Text) : Decidable (Named name) := inferInstanceAs (Decidable (∀ c ∈ name, nameChar c = true))

/-- What follows the dollar sign of a reference. -/
def braced (name : Text) : Text := '{' :: (name ++ ['}'])

def reference (name : Text) : Text := '$' :: braced name

/-- After a dollar sign, a part that begins no reference, whatever follows it. -/
structure Stray (part : Text) : Prop where
  plain : '$' ∉ part
  apart : ∀ name, Named name → ¬ braced name <+: part ∧ ¬ part <+: braced name

/-- Every dollar sign begins a reference or is followed by a part that begins none: what is put next to the text does
not make another reference with it. -/
inductive Clean : Text → Prop
  | nil : Clean []
  | char {c : Char} {text : Text} : c ≠ '$' → Clean text → Clean (c :: text)
  | stray {part text : Text} : Stray part → Clean text → Clean ('$' :: (part ++ text))
  | reference {name text : Text} : Named name → Clean text → Clean (reference name ++ text)

section

variable (value : Text → Option Text)

inductive Expansion : Text → Text → Prop
  | nil : Expansion [] []
  | char {c : Char} {text result : Text} : c ≠ '$' → Expansion text result → Expansion (c :: text) (c :: result)
  | dollar {text result : Text} : (∀ name, Named name → ¬ braced name <+: text) →
      Expansion text result → Expansion ('$' :: text) ('$' :: result)
  | kept {name text result : Text} : Named name → value name = none → Expansion text result →
      Expansion (reference name ++ text) (reference name ++ result)
  | assigned {name content text first second : Text} : Named name → value name = some content →
      Expansion content first → Expansion text second → Expansion (reference name ++ text) (first ++ second)

/-- A text refers to a name that has a value. -/
def Mentions (text name : Text) : Prop := reference name <:+: text ∧ (value name).isSome

/-- The same, directly or through values. -/
inductive Refers (text : Text) : Text → Prop
  | here {name : Text} : Mentions value text name → Refers text name
  | next {name content other : Text} : Refers text name → value name = some content → Mentions value content other →
      Refers text other

/-- The value of the first refers to the second. -/
def Edge (first second : Text) : Prop := ∃ content, value first = some content ∧ Mentions value content second

/-- The text and the values that are met are clean. -/
structure CleanFrom (text : Text) : Prop where
  clean : Clean text
  met : ∀ name content, Refers value text name → value name = some content → Clean content

/-- No value of a name in the text refers to a name that has a value. -/
def Flat (text : Text) : Prop :=
  ∀ name content, Mentions value text name → value name = some content → ∀ other, ¬ Mentions value content other

end

def pass (vars : List (Text × Text)) (text : Text) : Text :=
  vars.foldl (fun text var => replace (reference var.1) var.2 text) text

def valueOf (vars : List (Text × Text)) (name : Text) : Option Text := vars.lookup name

/-- Each value that is met refers only to names that come later. -/
def Ordered (vars : List (Text × Text)) (text : Text) : Prop :=
  ∀ before name content after, vars = before ++ (name, content) :: after → Refers (valueOf vars) text name →
    ∀ other, Mentions (valueOf vars) content other → other ∈ after.map Prod.fst

variable {value : Text → Option Text} {name other text rest content part result : Text}

theorem Named.dollar (named : Named name) : '$' ∉ name := fun member => absurd (named _ member) (by decide)

theorem dollar_braced (named : Named name) : '$' ∉ braced name := by
  rw [braced, List.mem_cons, List.mem_append, List.mem_singleton]
  rintro (brace | inside | close)
  · exact absurd brace (by decide)
  · exact named.dollar inside
  · exact absurd close (by decide)

theorem reference_append (name text : Text) : reference name ++ text = '$' :: (braced name ++ text) := rfl

/-- A name ends where its brace is closed. -/
theorem braced_begins (named : Named name) (named' : Named other) :
    braced name <+: braced other ++ rest ↔ name = other := by
  have cut {name : Text} (named : Named name) (rest : Text) : (name ++ '}' :: rest).takeWhile (· ≠ '}') = name := by
    rw [List.takeWhile_append_of_pos]
    · simp
    · intro c member
      have other : c ≠ '}' := fun close => absurd (named _ (close ▸ member)) (by decide)
      exact decide_eq_true other
  constructor
  · rintro ⟨more, same⟩
    simp only [braced, List.cons_append, List.append_assoc, List.nil_append, List.cons.injEq, true_and] at same
    exact (cut named more).symm.trans ((congrArg (List.takeWhile (· ≠ '}')) same).trans (cut named' rest))
  · rintro rfl
    exact List.prefix_append ..

theorem reference_begins (named : Named name) (named' : Named other) :
    reference name <+: reference other ++ rest ↔ name = other := by
  rw [reference_append, reference, List.cons_prefix_cons, braced_begins named named']
  exact and_iff_right rfl

theorem reference_injective (named : Named name) (named' : Named other)
    (same : reference name ++ text = reference other ++ rest) : name = other ∧ text = rest := by
  have equal : name = other := (reference_begins named named').mp ⟨text, same⟩
  subst equal
  exact ⟨rfl, List.append_cancel_left same⟩

/-- Behind a stray dollar sign no name is braced. -/
theorem Stray.not_braced (stray : Stray part) (named : Named name) : ¬ braced name <+: part ++ text := by
  intro begins
  rcases List.prefix_or_prefix_of_prefix begins (List.prefix_append part text) with inside | covers
  · exact (stray.apart _ named).1 inside
  · exact (stray.apart _ named).2 covers

theorem infix_char {c : Char} (other : c ≠ '$') : reference name <:+: c :: text ↔ reference name <:+: text := by
  rw [List.infix_cons_iff, or_iff_right]
  exact fun here => other (List.cons_prefix_cons.mp here).1.symm

/-- An occurrence begins with a dollar sign. -/
theorem infix_part (plain : '$' ∉ part) : reference name <:+: part ++ text ↔ reference name <:+: text := by
  induction part with
  | nil => rfl
  | cons c part ih =>
    have other : c ≠ '$' := fun same => plain (same ▸ List.mem_cons_self ..)
    rw [List.cons_append, infix_char other, ih fun member => plain (List.mem_cons_of_mem _ member)]

theorem infix_stray (named : Named name) (stray : Stray part) :
    reference name <:+: '$' :: (part ++ text) ↔ reference name <:+: text := by
  rw [List.infix_cons_iff, infix_part stray.plain, or_iff_right]
  exact fun here => stray.not_braced named (List.cons_prefix_cons.mp here).2

theorem infix_reference (named : Named name) (named' : Named other) :
    reference name <:+: reference other ++ text ↔ name = other ∨ reference name <:+: text := by
  rw [reference_append, List.infix_cons_iff, infix_part (dollar_braced named'), ← reference_append,
    reference_begins named named']

theorem infix_nil : ¬ reference name <:+: [] := fun inside => absurd (List.infix_nil.mp inside) (List.cons_ne_nil _ _)

theorem infix_append (named : Named name) (clean : Clean text) :
    reference name <:+: text ++ rest ↔ reference name <:+: text ∨ reference name <:+: rest := by
  induction clean with
  | nil => rw [List.nil_append, or_iff_right infix_nil]
  | char other _ ih => rw [List.cons_append, infix_char other, infix_char other, ih]
  | stray stray _ ih =>
    rw [List.cons_append, List.append_assoc, infix_stray named stray, infix_stray named stray, ih]
  | reference named' _ ih => rw [List.append_assoc, infix_reference named named', infix_reference named named', ih, or_assoc]

theorem replace_char_next {c : Char} (other : c ≠ '$') :
    replace (reference name) content (c :: text) = c :: replace (reference name) content text :=
  replace_next content fun here => other (List.cons_prefix_cons.mp here).1.symm

theorem replace_stray (named : Named name) (stray : Stray part) :
    replace (reference name) content ('$' :: (part ++ text)) =
      '$' :: (part ++ replace (reference name) content text) := by
  have elsewhere : ¬ reference name <+: '$' :: (part ++ text) := fun here =>
    stray.not_braced named (List.cons_prefix_cons.mp here).2
  rw [replace_next content elsewhere]
  exact congrArg _ (replace_part stray.plain text)

theorem replace_reference : replace (reference name) content (reference name ++ text) =
    content ++ replace (reference name) content text :=
  replace_front (List.cons_ne_nil _ _) content text

theorem replace_other (named : Named name) (named' : Named other) (different : name ≠ other) :
    replace (reference name) content (reference other ++ text) =
      reference other ++ replace (reference name) content text := by
  have elsewhere : ¬ reference name <+: '$' :: (braced other ++ text) := fun here =>
    different ((reference_begins named named').mp here)
  rw [reference_append, replace_next content elsewhere, reference_append]
  exact congrArg _ (replace_part (dollar_braced named') text)

theorem Clean.append (clean : Clean text) (clean' : Clean rest) : Clean (text ++ rest) := by
  induction clean with
  | nil => exact clean'
  | char other _ ih => exact .char other ih
  | stray stray _ ih =>
    rw [List.cons_append, List.append_assoc]
    exact .stray stray ih
  | reference named _ ih =>
    rw [List.append_assoc]
    exact .reference named ih

theorem Clean.replace (named : Named name) (clean : Clean text) (clean' : Clean content) :
    Clean (Text.replace (References.reference name) content text) := by
  induction clean with
  | nil => exact .nil
  | char other _ ih =>
    rw [replace_char_next other]
    exact .char other ih
  | stray stray _ ih =>
    rw [replace_stray named stray]
    exact .stray stray ih
  | @reference other text named' _ ih =>
    by_cases same : name = other
    · subst same
      rw [replace_reference]
      exact clean'.append ih
    · rw [replace_other named named' same]
      exact .reference named' ih

theorem Clean.part_append (plain : '$' ∉ part) (clean : Clean text) : Clean (part ++ text) := by
  induction part with
  | nil => exact clean
  | cons c part ih =>
    have other : c ≠ '$' := fun same => plain (same ▸ List.mem_cons_self ..)
    exact .char other (ih fun member => plain (List.mem_cons_of_mem _ member))

theorem expansion_nil : Expansion value [] result ↔ result = [] := by
  constructor
  · rintro ⟨⟩
    rfl
  · rintro rfl
    exact .nil

theorem expansion_char {c : Char} (other : c ≠ '$') :
    Expansion value (c :: text) result ↔ ∃ later, result = c :: later ∧ Expansion value text later := by
  constructor
  · intro expansion
    cases expansion with
    | char _ later => exact ⟨_, rfl, later⟩
    | dollar => exact absurd rfl other
    | kept => exact absurd rfl other
    | assigned => exact absurd rfl other
  · rintro ⟨later, rfl, expansion⟩
    exact .char other expansion

theorem expansion_part (plain : '$' ∉ part) :
    Expansion value (part ++ text) result ↔ ∃ later, result = part ++ later ∧ Expansion value text later := by
  induction part generalizing result with
  | nil => simp
  | cons c part ih =>
    have other : c ≠ '$' := fun same => plain (same ▸ List.mem_cons_self ..)
    rw [List.cons_append, expansion_char other]
    simp only [ih fun member => plain (List.mem_cons_of_mem _ member)]
    constructor
    · rintro ⟨_, rfl, later, rfl, expansion⟩
      exact ⟨later, rfl, expansion⟩
    · rintro ⟨later, rfl, expansion⟩
      exact ⟨_, rfl, later, rfl, expansion⟩

/-- A dollar sign that begins no reference stays. -/
theorem expansion_dollar (alone : ∀ name, Named name → ¬ braced name <+: text) :
    Expansion value ('$' :: text) result ↔ ∃ later, result = '$' :: later ∧ Expansion value text later := by
  constructor
  · intro expansion
    cases expansion with
    | char other => exact absurd rfl other
    | dollar _ later => exact ⟨_, rfl, later⟩
    | @kept name text _ named => exact absurd (List.prefix_append _ text) (alone name named)
    | @assigned name _ text _ _ named => exact absurd (List.prefix_append _ text) (alone name named)
  · rintro ⟨later, rfl, expansion⟩
    exact .dollar alone expansion

theorem expansion_stray (stray : Stray part) : Expansion value ('$' :: (part ++ text)) result ↔
    ∃ later, result = '$' :: (part ++ later) ∧ Expansion value text later := by
  rw [expansion_dollar fun name named => stray.not_braced named]
  simp only [expansion_part stray.plain]
  constructor
  · rintro ⟨_, rfl, later, rfl, expansion⟩
    exact ⟨later, rfl, expansion⟩
  · rintro ⟨later, rfl, expansion⟩
    exact ⟨_, rfl, later, rfl, expansion⟩

/-- What the expansion of a text that begins with a reference consists of. -/
theorem expansion_reference (named : Named name) : Expansion value (reference name ++ text) result ↔
    ∃ first later, result = first ++ later ∧ Expansion value text later ∧
      (value name = none ∧ first = reference name ∨
        ∃ content, value name = some content ∧ Expansion value content first) := by
  constructor
  · intro expansion
    generalize whole : reference name ++ text = source at expansion
    cases expansion with
    | nil => exact absurd whole (List.cons_ne_nil _ _)
    | char other => exact absurd (List.cons.inj whole).1.symm other
    | dollar alone => exact absurd ⟨text, (List.cons.inj whole).2⟩ (alone name named)
    | kept named' unset later =>
      obtain ⟨rfl, rfl⟩ := reference_injective named named' whole
      exact ⟨_, _, rfl, later, .inl ⟨unset, rfl⟩⟩
    | assigned named' set first later =>
      obtain ⟨rfl, rfl⟩ := reference_injective named named' whole
      exact ⟨_, _, rfl, later, .inr ⟨_, set, first⟩⟩
  · rintro ⟨first, later, rfl, expansion, ⟨unset, rfl⟩ | ⟨content, set, inner⟩⟩
    · exact .kept named unset expansion
    · exact .assigned named set inner expansion

/-- A text has one expansion. -/
theorem Expansion.unique {second : Text} (expansion : Expansion value text result)
    (expansion' : Expansion value text second) : result = second := by
  induction expansion generalizing second with
  | nil => exact (expansion_nil.mp expansion').symm
  | char other _ ih =>
    obtain ⟨later, rfl, after⟩ := (expansion_char other).mp expansion'
    rw [ih after]
  | dollar alone _ ih =>
    obtain ⟨later, rfl, after⟩ := (expansion_dollar alone).mp expansion'
    rw [ih after]
  | kept named unset _ ih =>
    obtain ⟨first, later, rfl, after, ⟨_, rfl⟩ | ⟨content, set, _⟩⟩ := (expansion_reference named).mp expansion'
    · rw [ih after]
    · exact absurd (unset.symm.trans set) (Option.some_ne_none content).symm
  | assigned named set _ _ inner ih =>
    obtain ⟨first, later, rfl, after, ⟨unset, _⟩ | ⟨content, set', inside⟩⟩ := (expansion_reference named).mp expansion'
    · exact absurd (unset.symm.trans set) (Option.some_ne_none _).symm
    · obtain rfl := Option.some.inj (set.symm.trans set')
      rw [inner inside, ih after]

theorem Clean.of_char {c : Char} (other : c ≠ '$') (clean : Clean (c :: text)) : Clean text := by
  cases clean with
  | char _ clean => exact clean
  | stray => exact absurd rfl other
  | reference => exact absurd rfl other

theorem Clean.of_part (plain : '$' ∉ part) (clean : Clean (part ++ text)) : Clean text := by
  induction part with
  | nil => exact clean
  | cons c part ih =>
    have other : c ≠ '$' := fun same => plain (same ▸ List.mem_cons_self ..)
    exact ih (fun member => plain (List.mem_cons_of_mem _ member)) (clean.of_char other)

theorem Clean.of_reference (named : Named name) (clean : Clean (References.reference name ++ text)) : Clean text := by
  generalize whole : References.reference name ++ text = source at clean
  cases clean with
  | nil => exact absurd whole (List.cons_ne_nil _ _)
  | char other => exact absurd (List.cons.inj whole).1.symm other
  | stray stray => exact absurd ⟨text, (List.cons.inj whole).2⟩ (stray.not_braced named)
  | reference named' clean =>
    obtain ⟨-, rfl⟩ := reference_injective named named' whole
    exact clean

/-- A dollar sign that begins no reference in a clean text is stray. -/
theorem Clean.of_dollar (clean : Clean ('$' :: text)) (alone : ∀ name, Named name → ¬ braced name <+: text) :
    ∃ part later, text = part ++ later ∧ Stray part ∧ Clean later := by
  cases clean with
  | char other => exact absurd rfl other
  | stray stray clean => exact ⟨_, _, rfl, stray, clean⟩
  | @reference name later named => exact absurd (List.prefix_append _ later) (alone name named)

theorem Refers.mono (more : ∀ name, Mentions value text name → Refers value rest name) (refers : Refers value text name) :
    Refers value rest name := by
  induction refers with
  | here mention => exact more _ mention
  | next _ set mention ih => exact .next ih set mention

/-- What is clean with its values, for a part of the text. -/
theorem CleanFrom.of_part (clean : CleanFrom value text) (here : Clean rest)
    (less : ∀ name, reference name <:+: rest → reference name <:+: text) : CleanFrom value rest where
  clean := here
  met name content refers :=
    clean.met name content (refers.mono fun other mention => .here ⟨less other mention.1, mention.2⟩)

theorem CleanFrom.of_content (clean : CleanFrom value text) (mention : Mentions value text name)
    (set : value name = some content) : CleanFrom value content where
  clean := clean.met name content (.here mention) set
  met other content' refers :=
    clean.met other content' (refers.mono fun _ mention' => .next (.here mention) set mention')

/-- Nothing is left to expand in an expansion. -/
theorem Expansion.settled (all : ∀ name content, value name = some content → Named name)
    (expansion : Expansion value text result) (clean : CleanFrom value text) :
    Clean result ∧ ∀ other, ¬ Mentions value result other := by
  have namedOf {name : Text} (set : (value name).isSome) : Named name := all name _ (Option.some_get set).symm
  induction expansion with
  | nil => exact ⟨.nil, fun _ mention => infix_nil mention.1⟩
  | char other _ ih =>
    obtain ⟨clean', done⟩ := ih (clean.of_part (clean.clean.of_char other) fun name => (infix_char other).mpr)
    exact ⟨.char other clean', fun name mention => done name ⟨(infix_char other).mp mention.1, mention.2⟩⟩
  | dollar alone after ih =>
    obtain ⟨part, later, rfl, stray, clean'⟩ := clean.clean.of_dollar alone
    obtain ⟨second, rfl, _⟩ := (expansion_part stray.plain).mp after
    obtain ⟨cleanSecond, done⟩ := ih (clean.of_part (clean'.part_append stray.plain) fun name inside =>
      inside.trans (List.suffix_cons '$' _).isInfix)
    refine ⟨.stray stray (cleanSecond.of_part stray.plain), fun name mention => done name ⟨?_, mention.2⟩⟩
    exact (infix_part stray.plain).mpr ((infix_stray (namedOf mention.2) stray).mp mention.1)
  | @kept name text result named unset after ih =>
    obtain ⟨clean', done⟩ := ih (clean.of_part (clean.clean.of_reference named) fun name inside =>
      inside.trans (List.suffix_append ..).isInfix)
    refine ⟨.reference named clean', fun other mention => ?_⟩
    rcases (infix_reference (namedOf mention.2) named).mp mention.1 with same | later
    · exact absurd mention.2 (by rw [same, unset]; exact Bool.false_ne_true)
    · exact done other ⟨later, mention.2⟩
  | @assigned name content text first second named set _ _ inner ih =>
    have mention : Mentions value (reference name ++ text) name :=
      ⟨(List.prefix_append ..).isInfix, by rw [set]; rfl⟩
    obtain ⟨cleanFirst, doneFirst⟩ := inner (clean.of_content mention set)
    obtain ⟨clean', done⟩ := ih (clean.of_part (clean.clean.of_reference named) fun name inside =>
      inside.trans (List.suffix_append ..).isInfix)
    refine ⟨cleanFirst.append clean', fun other mention => ?_⟩
    rcases (infix_append (namedOf mention.2) cleanFirst).mp mention.1 with here | later
    · exact doneFirst other ⟨here, mention.2⟩
    · exact done other ⟨later, mention.2⟩

section

variable {vars before after : List (Text × Text)} (all : ∀ name content, value name = some content → Named name)

include all

end

section

variable {vars : List (Text × Text)}

theorem valueOf_iff (distinct : (vars.map Prod.fst).Nodup) :
    valueOf vars name = some content ↔ (name, content) ∈ vars := by
  refine ⟨fun found => ?_, Data.lookup_of_nodup distinct⟩
  obtain ⟨before, after, rfl, _⟩ := List.lookup_eq_some_iff.mp found
  exact List.mem_append_right _ (List.mem_cons_self ..)

variable (distinct : (vars.map Prod.fst).Nodup) (all : ∀ var ∈ vars, Named var.1)

include distinct all

omit all

end

theorem exists_expansion_of_values (clean : Clean text)
    (each : ∀ name content, Mentions value text name → value name = some content → ∃ result, Expansion value content result) :
    ∃ result, Expansion value text result := by
  induction clean with
  | nil => exact ⟨[], .nil⟩
  | char other _ ih =>
    obtain ⟨result, expansion⟩ := ih fun name content mention =>
      each name content ⟨(infix_char other).mpr mention.1, mention.2⟩
    exact ⟨_, .char other expansion⟩
  | @stray part text stray _ ih =>
    obtain ⟨result, expansion⟩ := ih fun name content mention =>
      each name content ⟨mention.1.trans ((List.suffix_append part text).trans (List.suffix_cons '$' _)).isInfix, mention.2⟩
    exact ⟨_, (expansion_stray stray).mpr ⟨result, rfl, expansion⟩⟩
  | @reference name text named _ ih =>
    obtain ⟨result, expansion⟩ := ih fun other content mention =>
      each other content ⟨mention.1.trans (List.suffix_append (reference name) text).isInfix, mention.2⟩
    cases set : value name with
    | none => exact ⟨_, .kept named set expansion⟩
    | some content =>
      obtain ⟨first, inner⟩ := each name content ⟨(List.prefix_append ..).isInfix, by rw [set]; rfl⟩ set
      exact ⟨_, .assigned named set inner expansion⟩

/-- Without cyclic references every text has an expansion. -/
theorem exists_expansion {vars : List (Text × Text)} (distinct : (vars.map Prod.fst).Nodup)
    (acyclic : ∀ name, ¬ Relation.TransGen (Edge (valueOf vars)) name name) (clean : CleanFrom (valueOf vars) text) :
    ∃ result, Expansion (valueOf vars) text result := by
  have values : ∀ name ∈ vars.map Prod.fst, ∀ content, valueOf vars name = some content →
      CleanFrom (valueOf vars) content → ∃ result, Expansion (valueOf vars) content result := by
    refine Graph.acyclic_induction (fun name _ => acyclic name) fun name _ ih content set clean => ?_
    refine exists_expansion_of_values clean.clean fun other content' mention set' => ?_
    exact ih other (List.mem_map_of_mem ((valueOf_iff distinct).mp set')) ⟨content, set, mention⟩ content' set'
      (clean.of_content mention set')
  refine exists_expansion_of_values clean.clean fun name content mention set => ?_
  exact values name (List.mem_map_of_mem ((valueOf_iff distinct).mp set)) content set (clean.of_content mention set)

end References

end CBuild.Text
