import Mathlib

/-! # Replacing, splitting and joining texts

A text is the list of its characters. `replace` and `splitOn` scan from the left and skip each
occurrence they find, as the string methods of scripting languages do; both recurse on the text
itself, with the number of characters still to skip. A pattern of one character turns them into
maps. Lines that contain no line break can be read back from the text they are written to.
-/

namespace CBuild

abbrev Text := List Char

-- What all or some characters of a text satisfy is decided on the text, not on every character there is.
attribute [instance (50)] Char.instDecidableForallOfDecidablePred_batteries
  Char.instDecidableExistsOfDecidablePred_batteries

instance instLawfulBEqText : LawfulBEq Text := inferInstance

namespace Text

private def replaceFrom (old new : Text) : ℕ → Text → Text
  | _, [] => []
  | 0, c :: rest =>
    if old.isPrefixOf (c :: rest) then new ++ replaceFrom old new (old.length - 1) rest
    else c :: replaceFrom old new 0 rest
  | skip + 1, _ :: rest => replaceFrom old new skip rest

/-- Every occurrence of a nonempty `old`, from the left, becomes `new`. -/
def replace (old new text : Text) : Text := replaceFrom old new 0 text

def replaceOnce (old new : Text) : Text → Text
  | [] => []
  | c :: rest =>
    if old.isPrefixOf (c :: rest) then new ++ (c :: rest).drop old.length
    else c :: replaceOnce old new rest

private def consFirst (c : Char) : List Text → List Text
  | [] => [[c]]
  | part :: parts => (c :: part) :: parts

private def splitFrom (sep : Text) : ℕ → Text → List Text
  | _, [] => [[]]
  | 0, c :: rest =>
    if sep.isPrefixOf (c :: rest) then [] :: splitFrom sep (sep.length - 1) rest
    else consFirst c (splitFrom sep 0 rest)
  | skip + 1, _ :: rest => splitFrom sep skip rest

/-- The parts of a text between the occurrences of a nonempty separator; never the empty list. -/
def splitOn (sep text : Text) : List Text := splitFrom sep 0 text

/-- Lines, each ended by a line break. -/
def unlines (lines : List Text) : Text := lines.flatMap (· ++ ['\n'])

/-- The characters between words. -/
def blank (c : Char) : Bool := c = ' ' || c = '\t' || c = '\n'

/-- The words between blanks; blanks at the ends make no word. -/
def words (text : Text) : List Text := (text.splitOnP blank).filter (· ≠ [])

theorem unlines_cons (line : Text) (lines : List Text) :
    unlines (line :: lines) = line ++ '\n' :: unlines lines := by
  simp [unlines]

theorem unlines_append (first second : List Text) :
    unlines (first ++ second) = unlines first ++ unlines second := by
  simp [unlines]

/-- The first line of a text ends at its first line break. -/
private theorem break_unique {first second rest rest' : Text} (left : '\n' ∉ first)
    (right : '\n' ∉ second) (same : first ++ '\n' :: rest = second ++ '\n' :: rest') :
    first = second ∧ rest = rest' := by
  induction first generalizing second with
  | nil =>
    cases second with
    | nil => exact ⟨rfl, (List.cons.inj same).2⟩
    | cons c second => exact absurd (List.cons.inj same).1 (by rintro rfl; exact right (List.mem_cons_self ..))
  | cons c first ih =>
    cases second with
    | nil => exact absurd (List.cons.inj same).1 (by rintro rfl; exact left (List.mem_cons_self ..))
    | cons d second =>
      obtain ⟨rfl, tails⟩ := List.cons.inj same
      obtain ⟨rfl, equal⟩ := ih (fun h => left (List.mem_cons_of_mem _ h))
        (fun h => right (List.mem_cons_of_mem _ h)) tails
      exact ⟨rfl, equal⟩

/-- Lines without line breaks are determined by the text they make. -/
theorem unlines_injective {first second : List Text} (left : ∀ line ∈ first, '\n' ∉ line)
    (right : ∀ line ∈ second, '\n' ∉ line) (same : unlines first = unlines second) :
    first = second := by
  induction first generalizing second with
  | nil =>
    cases second with
    | nil => rfl
    | cons line lines => simp [unlines] at same
  | cons line lines ih =>
    cases second with
    | nil => simp [unlines] at same
    | cons line' lines' =>
      rw [unlines_cons, unlines_cons] at same
      obtain ⟨rfl, rest⟩ := break_unique (left _ (List.mem_cons_self ..)) (right _ (List.mem_cons_self ..)) same
      rw [ih (fun other member => left other (List.mem_cons_of_mem _ member))
        (fun other member => right other (List.mem_cons_of_mem _ member)) rest]

private theorem replaceFrom_char (c : Char) (new text : Text) :
    replaceFrom [c] new 0 text = text.flatMap fun d => if d = c then new else [d] := by
  induction text with
  | nil => rfl
  | cons d rest ih =>
    rw [replaceFrom, List.flatMap_cons]
    by_cases same : d = c
    · simp [same, ih]
    · simp [same, ih, Ne.symm same]

/-- Replacing one character acts on each character by itself. -/
theorem replace_char (c : Char) (new text : Text) :
    replace [c] new text = text.flatMap fun d => if d = c then new else [d] :=
  replaceFrom_char c new text

/-- Replacing a character by a character is a map. -/
theorem replace_char_char (c d : Char) (text : Text) :
    replace [c] [d] text = text.map fun e => if e = c then d else e := by
  rw [replace_char, List.map_eq_flatMap]
  congr 1
  funext e
  split <;> rfl

private theorem replaceFrom_of_absent {old new text : Text} (absent : ¬ old <:+: text) :
    replaceFrom old new 0 text = text := by
  induction text with
  | nil => rfl
  | cons c rest ih =>
    rw [replaceFrom, if_neg, ih]
    · exact fun inside => absent (inside.trans (List.suffix_cons c rest).isInfix)
    · intro here
      exact absent (List.isPrefixOf_iff_prefix.mp here).isInfix

/-- A text without the pattern stays as it is. -/
theorem replace_of_absent {old new text : Text} (absent : ¬ old <:+: text) :
    replace old new text = text :=
  replaceFrom_of_absent absent

private theorem replaceFrom_skip (old new first rest : Text) :
    replaceFrom old new first.length (first ++ rest) = replaceFrom old new 0 rest := by
  induction first with
  | nil => rfl
  | cons c first ih => exact ih

/-- An occurrence at the front is replaced, and the rest of the text by itself. -/
theorem replace_front {old : Text} (nonempty : old ≠ []) (new rest : Text) :
    replace old new (old ++ rest) = new ++ replace old new rest := by
  cases old with
  | nil => contradiction
  | cons c old =>
    rw [replace, List.cons_append, replaceFrom, if_pos]
    · exact congrArg _ (replaceFrom_skip (c :: old) new old rest)
    · exact List.isPrefixOf_iff_prefix.mpr ⟨rest, rfl⟩

/-- Where no occurrence begins, a character stays as it is. -/
theorem replace_next {old : Text} {c : Char} {rest : Text} (new : Text) (other : ¬ old <+: c :: rest) :
    replace old new (c :: rest) = c :: replace old new rest :=
  if_neg fun here => other (List.isPrefixOf_iff_prefix.mp here)

/-- A part without the first character of the pattern stays as it is. -/
theorem replace_part {c : Char} {old new part : Text} (absent : c ∉ part) (rest : Text) :
    replace (c :: old) new (part ++ rest) = part ++ replace (c :: old) new rest := by
  induction part with
  | nil => rfl
  | cons d part ih =>
    have other : c ≠ d := fun same => absent (same ▸ List.mem_cons_self ..)
    have later := ih fun member => absent (List.mem_cons_of_mem _ member)
    unfold replace at later ⊢
    rw [List.cons_append, replaceFrom, if_neg, later]
    · rfl
    · exact fun here => other (List.cons_prefix_cons.mp (List.isPrefixOf_iff_prefix.mp here)).1

theorem replaceOnce_of_absent {old new text : Text} (absent : ¬ old <:+: text) :
    replaceOnce old new text = text := by
  induction text with
  | nil => rfl
  | cons c rest ih =>
    rw [replaceOnce, if_neg, ih]
    · exact fun inside => absent (inside.trans (List.suffix_cons c rest).isInfix)
    · intro here
      exact absent (List.isPrefixOf_iff_prefix.mp here).isInfix

/-- At the front of a text the pattern is the leftmost occurrence. -/
theorem replaceOnce_front {old new rest : Text} (nonempty : old ≠ []) :
    replaceOnce old new (old ++ rest) = new ++ rest := by
  cases old with
  | nil => contradiction
  | cons c old =>
    rw [List.cons_append, replaceOnce, if_pos]
    · simp
    · exact List.isPrefixOf_iff_prefix.mpr ⟨rest, rfl⟩

/-- A pattern does not occur in a text without its first character, nor in what follows it. -/
theorem not_infix_append {c : Char} {pattern part rest : Text} (plain : c ∉ part)
    (absent : ¬ c :: pattern <:+: rest) : ¬ c :: pattern <:+: part ++ rest := by
  induction part with
  | nil => exact absent
  | cons d part ih =>
    intro inside
    rcases List.infix_cons_iff.mp inside with start | later
    · have same : c = d := (List.cons_prefix_cons.mp start).1
      exact plain (same ▸ List.mem_cons_self ..)
    · exact ih (fun member => plain (List.mem_cons_of_mem _ member)) later

/-- A pattern occurs in two parts around a character that it does not contain when it occurs in one. -/
theorem infix_append_cons_iff {c : Char} {pattern first rest : Text} (absent : c ∉ pattern) :
    pattern <:+: first ++ c :: rest ↔ pattern <:+: first ∨ pattern <:+: rest := by
  constructor
  · rintro ⟨before, after, same⟩
    rw [List.append_assoc] at same
    rcases List.append_eq_append_iff.mp same with ⟨middle, rfl, tail⟩ | ⟨middle, rfl, tail⟩
    · -- the pattern starts in the first part, and ends there
      rcases List.append_eq_append_iff.mp tail with ⟨more, rfl, _⟩ | ⟨more, rfl, rest⟩
      · exact .inl ⟨before, more, by simp⟩
      · cases more with
        | nil => exact .inl ⟨before, [], by simp⟩
        | cons d more =>
          have here : c = d := (List.cons.inj rest).1
          exact absurd (by simp [here]) absent
    · cases middle with
      | nil =>
        cases pattern with
        | nil => exact .inr (List.nil_infix)
        | cons d pattern =>
          have here : c = d := (List.cons.inj tail).1
          exact absurd (by simp [here]) absent
      | cons d middle =>
        obtain ⟨_, rfl⟩ := List.cons.inj tail
        exact .inr ⟨middle, after, by simp⟩
  · rintro (inside | inside)
    · exact inside.trans (List.prefix_append ..).isInfix
    · exact inside.trans ((List.suffix_cons c rest).trans (List.suffix_append ..)).isInfix

private theorem splitFrom_of_absent {sep text : Text} (absent : ¬ sep <:+: text) :
    splitFrom sep 0 text = [text] := by
  induction text with
  | nil => rfl
  | cons c rest ih =>
    rw [splitFrom, if_neg, ih, consFirst]
    · exact fun inside => absent (inside.trans (List.suffix_cons c rest).isInfix)
    · intro here
      exact absent (List.isPrefixOf_iff_prefix.mp here).isInfix

/-- A text without the separator is its own only part. -/
theorem splitOn_of_absent {sep text : Text} (absent : ¬ sep <:+: text) :
    splitOn sep text = [text] :=
  splitFrom_of_absent absent

private theorem splitFrom_skip (sep first rest : Text) :
    splitFrom sep first.length (first ++ rest) = splitFrom sep 0 rest := by
  induction first with
  | nil => rfl
  | cons c first ih => exact ih

/-- The separator itself ends a first, empty part. -/
theorem splitOn_sep {sep : Text} (nonempty : sep ≠ []) (rest : Text) :
    splitOn sep (sep ++ rest) = [] :: splitOn sep rest := by
  cases sep with
  | nil => contradiction
  | cons c sep =>
    rw [splitOn, List.cons_append, splitFrom, if_pos]
    · exact congrArg _ (splitFrom_skip (c :: sep) sep rest)
    · exact List.isPrefixOf_iff_prefix.mpr ⟨rest, rfl⟩

/-- A part in which no separator starts is followed by the parts of what remains. -/
theorem splitOn_append {sep part rest : Text} (nonempty : sep ≠ [])
    (absent : ∀ tail, tail <:+ part → tail ≠ [] → ¬ sep <+: tail ++ sep ++ rest) :
    splitOn sep (part ++ (sep ++ rest)) = part :: splitOn sep rest := by
  induction part with
  | nil => exact splitOn_sep nonempty rest
  | cons c part ih =>
    have later := ih fun tail suffix => absent tail (suffix.trans (List.suffix_cons c part))
    unfold splitOn at later ⊢
    rw [List.cons_append, splitFrom, if_neg, later, consFirst]
    intro here
    have starts := List.isPrefixOf_iff_prefix.mp here
    exact absent (c :: part) (List.suffix_refl _) (by simp) (by simpa using starts)

/-- A part without the first character of the separator ends at the separator. -/
theorem splitOn_part {c : Char} {sep part : Text} (absent : c ∉ part) (rest : Text) :
    splitOn (c :: sep) (part ++ (c :: sep ++ rest)) = part :: splitOn (c :: sep) rest := by
  refine splitOn_append (by simp) fun tail suffix nonempty start => ?_
  obtain ⟨d, tail, rfl⟩ := List.exists_cons_of_ne_nil nonempty
  have same : c = d := (List.cons_prefix_cons.mp start).1
  exact absent (suffix.subset (same ▸ List.mem_cons_self ..))

/-- Parts without the first character of the separator are read back from the text they make. -/
theorem splitOn_intercalate {c : Char} {sep : Text} {parts : List Text} (nonempty : parts ≠ [])
    (absent : ∀ part ∈ parts, c ∉ part) :
    splitOn (c :: sep) ((c :: sep).intercalate parts) = parts := by
  induction parts with
  | nil => contradiction
  | cons part parts ih =>
    have here := absent part (List.mem_cons_self ..)
    cases parts with
    | nil =>
      rw [List.intercalate_singleton, splitOn_of_absent]
      exact fun inside => here (inside.subset (List.mem_cons_self ..))
    | cons next parts =>
      have later := ih (by simp) fun other member => absent other (List.mem_cons_of_mem _ member)
      rw [List.intercalate_cons_cons, List.append_assoc, splitOn_part here, later]

theorem splitOn_ne_nil (sep text : Text) : splitOn sep text ≠ [] := by
  have each (skip : ℕ) : splitFrom sep skip text ≠ [] := by
    induction text generalizing skip with
    | nil =>
      cases skip <;> exact nofun
    | cons c text ih =>
      cases skip with
      | zero =>
        rw [splitFrom]
        split
        · exact nofun
        · cases splitFrom sep 0 text <;> exact nofun
      | succ skip =>
        rw [splitFrom]
        exact ih skip
  exact each 0

/-- Where a text has a first part and others, it is that part, a separator and a text of the others; and no
separator starts before. -/
theorem splitOn_cons_cons {sep text first second : Text} {parts : List Text} (nonempty : sep ≠ [])
    (split : splitOn sep text = first :: second :: parts) :
    ∃ rest, text = first ++ (sep ++ rest) ∧ splitOn sep rest = second :: parts ∧
      ∀ tail, tail <:+ first → tail ≠ [] → ¬ sep <+: tail ++ sep ++ rest := by
  induction text generalizing first with
  | nil => cases split
  | cons c text ih =>
    by_cases here : sep <+: c :: text
    · obtain ⟨rest, same⟩ := here
      rw [← same, splitOn_sep nonempty] at split
      obtain ⟨rfl, others⟩ := List.cons.inj split
      exact ⟨rest, same.symm, others, fun tail suffix given => absurd (List.suffix_nil.mp suffix) given⟩
    · have later : splitOn sep (c :: text) = consFirst c (splitOn sep text) := by
        rw [splitOn, splitFrom, if_neg (fun starts => here (List.isPrefixOf_iff_prefix.mp starts)), splitOn]
      rw [later] at split
      cases parts' : splitOn sep text with
      | nil => rw [parts'] at split; cases split
      | cons part others =>
        rw [parts'] at split
        obtain ⟨rfl, rfl⟩ := List.cons.inj split
        obtain ⟨rest, same, split', absent⟩ := ih parts'
        refine ⟨rest, congrArg (c :: ·) same, split', fun tail suffix given => ?_⟩
        obtain whole | inner := List.suffix_cons_iff.mp suffix
        · rw [whole]
          intro starts
          rw [same] at here
          exact here (by simpa using starts)
        · exact absent tail inner given

theorem mem_intercalate {c : Char} {sep : Text} {parts : List Text} (member : c ∈ sep.intercalate parts) :
    c ∈ sep ∨ ∃ part ∈ parts, c ∈ part := by
  induction parts with
  | nil => contradiction
  | cons part parts ih =>
    cases parts with
    | nil => exact .inr ⟨part, List.mem_cons_self .., by simpa using member⟩
    | cons next parts =>
      rw [List.intercalate_cons_cons, List.append_assoc, List.mem_append, List.mem_append] at member
      rcases member with here | inside | later
      · exact .inr ⟨part, List.mem_cons_self .., here⟩
      · exact .inl inside
      · exact (ih later).imp_right fun ⟨other, inside, here⟩ => ⟨other, List.mem_cons_of_mem _ inside, here⟩

/-- Words joined by single blanks are read back. -/
theorem words_intercalate {parts : List Text} (nonempty : ∀ part ∈ parts, part ≠ [])
    (plain : ∀ part ∈ parts, ∀ c ∈ part, blank c = false) : words ([' '].intercalate parts) = parts := by
  induction parts with
  | nil => rfl
  | cons part parts ih =>
    have here : ∀ c ∈ part, blank c = false := plain part (List.mem_cons_self ..)
    have some := nonempty part (List.mem_cons_self ..)
    have later := ih (fun other member => nonempty other (List.mem_cons_of_mem _ member))
      fun other member => plain other (List.mem_cons_of_mem _ member)
    cases parts with
    | nil =>
      rw [List.intercalate_singleton, words, List.splitOnP_eq_singleton here]
      simp [some]
    | cons next parts =>
      have first := List.splitOnP_append_cons_of_forall_mem here ' ' (by decide)
        ([' '].intercalate (next :: parts))
      rw [List.intercalate_cons_cons, List.append_assoc, List.singleton_append, words, first,
        List.filter_cons_of_pos (by simpa using some)]
      exact congrArg _ later

end Text

end CBuild
