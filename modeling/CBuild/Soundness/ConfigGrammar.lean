import CBuild.Soundness.ConfigPieces

/-! # The configuration files of `execld`

A file is read line by line, in pieces that fill the buffer. From the first piece of an assignment the parser takes
what is between the first and the last quotation mark, from the other pieces what looks like an assignment.
-/

namespace CBuild.Soundness.ConfigGrammar

open CBuild.Model.Execld ConfigPieces

structure Key where
  text : Text
  nonempty : text ≠ []
  plain : ∀ c ∈ text, c ∉ " \t\r\n\x00=#\"".toList

/-- A value with what follows it: blanks, or a comment after a quoted value. -/
inductive Value where
  | quoted (content rest : Text) (marks : '"' ∉ content) (inline : Inline content) (inline' : Inline rest)
      (ends : Blank (rest.takeWhile (· ≠ '#')))
  | bare (content rest : Text) (nonempty : content ≠ []) (marks : '"' ∉ content) (inline : Inline content)
      (edges : trim content = content) (ends : Blank rest)

def Value.text : Value → Text
  | quoted content rest .. => '"' :: (content ++ '"' :: rest)
  | bare content rest .. => content ++ rest

def Value.content : Value → Text
  | quoted content .. => content
  | bare content .. => content

structure Assignment where
  before : Text
  key : Key
  middle : Text
  after : Text
  value : Value
  blanks : Blank before ∧ Blank middle ∧ Blank after

def Assignment.text (a : Assignment) : Text := a.before ++ a.key.text ++ a.middle ++ '=' :: (a.after ++ a.value.text)

inductive Line where
  | blank (text : Text) (blank : Blank text)
  | comment (before text : Text) (blank : Blank before) (inline : Inline text)
  | assignment (a : Assignment)

def Line.text : Line → Text
  | blank text _ => text
  | comment before text .. => before ++ '#' :: text
  | assignment a => a.text

/-- A file of lines; the last one is empty when the file ends with a line end. -/
def content (lines : List Line) : Text := ['\n'].intercalate (lines.map Line.text)

def assignments (lines : List Line) (key : Text) : List Assignment := lines.filterMap fun
  | .assignment a => if a.key.text = key then some a else none
  | _ => none

/-- The value of the last assignment. -/
def lastValue (lines : List Line) (key : Text) : Option Text := ((assignments lines key).map (·.value.content)).getLast?

/-- Both settings have the value of the last assignment, and what is beyond the first piece of a line sets nothing. -/
structure Accepted (lines : List Line) : Prop where
  linker : (parseCfg (content lines) {}).linker = lastValue lines "linker".toList
  rpath : (parseCfg (content lines) {}).rpathRaw = lastValue lines "rpath".toList
  boundary : ∀ line ∈ lines, ∀ piece ∈ fgets (line.text.drop lineMax), ∀ cfg, parseLine cfg piece = cfg

/-- What the buffer holds of an assignment. -/
def Assignment.front (a : Assignment) : Text := a.text.take lineMax

/-- There is no assignment, or the last one with two quotation marks in the buffer has no other marks there and the
value of the last one. -/
def Readable (lines : List Line) (key : Text) : Prop :=
  assignments lines key = [] ∨
    ∃ a, ((assignments lines key).filter fun a => 2 ≤ a.front.count '"').getLast? = some a ∧
      a.front.count '"' = 2 ∧ lastValue lines key = some a.value.content

/-- Both settings are readable, and no other piece of a line looks like an assignment. -/
structure Suited (lines : List Line) : Prop where
  linker : Readable lines "linker".toList
  rpath : Readable lines "rpath".toList
  boundary : ∀ line ∈ lines, ∀ piece ∈ fgets (line.text.drop lineMax), ¬ Misleading piece

variable {text before : Text}

theorem Key.absent (key : Key) {c : Char} (special : c ∈ " \t\r\n\x00=#\"".toList) : c ∉ key.text := fun member =>
  key.plain c member special

theorem Value.inline (value : Value) : Inline value.text := by
  cases value with
  | quoted content rest marks inline inline' ends =>
    exact .cons (by decide) (inline.append (.cons (by decide) inline'))
  | bare content rest nonempty marks inline edges ends => exact inline.append ends.inline

/-- What comes before the `=` of an assignment. -/
def Assignment.start (a : Assignment) : Text := a.before ++ a.key.text ++ a.middle

theorem Assignment.start_absent (a : Assignment) {c : Char} (special : c ∈ " \t\r\n\x00=#\"".toList)
    (other : c ≠ ' ' ∧ c ≠ '\t' ∧ c ≠ '\r') : c ∉ a.start := by
  intro member
  rcases List.mem_append.mp member with early | late
  · exact (List.mem_append.mp early).elim (a.blanks.1.absent other) (a.key.absent special)
  · exact a.blanks.2.1.absent other late

theorem Assignment.inline (a : Assignment) : Inline a.text :=
  Inline.append ⟨a.start_absent (by decide) (by decide), a.start_absent (by decide) (by decide)⟩
    (.cons (by decide) (a.blanks.2.2.inline.append a.value.inline))

theorem Line.inline (line : Line) : Inline line.text := by
  cases line with
  | blank text blank => exact blank.inline
  | comment before text blank inline => exact blank.inline.append (.cons (by decide) inline)
  | assignment a => exact a.inline

/-- A file is read line by line. -/
theorem readings_content (lines : List Line) : readings (content lines) = lines.flatMap fun line => readings line.text := by
  unfold content
  induction lines with
  | nil => rfl
  | cons line lines ih =>
    cases lines with
    | nil => rw [List.map_singleton, List.intercalate_singleton, List.flatMap_singleton]
    | cons next lines =>
      rw [List.map_cons, List.map_cons, List.intercalate_cons_cons, ← List.map_cons, List.append_assoc,
        List.singleton_append, readings_line line.inline, ih]
      rfl

theorem trim_start (a : Assignment) : trim a.start = a.key.text := by
  have stays : trim a.key.text = a.key.text := by
    obtain ⟨first, last, split, blanks, blanks'⟩ := trim_spec a.key.text
    have none (part : Text) (inside : ∀ c ∈ part, c ∈ a.key.text) (blanks : ∀ c ∈ part, isBlank c = true) : part = [] := by
      refine List.eq_nil_iff_forall_not_mem.mpr fun c member => a.key.absent ?_ (inside c member)
      have blank := blanks c member
      unfold isBlank at blank
      simp only [Bool.or_eq_true, decide_eq_true_eq] at blank
      rcases blank with ((rfl | rfl) | rfl) | rfl <;> decide
    have first' : first = [] := none first (fun c member => by
      rw [split]
      exact List.mem_append_left _ (List.mem_append_left _ member)) blanks
    have last' : last = [] := none last (fun c member => by
      rw [split]
      exact List.mem_append_right _ member) blanks'
    rw [first', last', List.nil_append, List.append_nil] at split
    exact split.symm
  exact (trim_append a.blanks.1.isBlank a.blanks.2.1.isBlank _).trans stays

/-- The first piece of an assignment sets what is between its marks. -/
theorem reading_front (a : Assignment) : reading a.front = (unquote a.front).map fun value => (a.key.text, value) := by
  have equal : '=' ∉ a.start := a.start_absent (by decide) (by decide)
  have mark : '"' ∉ a.start := a.start_absent (by decide) (by decide)
  have inline : '\x00' ∉ a.front := fun member => a.inline.2 (List.mem_of_mem_take member)
  have split : a.front = a.start.take lineMax ++ (('=' :: (a.after ++ a.value.text)).take (lineMax - a.start.length)) :=
    List.take_append
  by_cases reached : lineMax - a.start.length = 0
  · rw [reached, List.take_zero, List.append_nil] at split
    have unmarked : '"' ∉ a.front := split ▸ fun member => mark (List.mem_of_mem_take member)
    rw [reading_none inline (split ▸ fun member => equal (List.mem_of_mem_take member)),
      unquote_none (by rw [List.count_eq_zero.mpr unmarked]; decide)]
    rfl
  · obtain ⟨room, more⟩ := Nat.exists_eq_succ_of_ne_zero reached
    rw [more, List.take_succ_cons, List.take_of_length_le (by omega)] at split
    have begins : (a.start.dropWhile isBlank).head? ≠ some '#' := fun first =>
      a.start_absent (by decide) (by decide) ((List.dropWhile_sublist _).subset (List.mem_of_head? first))
    have value : unquote (a.start ++ '=' :: (a.after ++ a.value.text).take room) =
        unquote ((a.after ++ a.value.text).take room) := by
      have absent : '"' ∉ a.start ++ ['='] := fun member =>
        (List.mem_append.mp member).elim mark (by decide)
      have same := unquote_append absent List.not_mem_nil ((a.after ++ a.value.text).take room)
      rwa [List.append_nil, List.append_assoc] at same
    rw [split] at inline ⊢
    rw [reading_split inline equal, if_neg begins, trim_start, value]

/-- The first piece of a comment sets nothing. -/
theorem reading_remark (blank : Blank before) (inline : Inline text) :
    reading ((before ++ '#' :: text).take lineMax) = none := by
  have split : (before ++ '#' :: text).take lineMax =
      before.take lineMax ++ ('#' :: text).take (lineMax - before.length) := List.take_append
  have blank' : Blank (before.take lineMax) := fun c member => blank c (List.mem_of_mem_take member)
  rw [split]
  cases lineMax - before.length with
  | zero =>
    rw [List.take_zero, List.append_nil]
    exact reading_none blank'.inline.2 (blank'.absent (by decide))
  | succ room =>
    rw [List.take_succ_cons]
    exact reading_comment (fun member => inline.2 (List.mem_of_mem_take member)) blank'

/-- Nothing is set by the pieces beyond the first one. -/
theorem settings_rest {key : Text} (named : key = "linker".toList ∨ key = "rpath".toList) (line : Line)
    (boundary : ∀ piece ∈ fgets (line.text.drop lineMax), ¬ Misleading piece) :
    settings (readings (line.text.drop lineMax)) key = [] := by
  refine List.eq_nil_iff_forall_not_mem.mpr fun value member => ?_
  obtain ⟨⟨other, value'⟩, read, kept⟩ := List.mem_filterMap.mp member
  obtain ⟨piece, inside, read⟩ := List.mem_filterMap.mp read
  dsimp only at kept
  split at kept
  · next same =>
    cases kept
    have inline : '\x00' ∉ piece := fun null => line.inline.2 (List.mem_of_mem_drop (mem_fgets inside null))
    refine boundary piece inside ((misleading_iff inline).mpr ⟨value, ?_⟩)
    exact named.imp (fun named => by rw [read, same, named]) fun named => by rw [read, same, named]
  · cases kept

theorem settings_front (line : Line) (key : Text) : settings (reading (line.text.take lineMax)).toList key =
    (assignments [line] key).filterMap fun a => unquote a.front := by
  cases line with
  | blank text blank =>
    have none : reading (text.take lineMax) = none :=
      reading_none (fun member => blank.inline.2 (List.mem_of_mem_take member))
        fun member => blank.absent (by decide) (List.mem_of_mem_take member)
    change settings (reading (text.take lineMax)).toList key = _
    rw [none]
    rfl
  | comment before text blank inline =>
    change settings (reading ((before ++ '#' :: text).take lineMax)).toList key = _
    rw [reading_remark blank inline]
    rfl
  | assignment a =>
    change settings (reading a.front).toList key = _
    rw [reading_front]
    unfold assignments settings
    rw [List.filterMap_cons]
    dsimp only
    by_cases same : a.key.text = key
    · rw [if_pos same]
      cases value : unquote a.front with
      | none => simp [value]
      | some text => simp [same, value]
    · rw [if_neg same]
      cases unquote a.front with
      | none => rfl
      | some value => simp [same]

/-- The values that are read for a key, when nothing else looks like an assignment. -/
theorem settings_content {key : Text} {lines : List Line} (named : key = "linker".toList ∨ key = "rpath".toList)
    (boundary : ∀ line ∈ lines, ∀ piece ∈ fgets (line.text.drop lineMax), ¬ Misleading piece) :
    settings (readings (content lines)) key = (assignments lines key).filterMap fun a => unquote a.front := by
  rw [readings_content]
  induction lines with
  | nil => rfl
  | cons line lines ih =>
    have rest := settings_rest named line (boundary line (List.mem_cons_self ..))
    have split : assignments (line :: lines) key = assignments [line] key ++ assignments lines key := by
      unfold assignments
      rw [← List.filterMap_append]
      rfl
    rw [List.flatMap_cons, settings_append, readings_take line.inline.1, settings_append, rest, List.append_nil,
      settings_front, ih fun other member => boundary other (List.mem_cons_of_mem _ member), split,
      List.filterMap_append]

theorem Value.content_marks (value : Value) : '"' ∉ value.content := by
  cases value with
  | quoted content rest marks => exact marks
  | bare content rest nonempty marks => exact marks

/-- Two marks in the buffer are those of the value. -/
theorem unquote_front (a : Assignment) (two : a.front.count '"' = 2) : unquote a.front = some a.value.content := by
  have mark : '"' ∉ a.start := a.start_absent (by decide) (by decide)
  have mark' : '"' ∉ a.start ++ '=' :: a.after := by
    intro member
    rcases List.mem_append.mp member with here | there
    · exact mark here
    · exact a.blanks.2.2.absent (by decide) ((List.mem_cons.mp there).resolve_left (by decide))
  have text : a.text = (a.start ++ '=' :: a.after) ++ a.value.text := by simp [Assignment.text, Assignment.start]
  have few (part : Text) (begins : a.front <+: part) (count : part.count '"' < 2) : False := by
    have most : a.front.count '"' ≤ part.count '"' := begins.sublist.count_le '"'
    omega
  cases value : a.value with
  | bare content rest nonempty marks inline edges ends =>
    refine (few a.text (List.take_prefix _ _) ?_).elim
    rw [text, value, List.count_append, List.count_eq_zero.mpr mark']
    change 0 + (content ++ rest).count '"' < 2
    rw [List.count_append, List.count_eq_zero.mpr marks, List.count_eq_zero.mpr (ends.absent (by decide))]
    decide
  | quoted content rest marks inline inline' ends =>
    have text' : a.text = ((a.start ++ '=' :: a.after) ++ '"' :: content) ++ '"' :: rest := by
      rw [text, value]
      simp [Value.text]
    have split : a.front = ((a.start ++ '=' :: a.after) ++ '"' :: content).take lineMax ++
        ('"' :: rest).take (lineMax - ((a.start ++ '=' :: a.after) ++ '"' :: content).length) := by
      rw [Assignment.front, text', List.take_append]
    have once : ((a.start ++ '=' :: a.after) ++ '"' :: content).count '"' = 1 := by
      rw [List.count_append, List.count_cons_self, List.count_eq_zero.mpr mark', List.count_eq_zero.mpr marks]
    by_cases reached : lineMax - ((a.start ++ '=' :: a.after) ++ '"' :: content).length = 0
    · rw [reached, List.take_zero, List.append_nil] at split
      exact (few _ (split ▸ List.take_prefix _ _) (once ▸ by decide)).elim
    · obtain ⟨room, more⟩ := Nat.exists_eq_succ_of_ne_zero reached
      rw [more, List.take_succ_cons, List.take_of_length_le (by omega)] at split
      rw [split, List.count_append, once, List.count_cons_self] at two
      have none : '"' ∉ rest.take room := List.count_eq_zero.mp (by omega)
      have marked : a.front = (a.start ++ '=' :: a.after) ++ '"' :: (content ++ '"' :: rest.take room) := by
        rw [split]
        simp
      rw [marked]
      exact unquote_marked mark' none

theorem getLast?_filterMap_eq {α β : Type} (f : α → Option β) (list : List α) :
    (list.filterMap f).getLast? = (list.filter fun a => (f a).isSome).getLast?.bind f := by
  induction list using List.reverseRecOn with
  | nil => rfl
  | append_singleton list a ih =>
    rw [List.filterMap_append, List.filter_append]
    cases value : f a with
    | none => simp [value, ih]
    | some b => simp [value]

/-- The last value that is read is the last one exactly when the key is readable. -/
theorem readable_iff (lines : List Line) (key : Text) :
    ((assignments lines key).filterMap fun a => unquote a.front).getLast? = lastValue lines key ↔
      Readable lines key := by
  have filters : ((assignments lines key).filter fun a => (unquote a.front).isSome) =
      (assignments lines key).filter fun a => 2 ≤ a.front.count '"' := by
    refine List.filter_congr fun a _ => ?_
    rw [← Bool.coe_iff_coe, unquote_isSome, decide_eq_true_iff]
  rw [getLast?_filterMap_eq, filters]
  unfold Readable
  constructor
  · intro same
    by_cases none : assignments lines key = []
    · exact Or.inl none
    · right
      have given : lastValue lines key ≠ Option.none := fun empty =>
        none (List.map_eq_nil_iff.mp (List.getLast?_eq_none_iff.mp empty))
      obtain ⟨value, last⟩ := Option.ne_none_iff_exists'.mp given
      rw [last] at same
      obtain ⟨a, found, taken⟩ := Option.bind_eq_some_iff.mp same
      obtain ⟨other, -, content⟩ := List.mem_map.mp (List.mem_of_getLast? last)
      have two : a.front.count '"' = 2 := by
        rw [unquote_count taken, ← content, List.count_eq_zero.mpr other.value.content_marks]
      refine ⟨a, found, two, ?_⟩
      rw [last, ← taken, unquote_front a two]
  · rintro (none | ⟨a, found, two, last⟩)
    · rw [lastValue, none]
      rfl
    · rw [found, last, Option.bind_some, unquote_front a two]

/-- A file of the grammar is accepted exactly when it is suited. -/
theorem accepted_iff (lines : List Line) : Accepted lines ↔ Suited lines := by
  have boundary : (∀ line ∈ lines, ∀ piece ∈ fgets (line.text.drop lineMax), ∀ cfg, parseLine cfg piece = cfg) ↔
      ∀ line ∈ lines, ∀ piece ∈ fgets (line.text.drop lineMax), ¬ Misleading piece :=
    forall₄_congr fun line _ piece member =>
      unchanged_iff fun null => line.inline.2 (List.mem_of_mem_drop (mem_fgets member null))
  have run := foldl_settings (fgets (content lines)) {}
  have read {key : Text} (named : key = "linker".toList ∨ key = "rpath".toList)
      (plain : ∀ line ∈ lines, ∀ piece ∈ fgets (line.text.drop lineMax), ¬ Misleading piece) :
      (settings ((fgets (content lines)).filterMap reading) key).getLast? = lastValue lines key ↔ Readable lines key := by
    have values := settings_content named plain
    unfold readings at values
    rw [values]
    exact readable_iff lines key
  constructor
  · rintro ⟨linker, rpath, rest⟩
    have plain := boundary.mp rest
    unfold parseCfg at linker rpath
    rw [run.1, Option.or_none] at linker
    rw [run.2, Option.or_none] at rpath
    exact ⟨(read (Or.inl rfl) plain).mp linker, (read (Or.inr rfl) plain).mp rpath, plain⟩
  · rintro ⟨linker, rpath, plain⟩
    refine ⟨?_, ?_, boundary.mpr plain⟩
    · unfold parseCfg
      rw [run.1, Option.or_none]
      exact (read (Or.inl rfl) plain).mpr linker
    · unfold parseCfg
      rw [run.2, Option.or_none]
      exact (read (Or.inr rfl) plain).mpr rpath

def bareLinker : Assignment where
  before := []
  key := ⟨"linker".toList, by decide, by decide⟩
  middle := []
  after := []
  value := .bare "ld.so".toList [] (by decide) (by decide) ⟨by decide, by decide⟩ (by decide) nofun
  blanks := ⟨nofun, nofun, nofun⟩

/-- The value is not taken. -/
theorem bareLinker_ignored : ¬ Accepted [.assignment bareLinker] := by
  intro accepted
  have linker := accepted.linker
  have none : (parseCfg (content [.assignment bareLinker]) {}).linker = none := by decide
  rw [none] at linker
  cases linker

end CBuild.Soundness.ConfigGrammar
