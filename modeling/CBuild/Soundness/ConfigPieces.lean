import CBuild.Model.Execld

/-! # What a piece of a configuration file sets

A file is read in pieces that fill the buffer or end with a line. A piece sets what is between its first and its last
quotation mark, when it looks like an assignment; the last value that is read for a key stays.
-/

namespace CBuild.Soundness.ConfigPieces

open CBuild.Model.Execld

def Blank (text : Text) : Prop := ∀ c ∈ text, c = ' ' ∨ c = '\t' ∨ c = '\r'

def Inline (text : Text) : Prop := '\n' ∉ text ∧ '\x00' ∉ text

/-- A piece of a line that looks like an assignment. -/
def Misleading (piece : Text) : Prop :=
  ∃ before after, piece = before ++ '=' :: after ∧ 2 ≤ after.count '"' ∧
    (trim before = "linker".toList ∨ trim before = "rpath".toList)

variable {text rest piece before after first last : Text} {cfg : Config}

theorem Blank.isBlank (blank : Blank text) : ∀ c ∈ text, isBlank c = true := fun c member => by
  rcases blank c member with rfl | rfl | rfl <;> rfl

theorem Blank.absent {c : Char} (blank : Blank text) (other : c ≠ ' ' ∧ c ≠ '\t' ∧ c ≠ '\r') : c ∉ text := fun member =>
  (blank c member).elim other.1 fun either => either.elim other.2.1 other.2.2

theorem Blank.inline (blank : Blank text) : Inline text := ⟨blank.absent (by decide), blank.absent (by decide)⟩

theorem Inline.append (inline : Inline first) (inline' : Inline last) : Inline (first ++ last) :=
  ⟨fun member => (List.mem_append.mp member).elim inline.1 inline'.1,
    fun member => (List.mem_append.mp member).elim inline.2 inline'.2⟩

theorem Inline.cons {c : Char} (other : c ≠ '\n' ∧ c ≠ '\x00') (inline : Inline text) : Inline (c :: text) :=
  ⟨fun member => (List.mem_cons.mp member).elim (fun same => other.1 same.symm) inline.1,
    fun member => (List.mem_cons.mp member).elim (fun same => other.2 same.symm) inline.2⟩

theorem dropWhile_first {c : Char} (absent : c ∉ first) (rest : Text) :
    (first ++ c :: rest).dropWhile (· ≠ c) = c :: rest := by
  have others : ∀ d ∈ first, decide (d ≠ c) = true := fun d member => decide_eq_true fun same => absent (same ▸ member)
  rw [List.dropWhile_append_of_pos others, List.dropWhile_cons_of_neg (by simp)]

theorem dropWhile_absent {c : Char} (absent : c ∉ text) : text.dropWhile (· ≠ c) = [] :=
  List.dropWhile_eq_nil_iff.mpr fun _ member => decide_eq_true fun same => absent (same ▸ member)

theorem takeWhile_first {c : Char} (absent : c ∉ first) (rest : Text) :
    (first ++ c :: rest).takeWhile (· ≠ c) = first := by
  have others : ∀ d ∈ first, decide (d ≠ c) = true := fun d member => decide_eq_true fun same => absent (same ▸ member)
  rw [List.takeWhile_append_of_pos others, List.takeWhile_cons_of_neg (by simp), List.append_nil]

theorem unquote_marked {middle : Text} (absent : '"' ∉ first) (absent' : '"' ∉ last) :
    unquote (first ++ '"' :: (middle ++ '"' :: last)) = some middle := by
  have reversed : (middle ++ '"' :: last).reverse = last.reverse ++ '"' :: middle.reverse := by simp
  unfold unquote
  rw [dropWhile_first absent, List.drop_one, List.tail_cons, if_pos (by simp), reversed,
    dropWhile_first (by rwa [List.mem_reverse])]
  simp

/-- There are fewer than two marks, or the text between the first and the last one is taken. -/
theorem unquote_cases (text : Text) : (text.count '"' < 2 ∧ unquote text = none) ∨
    ∃ first middle last, text = first ++ '"' :: (middle ++ '"' :: last) ∧ '"' ∉ first ∧ '"' ∉ last ∧
      unquote text = some middle := by
  by_cases marked : '"' ∈ text
  · obtain ⟨first, rest, rfl, absent⟩ := List.eq_append_cons_of_mem marked
    by_cases again : '"' ∈ rest
    · obtain ⟨last, middle, reversed, absent'⟩ := List.eq_append_cons_of_mem (List.mem_reverse.mpr again)
      have split : rest = middle.reverse ++ '"' :: last.reverse := by
        rw [← List.reverse_reverse rest, reversed]
        simp
      subst split
      have absent'' : '"' ∉ last.reverse := by rwa [List.mem_reverse]
      exact Or.inr ⟨first, middle.reverse, last.reverse, rfl, absent, absent'', unquote_marked absent absent''⟩
    · refine Or.inl ⟨?_, ?_⟩
      · rw [List.count_append, List.count_cons_self, List.count_eq_zero.mpr absent, List.count_eq_zero.mpr again]
        decide
      · unfold unquote
        rw [dropWhile_first absent]
        exact if_neg again
  · refine Or.inl ⟨by rw [List.count_eq_zero.mpr marked]; decide, ?_⟩
    unfold unquote
    rw [dropWhile_absent marked]
    rfl

/-- Text without marks at the ends does not matter. -/
theorem unquote_append (absent : '"' ∉ first) (absent' : '"' ∉ last) (text : Text) :
    unquote (first ++ text ++ last) = unquote text := by
  rcases unquote_cases text with ⟨few, none⟩ | ⟨before, middle, after, rfl, absent₁, absent₂, some⟩
  · rw [none]
    rcases unquote_cases (first ++ text ++ last) with ⟨-, none'⟩ | ⟨before, middle, after, same, -⟩
    · exact none'
    · have more : 2 ≤ (first ++ text ++ last).count '"' := by
        rw [same, List.count_append, List.count_cons_self, List.count_append, List.count_cons_self]
        omega
      rw [List.count_append, List.count_append, List.count_eq_zero.mpr absent, List.count_eq_zero.mpr absent'] at more
      omega
  · have same : first ++ (before ++ '"' :: (middle ++ '"' :: after)) ++ last =
        (first ++ before) ++ '"' :: (middle ++ '"' :: (after ++ last)) := by simp
    rw [same, some]
    refine unquote_marked ?_ ?_
    · exact fun member => (List.mem_append.mp member).elim absent absent₁
    · exact fun member => (List.mem_append.mp member).elim absent₂ absent'

theorem unquote_none (few : text.count '"' < 2) : unquote text = none := by
  rcases unquote_cases text with ⟨-, none⟩ | ⟨first, middle, last, rfl, -⟩
  · exact none
  · rw [List.count_append, List.count_cons_self, List.count_append, List.count_cons_self] at few
    omega

theorem unquote_isSome : (unquote text).isSome ↔ 2 ≤ text.count '"' := by
  rcases unquote_cases text with ⟨few, none⟩ | ⟨first, middle, last, rfl, -, -, some⟩
  · rw [none]
    exact ⟨nofun, fun more => absurd more (Nat.not_le.mpr few)⟩
  · rw [some, List.count_append, List.count_cons_self, List.count_append, List.count_cons_self]
    exact ⟨fun _ => by omega, fun _ => rfl⟩

/-- What is taken has no marks when there are two. -/
theorem unquote_count {value : Text} (taken : unquote text = some value) : text.count '"' = value.count '"' + 2 := by
  rcases unquote_cases text with ⟨-, none⟩ | ⟨first, middle, last, rfl, absent, absent', some⟩
  · rw [none] at taken
    cases taken
  · cases some.symm.trans taken
    rw [List.count_append, List.count_cons_self, List.count_append, List.count_cons_self, List.count_eq_zero.mpr absent,
      List.count_eq_zero.mpr absent']
    omega

theorem trim_spec (text : Text) : ∃ first last, text = first ++ trim text ++ last ∧
    (∀ c ∈ first, isBlank c = true) ∧ ∀ c ∈ last, isBlank c = true := by
  have left : text.takeWhile isBlank ++ text.dropWhile isBlank = text := List.takeWhile_append_dropWhile
  have right : (text.dropWhile isBlank).reverse.takeWhile isBlank ++ (text.dropWhile isBlank).reverse.dropWhile isBlank =
      (text.dropWhile isBlank).reverse := List.takeWhile_append_dropWhile
  refine ⟨text.takeWhile isBlank, ((text.dropWhile isBlank).reverse.takeWhile isBlank).reverse, ?_,
    fun c member => List.mem_takeWhile_imp member, fun c member => List.mem_takeWhile_imp (List.mem_reverse.mp member)⟩
  have right' := congrArg List.reverse right
  rw [List.reverse_append, List.reverse_reverse] at right'
  rw [List.append_assoc, trim, right', left]

theorem unquote_trim (text : Text) : unquote (trim text) = unquote text := by
  obtain ⟨first, last, split, blanks, blanks'⟩ := trim_spec text
  have absent : '"' ∉ first := fun member => absurd (blanks _ member) (by decide)
  have absent' : '"' ∉ last := fun member => absurd (blanks' _ member) (by decide)
  conv_rhs => rw [split]
  exact (unquote_append absent absent' _).symm

theorem dropWhile_all (blanks : ∀ c ∈ first, isBlank c = true) (text : Text) :
    (first ++ text).dropWhile isBlank = text.dropWhile isBlank := List.dropWhile_append_of_pos blanks

/-- Blanks at the ends do not matter. -/
theorem trim_append (blanks : ∀ c ∈ first, isBlank c = true) (blanks' : ∀ c ∈ last, isBlank c = true) (text : Text) :
    trim (first ++ text ++ last) = trim text := by
  unfold trim
  rw [List.append_assoc, dropWhile_all blanks]
  by_cases all : ∀ c ∈ text, isBlank c = true
  · have none : text.dropWhile isBlank = [] := List.dropWhile_eq_nil_iff.mpr all
    have none' : last.dropWhile isBlank = [] := List.dropWhile_eq_nil_iff.mpr blanks'
    rw [dropWhile_all all, none, none']
  · have kept : (text ++ last).dropWhile isBlank = text.dropWhile isBlank ++ last := by
      rw [List.dropWhile_append, if_neg]
      rw [List.isEmpty_iff, List.dropWhile_eq_nil_iff]
      exact all
    rw [kept, List.reverse_append, dropWhile_all]
    exact fun c member => blanks' c (List.mem_reverse.mp member)

theorem dropWhile_mark {c : Char} (mark : isBlank c = false) (first rest : Text) :
    (first ++ c :: rest).dropWhile isBlank = first.dropWhile isBlank ++ c :: rest := by
  rw [List.dropWhile_append]
  split
  · next all =>
    rw [List.isEmpty_iff.mp all, List.dropWhile_cons_of_neg (by simp [mark])]
    rfl
  · rfl

/-- A character that is no blank divides what is trimmed. -/
theorem trim_mark {c : Char} (mark : isBlank c = false) (first rest : Text) :
    trim (first ++ c :: rest) = first.dropWhile isBlank ++ c :: (rest.reverse.dropWhile isBlank).reverse := by
  have reversed : (first.dropWhile isBlank ++ c :: rest).reverse =
      rest.reverse ++ c :: (first.dropWhile isBlank).reverse := by simp
  unfold trim
  rw [dropWhile_mark mark, reversed, dropWhile_mark mark]
  simp

def reading (piece : Text) : Option (Text × Text) :=
  let line := trim (piece.takeWhile (· ≠ '\x00'))
  if line = [] ∨ line.head? = some '#' then none
  else if '=' ∈ line then
    (unquote (trim ((line.dropWhile (· ≠ '=')).drop 1))).map fun value => (trim (line.takeWhile (· ≠ '=')), value)
  else none

def set (cfg : Config) (setting : Text × Text) : Config :=
  if setting.1 = "linker".toList then { cfg with linker := some setting.2 }
  else if setting.1 = "rpath".toList then { cfg with rpathRaw := some setting.2 }
  else cfg

theorem parseLine_eq (cfg : Config) (piece : Text) : parseLine cfg piece = (reading piece).elim cfg (set cfg) := by
  unfold parseLine reading
  dsimp only
  split
  · rfl
  · split
    · split
      · next value taken => rw [taken]; rfl
      · next taken => rw [taken]; rfl
    · rfl

theorem takeWhile_inline (inline : '\x00' ∉ piece) : piece.takeWhile (· ≠ '\x00') = piece :=
  List.takeWhile_eq_self_iff.mpr fun _ member => decide_eq_true fun same => inline (same ▸ member)

theorem reading_none (inline : '\x00' ∉ piece) (absent : '=' ∉ piece) : reading piece = none := by
  have absent' : '=' ∉ trim piece := by
    obtain ⟨first, last, split, -⟩ := trim_spec piece
    intro member
    refine absent ?_
    rw [split]
    exact List.mem_append_left _ (List.mem_append_right _ member)
  unfold reading
  dsimp only
  rw [takeWhile_inline inline, if_neg absent', ite_self]

theorem reading_comment (inline : '\x00' ∉ rest) (blank : Blank before) : reading (before ++ '#' :: rest) = none := by
  have blanks : ∀ c ∈ before, isBlank c = true := fun c member => by
    rcases blank c member with rfl | rfl | rfl <;> rfl
  have inline' : '\x00' ∉ before ++ '#' :: rest := by
    intro member
    rcases List.mem_append.mp member with here | here
    · exact absurd (blanks _ here) (by decide)
    · exact inline ((List.mem_cons.mp here).resolve_left (by decide))
  have begins : (trim (before ++ '#' :: rest)).head? = some '#' := by
    rw [trim_mark rfl, List.dropWhile_eq_nil_iff.mpr blanks]
    rfl
  unfold reading
  dsimp only
  rw [takeWhile_inline inline', if_pos (Or.inr begins)]

/-- A piece is divided at its first `=`. -/
theorem reading_split (inline : '\x00' ∉ before ++ '=' :: after) (absent : '=' ∉ before) :
    reading (before ++ '=' :: after) = if (before.dropWhile isBlank).head? = some '#' then none
      else (unquote after).map fun value => (trim before, value) := by
  have trimmed := trim_mark (show isBlank '=' = false from rfl) before after
  have nonempty : trim (before ++ '=' :: after) ≠ [] := by rw [trimmed]; simp
  have begins : (trim (before ++ '=' :: after)).head? = some '#' ↔ (before.dropWhile isBlank).head? = some '#' := by
    rw [trimmed]
    cases before.dropWhile isBlank with
    | nil => simp
    | cons c rest => rfl
  have absent' : '=' ∉ before.dropWhile isBlank := fun member => absent ((List.dropWhile_sublist _).subset member)
  have key : trim (before.dropWhile isBlank) = trim before := by
    have split : before.takeWhile isBlank ++ before.dropWhile isBlank ++ [] = before := by
      rw [List.append_nil, List.takeWhile_append_dropWhile]
    conv_rhs => rw [← split]
    exact (trim_append (fun c member => List.mem_takeWhile_imp member) (List.forall_mem_nil _) _).symm
  have value : unquote (trim (after.reverse.dropWhile isBlank).reverse) = unquote after := by
    have split : [] ++ (after.reverse.dropWhile isBlank).reverse ++ (after.reverse.takeWhile isBlank).reverse = after := by
      rw [List.nil_append, ← List.reverse_append, List.takeWhile_append_dropWhile, List.reverse_reverse]
    rw [unquote_trim]
    conv_rhs => rw [← split]
    refine (unquote_append List.not_mem_nil (fun member => ?_) _).symm
    exact absurd (List.mem_takeWhile_imp (List.mem_reverse.mp member)) (by decide)
  unfold reading
  dsimp only
  rw [takeWhile_inline inline]
  by_cases comment : (before.dropWhile isBlank).head? = some '#'
  · rw [if_pos (Or.inr (begins.mpr comment)), if_pos comment]
  · rw [if_neg (not_or.mpr ⟨nonempty, mt begins.mp comment⟩), if_neg comment, trimmed,
      if_pos (List.mem_append_right _ (List.mem_cons_self ..)), dropWhile_first absent', takeWhile_first absent', key,
      List.drop_one, List.tail_cons, value]

theorem reading_newline (inline : '\x00' ∉ piece) : reading (piece ++ ['\n']) = reading piece := by
  have inline' : '\x00' ∉ piece ++ ['\n'] := fun member =>
    (List.mem_append.mp member).elim inline (by decide)
  have trimmed : trim (piece ++ ['\n']) = trim piece := @trim_append [] ['\n'] (List.forall_mem_nil _) (by decide) piece
  unfold reading
  rw [takeWhile_inline inline, takeWhile_inline inline', trimmed]

theorem fgetsFrom_append {room : ℕ} (plain : '\n' ∉ piece) (fits : piece.length < room) (line rest : Text) :
    fgetsFrom line room (piece ++ rest) = fgetsFrom (line ++ piece) (room - piece.length) rest := by
  induction piece generalizing line room with
  | nil => simp
  | cons c piece ih =>
    have goes : ¬ (c = '\n' ∨ room ≤ 1) := by
      rintro (same | full)
      · exact plain (same ▸ List.mem_cons_self ..)
      · rw [List.length_cons] at fits
        omega
    have fits' : piece.length < room - 1 := by
      rw [List.length_cons] at fits
      omega
    rw [List.cons_append, fgetsFrom, if_neg goes, ih (fun member => plain (List.mem_cons_of_mem _ member)) fits',
      List.append_assoc, List.singleton_append, List.length_cons, Nat.sub_sub, Nat.add_comm 1]

theorem fgets_short (plain : '\n' ∉ text) (fits : text.length < lineMax) :
    fgets text = if text = [] then [] else [text] := by
  have run := fgetsFrom_append plain fits [] []
  rw [List.append_nil] at run
  unfold fgets
  rw [run, fgetsFrom, List.nil_append]

theorem fgets_line (plain : '\n' ∉ text) (fits : text.length < lineMax) (rest : Text) :
    fgets (text ++ '\n' :: rest) = (text ++ ['\n']) :: fgets rest := by
  unfold fgets
  rw [fgetsFrom_append plain fits, fgetsFrom, if_pos (Or.inl rfl), List.nil_append]

/-- A piece that fills the buffer. -/
theorem fgets_full (plain : '\n' ∉ piece) (full : piece.length = lineMax) (rest : Text) :
    fgets (piece ++ rest) = piece :: fgets rest := by
  have nonempty : piece ≠ [] := fun empty => by rw [empty] at full; cases full
  obtain ⟨front, c, rfl⟩ := List.eq_nil_or_concat' piece |>.resolve_left nonempty
  have length : front.length = lineMax - 1 := by
    rw [List.length_append, List.length_singleton] at full
    omega
  have fits : front.length < lineMax := by
    rw [length]
    decide
  unfold fgets
  rw [List.append_assoc, List.singleton_append,
    fgetsFrom_append (fun member => plain (List.mem_append_left _ member)) fits, length, fgetsFrom,
    if_pos (Or.inr (by decide)), List.nil_append]

theorem mem_fgets (member : piece ∈ fgets text) {c : Char} (inside : c ∈ piece) : c ∈ text := by
  have each (line : Text) (room : ℕ) (member : piece ∈ fgetsFrom line room text) : c ∈ line ∨ c ∈ text := by
    clear * - member inside
    induction text generalizing line room with
    | nil =>
      rw [fgetsFrom] at member
      split at member
      · cases member
      · exact Or.inl (List.mem_singleton.mp member ▸ inside)
    | cons d rest ih =>
      rw [fgetsFrom] at member
      split at member
      · rcases List.mem_cons.mp member with rfl | later
        · exact (List.mem_append.mp inside).imp_right fun last => List.mem_cons.mpr (Or.inl (List.mem_singleton.mp last))
        · exact Or.inr (List.mem_cons_of_mem _ ((ih [] lineMax later).resolve_left List.not_mem_nil))
      · rcases ih _ _ member with here | later
        · exact (List.mem_append.mp here).imp_right fun last => List.mem_cons.mpr (Or.inl (List.mem_singleton.mp last))
        · exact Or.inr (List.mem_cons_of_mem _ later)
  exact (each [] lineMax member).resolve_left List.not_mem_nil

/-- What the pieces of a text set. -/
def readings (text : Text) : List (Text × Text) := (fgets text).filterMap reading

theorem reading_nil : reading [] = none := reading_none List.not_mem_nil List.not_mem_nil

theorem readings_short (plain : '\n' ∉ text) (fits : text.length < lineMax) : readings text = (reading text).toList := by
  unfold readings
  rw [fgets_short plain fits]
  split
  · next empty => rw [empty, reading_nil]; rfl
  · rw [List.filterMap_cons]
    cases reading text <;> rfl

theorem readings_full (plain : '\n' ∉ piece) (full : piece.length = lineMax) (rest : Text) :
    readings (piece ++ rest) = (reading piece).toList ++ readings rest := by
  unfold readings
  rw [fgets_full plain full, List.filterMap_cons]
  cases reading piece <;> rfl

/-- The first piece of a line, and the others. -/
theorem readings_take (plain : '\n' ∉ text) :
    readings text = (reading (text.take lineMax)).toList ++ readings (text.drop lineMax) := by
  by_cases fits : text.length < lineMax
  · rw [readings_short plain fits, List.take_of_length_le (Nat.le_of_lt fits), List.drop_of_length_le (Nat.le_of_lt fits)]
    exact (List.append_nil _).symm
  · conv_lhs => rw [← List.take_append_drop lineMax text]
    refine readings_full (fun member => plain (List.mem_of_mem_take member)) ?_ _
    rw [List.length_take]
    omega

/-- A line is read by itself. -/
theorem readings_line (inline : Inline text) (rest : Text) :
    readings (text ++ '\n' :: rest) = readings text ++ readings rest := by
  induction length : text.length using Nat.strong_induction_on generalizing text with
  | _ size ih =>
    by_cases fits : text.length < lineMax
    · rw [readings_short inline.1 fits, readings, fgets_line inline.1 fits, List.filterMap_cons, reading_newline inline.2]
      cases reading text <;> rfl
    · have plain : '\n' ∉ text.take lineMax := fun member => inline.1 (List.mem_of_mem_take member)
      have full : (text.take lineMax).length = lineMax := by
        rw [List.length_take]
        omega
      have fewer : (text.drop lineMax).length < size := by
        have positive : 0 < lineMax := by decide
        rw [List.length_drop]
        omega
      have later := ih _ fewer ⟨fun member => inline.1 (List.mem_of_mem_drop member),
        fun member => inline.2 (List.mem_of_mem_drop member)⟩ rfl
      conv_lhs => rw [← List.take_append_drop lineMax text, List.append_assoc]
      rw [readings_full plain full, later, readings_take inline.1, List.append_assoc]

def settings (readings : List (Text × Text)) (key : Text) : List Text :=
  readings.filterMap fun setting => if setting.1 = key then some setting.2 else none

theorem set_settings (cfg : Config) (setting : Text × Text) :
    (set cfg setting).linker = (settings [setting] "linker".toList).getLast?.or cfg.linker ∧
      (set cfg setting).rpathRaw = (settings [setting] "rpath".toList).getLast?.or cfg.rpathRaw := by
  obtain ⟨key, value⟩ := setting
  unfold set settings
  dsimp only [List.filterMap_cons, List.filterMap_nil]
  by_cases linker : key = "linker".toList
  · have other : key ≠ "rpath".toList := linker ▸ by decide
    rw [if_pos linker, if_pos linker, if_neg other]
    exact ⟨rfl, rfl⟩
  · rw [if_neg linker, if_neg linker]
    by_cases rpath : key = "rpath".toList
    · rw [if_pos rpath, if_pos rpath]
      exact ⟨rfl, rfl⟩
    · rw [if_neg rpath, if_neg rpath]
      exact ⟨rfl, rfl⟩

theorem settings_append (first last : List (Text × Text)) (key : Text) :
    settings (first ++ last) key = settings first key ++ settings last key := List.filterMap_append

/-- The last value that is read for a key stays. -/
theorem foldl_settings (pieces : List Text) (cfg : Config) :
    (pieces.foldl parseLine cfg).linker =
        (settings (pieces.filterMap reading) "linker".toList).getLast?.or cfg.linker ∧
      (pieces.foldl parseLine cfg).rpathRaw =
        (settings (pieces.filterMap reading) "rpath".toList).getLast?.or cfg.rpathRaw := by
  induction pieces generalizing cfg with
  | nil => exact ⟨rfl, rfl⟩
  | cons piece pieces ih =>
    rw [List.foldl_cons, parseLine_eq, (ih _).1, (ih _).2, List.filterMap_cons]
    cases reading piece with
    | none => exact ⟨rfl, rfl⟩
    | some setting =>
      have step := set_settings cfg setting
      have cons (key : Text) : settings (setting :: pieces.filterMap reading) key =
          settings [setting] key ++ settings (pieces.filterMap reading) key := settings_append [setting] _ key
      dsimp only [Option.elim_some]
      rw [step.1, step.2, cons, cons, List.getLast?_append, List.getLast?_append, Option.or_assoc, Option.or_assoc]
      exact ⟨rfl, rfl⟩

theorem misleading_iff (inline : '\x00' ∉ piece) : Misleading piece ↔
    ∃ value, reading piece = some ("linker".toList, value) ∨ reading piece = some ("rpath".toList, value) := by
  constructor
  · rintro ⟨before, after, rfl, marks, key⟩
    obtain ⟨value, taken⟩ := Option.isSome_iff_exists.mp (unquote_isSome.mpr marks)
    obtain ⟨first, last, split, blanks, blanks'⟩ := trim_spec before
    have absent : '=' ∉ before := by
      rw [split]
      intro member
      rcases List.mem_append.mp member with early | late
      · rcases List.mem_append.mp early with here | here
        · exact absurd (blanks _ here) (by decide)
        · rcases key with same | same <;> exact absurd (same ▸ here) (by decide)
      · exact absurd (blanks' _ late) (by decide)
    have begins : (before.dropWhile isBlank).head? ≠ some '#' := by
      rw [split, List.append_assoc, dropWhile_all blanks]
      rcases key with same | same <;> rw [same] <;> exact fun begins => absurd (Option.some_inj.mp begins) (by decide)
    refine ⟨value, ?_⟩
    rw [reading_split inline absent, if_neg begins, taken, Option.map_some]
    exact key.imp (fun same => by rw [same]) fun same => by rw [same]
  · rintro ⟨value, either⟩
    have found : ∃ key, reading piece = some (key, value) ∧ (key = "linker".toList ∨ key = "rpath".toList) :=
      either.elim (fun same => ⟨_, same, Or.inl rfl⟩) fun same => ⟨_, same, Or.inr rfl⟩
    obtain ⟨key, read, named⟩ := found
    by_cases equal : '=' ∈ piece
    · obtain ⟨before, after, rfl, absent⟩ := List.eq_append_cons_of_mem equal
      rw [reading_split inline absent] at read
      split at read
      · cases read
      · obtain ⟨_, taken, same⟩ := Option.map_eq_some_iff.mp read
        have same' : trim before = key := congrArg Prod.fst same
        exact ⟨before, after, rfl, unquote_isSome.mp (Option.isSome_iff_exists.mpr ⟨_, taken⟩), same' ▸ named⟩
    · rw [reading_none inline equal] at read
      cases read

/-- A piece sets nothing exactly when it does not look like an assignment. -/
theorem unchanged_iff (inline : '\x00' ∉ piece) : (∀ cfg, parseLine cfg piece = cfg) ↔ ¬ Misleading piece := by
  rw [misleading_iff inline]
  constructor
  · rintro unchanged ⟨value, read⟩
    have still := unchanged {}
    rw [parseLine_eq] at still
    rcases read with read | read
    · rw [read] at still
      cases congrArg Config.linker still
    · rw [read] at still
      cases congrArg Config.rpathRaw still
  · intro plain cfg
    rw [parseLine_eq]
    cases read : reading piece with
    | none => rfl
    | some setting =>
      obtain ⟨key, value⟩ := setting
      have linker : key ≠ "linker".toList := fun same => plain ⟨value, Or.inl (same ▸ read)⟩
      have rpath : key ≠ "rpath".toList := fun same => plain ⟨value, Or.inr (same ▸ read)⟩
      exact (if_neg linker).trans (if_neg rpath)

end CBuild.Soundness.ConfigPieces
