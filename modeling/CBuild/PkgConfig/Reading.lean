import CBuild.Text.RelPath

/-! # The paths in a pkg-config file

A file is read word by word, after the variables `${name}` in it have been replaced by their values. The meaning of a
word is its text before the first slash, and the place that the path from there on leads to. Which characters end a
word is left open, as far as they are none of those in names and variables.
-/

namespace CBuild.PkgConfig

open Text

/-- The characters of words, with dots, dashes and slashes. Outside ASCII, the letters and digits are given. -/
def pathChar (letter : Char → Bool) (c : Char) : Bool :=
  c.isAlphanum || (127 < c.toNat && letter c) || c = '_' || c = '.' || c = '-' || c = '/'

theorem pathChar_ascii {letter : Char → Bool} {c : Char} (ascii : c.toNat ≤ 127) :
    pathChar letter c = pathChar (fun _ => false) c := by
  rw [pathChar, pathChar, decide_eq_false (Nat.not_lt.mpr ascii), Bool.false_and, Bool.false_and]

/-- The characters that end a word, and the letters and digits outside ASCII. -/
structure Ends where
  letter : Char → Bool
  ends : Char → Bool
  path : ∀ c, pathChar letter c = true → ends c = false
  marks : ∀ c ∈ "${}".toList, ends c = false

def nameChar (c : Char) : Bool := c.isAlphanum || c = '_' || c = '.'

/-- What has been read of a variable. -/
inductive Mode
  | text
  | dollar
  | name (read : Text)

/-- The characters that have been read of what may turn out to be no variable. -/
def Mode.pending : Mode → Text
  | .text => []
  | .dollar => ['$']
  | .name read => ['$', '{'] ++ read

/-- The next character is not part of a variable that has begun. -/
def Mode.leave (mode : Mode) (c : Char) : Text × Mode :=
  if c = '$' then (mode.pending, .dollar) else (mode.pending ++ [c], .text)

def Mode.step (values : Text → Text) : Mode → Char → Text × Mode
  | .text, c => Mode.text.leave c
  | .dollar, c => if c = '{' then ([], .name []) else Mode.dollar.leave c
  | .name read, c =>
    if c = '}' then (values read, .text)
    else if nameChar c then ([], .name (read ++ [c]))
    else (Mode.name read).leave c

/-- A text with the values of its variables. -/
def expandFrom (values : Text → Text) : Mode → Text → Text
  | mode, [] => mode.pending
  | mode, c :: text => (mode.step values c).1 ++ expandFrom values (mode.step values c).2 text

def expand (values : Text → Text) (text : Text) : Text := expandFrom values .text text

/-- What has been read of a word: the text before the first slash, and the path. -/
structure Word where
  head : Text
  path : Option (List Text × Text)

def Word.empty : Word := ⟨[], none⟩

def Word.read (word : Word) (c : Char) : Word :=
  match word.path with
  | none => if c = '/' then ⟨word.head, some ([], [])⟩ else ⟨word.head ++ [c], none⟩
  | some reached => ⟨word.head, some (readChar reached c)⟩

/-- The text before the path, and the names from the root to where it leads. -/
def Word.meaning (word : Word) : Text × Option (List Text) := (word.head, word.path.map arrive)

def meaningsFrom (e : Ends) : Word → Text → List (Text × Option (List Text))
  | word, [] => [word.meaning]
  | word, c :: text =>
    if e.ends c then word.meaning :: meaningsFrom e .empty text else meaningsFrom e (word.read c) text

def meanings (e : Ends) (text : Text) : List (Text × Option (List Text)) := meaningsFrom e .empty text

variable {values : Text → Text} {e : Ends} {word : Word} {mode : Mode} {text : Text}

theorem Ends.ascii (e : Ends) {c : Char} (ascii : c.toNat ≤ 127) (char : pathChar (fun _ => false) c = true) :
    e.ends c = false := e.path c ((pathChar_ascii ascii).trans char)

theorem Ends.name (e : Ends) {c : Char} (name : nameChar c = true) : e.ends c = false :=
  e.path c (by simp only [nameChar, pathChar, Bool.or_eq_true] at name ⊢; tauto)

theorem Mode.leave_pending (mode : Mode) (c : Char) :
    (mode.leave c).1 ++ (mode.leave c).2.pending = mode.pending ++ [c] := by
  unfold Mode.leave
  split
  · next dollar => rw [dollar]; rfl
  · simp [Mode.pending]

/-- A character ends a variable, or it is kept. -/
theorem Mode.step_cases (values : Text → Text) (mode : Mode) (c : Char) :
    (∃ read, mode = .name read ∧ c = '}') ∨
      (∀ values', mode.step values' c = mode.step values c) ∧
        (mode.step values c).1 ++ (mode.step values c).2.pending = mode.pending ++ [c] := by
  unfold Mode.step
  cases mode with
  | text => exact .inr ⟨fun _ => rfl, Mode.leave_pending .text c⟩
  | dollar =>
    refine .inr ⟨fun _ => rfl, ?_⟩
    by_cases brace : c = '{'
    · simp [brace, pending]
    · simpa [brace] using Mode.leave_pending .dollar c
  | name read =>
    by_cases close : c = '}'
    · exact .inl ⟨read, rfl, close⟩
    · refine .inr ⟨fun _ => by simp only [if_neg close], ?_⟩
      by_cases inside : nameChar c = true
      · simp [close, inside, pending]
      · simpa [close, inside] using Mode.leave_pending (.name read) c

theorem Mode.step_close (read : Text) : (Mode.name read).step values '}' = (values read, .text) := rfl

theorem expandFrom_text (plain : '$' ∉ text) (rest : Text) :
    expandFrom values .text (text ++ rest) = text ++ expandFrom values .text rest := by
  induction text with
  | nil => rfl
  | cons c text ih =>
    have here : c ≠ '$' := fun dollar => plain (dollar ▸ List.mem_cons_self ..)
    simp only [List.cons_append, expandFrom, Mode.step, Mode.leave, if_neg here, Mode.pending, List.nil_append,
      ih fun later => plain (List.mem_cons_of_mem _ later)]

/-- A path, which belongs to no variable. -/
theorem expandFrom_path (plain : '$' ∉ text) (rest : Text) : expandFrom values mode ('/' :: text ++ rest) =
    mode.pending ++ '/' :: text ++ expandFrom values .text rest := by
  have step : mode.step values '/' = (mode.pending ++ ['/'], .text) := by cases mode <;> rfl
  rw [List.cons_append, expandFrom, step, expandFrom_text plain]
  simp

/-- A variable, whatever comes before it. -/
theorem expandFrom_variable {name : Text} (named : ∀ c ∈ name, nameChar c = true) (rest : Text) :
    expandFrom values mode (['$', '{'] ++ name ++ '}' :: rest) =
      mode.pending ++ values name ++ expandFrom values .text rest := by
  have inside (read : Text) : expandFrom values (.name read) (name ++ '}' :: rest) =
      values (read ++ name) ++ expandFrom values .text rest := by
    induction name generalizing read with
    | nil => simp [expandFrom, Mode.step]
    | cons c name ih =>
      obtain ⟨here, later⟩ := List.forall_mem_cons.mp named
      have inside : c ≠ '}' := fun close => by rw [close] at here; exact absurd here (by decide)
      rw [List.cons_append, expandFrom]
      simp only [Mode.step, if_neg inside, if_pos here, List.nil_append, ih later]
      simp
  have begun : expandFrom values mode (['$', '{'] ++ name ++ '}' :: rest) =
      mode.pending ++ expandFrom values (.name []) (name ++ '}' :: rest) := by
    cases mode <;> simp [expandFrom, Mode.step, Mode.leave, Mode.pending, nameChar]
  rw [begun, inside, List.nil_append, List.append_assoc]

theorem meaningsFrom_append {text : Text} (inWord : ∀ c ∈ text, e.ends c = false) (rest : Text) :
    meaningsFrom e word (text ++ rest) = meaningsFrom e (text.foldl Word.read word) rest := by
  induction text generalizing word with
  | nil => rfl
  | cons c text ih =>
    obtain ⟨here, later⟩ := List.forall_mem_cons.mp inWord
    rw [List.cons_append, meaningsFrom, if_neg (by simp [here]), ih later]
    rfl

theorem meaningsFrom_ends {c : Char} (ends : e.ends c = true) (rest : Text) :
    meaningsFrom e word (c :: rest) = word.meaning :: meaningsFrom e .empty rest := if_pos ends

theorem Word.foldl_path {head : Text} {reached : List Text × Text} :
    text.foldl Word.read ⟨head, some reached⟩ = ⟨head, some (readPath reached text)⟩ := by
  induction text generalizing reached with
  | nil => rfl
  | cons c text ih => exact ih

/-- The first slash begins the path. -/
theorem Word.foldl_slash {head : Text} :
    ('/' :: text).foldl Word.read ⟨head, none⟩ = ⟨head, some (readPath ([], []) text)⟩ :=
  Word.foldl_path

/-- What has been read of the last word of a text. -/
def wordAfter (e : Ends) (word : Word) (text : Text) : Word :=
  text.foldl (fun word c => if e.ends c then .empty else word.read c) word

theorem wordAfter_inWord (inWord : ∀ c ∈ text, e.ends c = false) : wordAfter e word text = text.foldl Word.read word := by
  induction text generalizing word with
  | nil => rfl
  | cons c text ih =>
    obtain ⟨here, later⟩ := List.forall_mem_cons.mp inWord
    rw [wordAfter, List.foldl_cons, if_neg (by simp [here])]
    exact ih later

/-- Texts that go on alike have the same meanings exactly when what goes on has. -/
theorem meaningsFrom_append_iff {rest rest' : Text} :
    meaningsFrom e word (text ++ rest) = meaningsFrom e word (text ++ rest') ↔
      meaningsFrom e (wordAfter e word text) rest = meaningsFrom e (wordAfter e word text) rest' := by
  induction text generalizing word with
  | nil => exact Iff.rfl
  | cons c text ih =>
    rw [List.cons_append, List.cons_append, meaningsFrom, meaningsFrom, wordAfter, List.foldl_cons]
    split
    · rw [List.cons_inj_right]
      exact ih
    · exact ih

/-- The meaning of the word that is being read, where it ends. -/
theorem meaningsFrom_head {rest : Text} (inWord : ∀ c ∈ text, e.ends c = false)
    (ends : rest = [] ∨ ∃ c later, rest = c :: later ∧ e.ends c = true) :
    (meaningsFrom e word (text ++ rest)).head? = some (text.foldl Word.read word).meaning := by
  rw [meaningsFrom_append inWord]
  rcases ends with rfl | ⟨c, later, rfl, ends⟩
  · rfl
  · rw [meaningsFrom_ends ends]
    rfl

/-- What has been read of a variable is in a word. -/
theorem Mode.step_inWord {c : Char} (inWord : ∀ c ∈ mode.pending, e.ends c = false) (here : e.ends c = false) :
    ∀ d ∈ (mode.step values c).2.pending, e.ends d = false := by
  rcases Mode.step_cases values mode c with ⟨read, rfl, rfl⟩ | ⟨-, kept⟩
  · exact fun _ member => absurd member List.not_mem_nil
  · intro d member
    have inside : d ∈ mode.pending ++ [c] := by
      rw [← kept]
      exact List.mem_append_right _ member
    exact (List.mem_append.mp inside).elim (inWord d) fun last => List.mem_singleton.mp last ▸ here

/-- The end of a word ends a variable. -/
theorem Mode.step_ends {c : Char} (ends : e.ends c = true) : mode.step values c = (mode.pending ++ [c], .text) := by
  have dollar : c ≠ '$' := fun same => by simp [same, e.marks] at ends
  have brace : c ≠ '{' := fun same => by simp [same, e.marks] at ends
  have close : c ≠ '}' := fun same => by simp [same, e.marks] at ends
  have name : nameChar c = false := by
    by_contra name
    simp [e.name (by simpa using name)] at ends
  cases mode <;> simp [step, leave, dollar, brace, close, name]

theorem expandFrom_ends {c : Char} (ends : e.ends c = true) (rest : Text) :
    expandFrom values mode (text ++ c :: rest) = expandFrom values mode text ++ c :: expandFrom values .text rest := by
  induction text generalizing mode with
  | nil => simp [expandFrom, Mode.step_ends ends]
  | cons d text ih => rw [List.cons_append, expandFrom, expandFrom, ih, List.append_assoc]

/-- A text up to the end of a word is expanded by itself. -/
theorem expandFrom_word {rest : Text} (ends : rest = [] ∨ ∃ c later, rest = c :: later ∧ e.ends c = true) :
    ∃ expanded, expandFrom values mode (text ++ rest) = expandFrom values mode text ++ expanded ∧
      (expanded = [] ∨ ∃ c later, expanded = c :: later ∧ e.ends c = true) := by
  rcases ends with rfl | ⟨c, later, rfl, ends⟩
  · exact ⟨[], by simp, .inl rfl⟩
  · exact ⟨_, expandFrom_ends ends later, .inr ⟨c, _, rfl, ends⟩⟩

theorem expandFrom_chars {P : Char → Prop} (whole : ∀ name, ∀ c ∈ values name, P c)
    (pending : ∀ c ∈ mode.pending, P c) (chars : ∀ c ∈ text, P c) : ∀ c ∈ expandFrom values mode text, P c := by
  induction text generalizing mode with
  | nil => exact pending
  | cons c text ih =>
    obtain ⟨here, later⟩ := List.forall_mem_cons.mp chars
    rw [expandFrom, List.forall_mem_append]
    rcases Mode.step_cases values mode c with ⟨read, rfl, rfl⟩ | ⟨-, kept⟩
    · exact ⟨whole read, ih (fun _ member => absurd member List.not_mem_nil) later⟩
    · have both : ∀ d ∈ (mode.step values c).1 ++ (mode.step values c).2.pending, P d := by
        rw [kept]
        exact List.forall_mem_append.mpr ⟨pending, List.forall_mem_singleton.mpr here⟩
      exact ⟨(List.forall_mem_append.mp both).1, ih (List.forall_mem_append.mp both).2 later⟩

theorem Mode.step_suffix (c : Char) : (mode.step values c).2.pending ++ text <:+ mode.pending ++ c :: text := by
  rcases Mode.step_cases values mode c with ⟨read, rfl, rfl⟩ | ⟨-, kept⟩
  · exact (List.suffix_cons ..).trans (List.suffix_append ..)
  · rw [← @List.singleton_append _ c text, ← List.append_assoc, ← kept, List.append_assoc]
    exact List.suffix_append ..

/-- Other values of a variable that does not occur. -/
theorem expandFrom_congr {values' : Text → Text} {name : Text} (same : ∀ other, other ≠ name → values other = values' other)
    (absent : ¬ ['$', '{'] ++ name ++ ['}'] <:+: mode.pending ++ text) :
    expandFrom values mode text = expandFrom values' mode text := by
  induction text generalizing mode with
  | nil => rfl
  | cons c text ih =>
    rw [expandFrom, expandFrom]
    have later : ¬ ['$', '{'] ++ name ++ ['}'] <:+: (mode.step values c).2.pending ++ text :=
      fun inside => absent (inside.trans (Mode.step_suffix c).isInfix)
    rcases Mode.step_cases values mode c with ⟨read, rfl, rfl⟩ | ⟨alike, -⟩
    · have other : read ≠ name := by
        rintro rfl
        exact absent ⟨[], text, by simp [Mode.pending]⟩
      rw [Mode.step_close, Mode.step_close, same read other]
      exact congrArg _ (ih later)
    · rw [alike values', ih later]

/-- Values without dots make no two dots in a row. -/
theorem expandFrom_forward {before : Text} (letters : ∀ name, values name = ['a'])
    (forward : ¬ "..".toList <:+: before ++ (mode.pending ++ text)) :
    ¬ "..".toList <:+: before ++ expandFrom values mode text := by
  induction text generalizing mode before with
  | nil => simpa [expandFrom] using forward
  | cons c text ih =>
    rw [expandFrom, ← List.append_assoc]
    rcases Mode.step_cases values mode c with ⟨read, rfl, rfl⟩ | ⟨-, kept⟩
    · rw [Mode.step_close, letters]
      refine ih fun inside => forward ?_
      rw [Mode.pending, List.nil_append, List.append_assoc] at inside
      rcases (infix_append_cons_iff (by decide)).mp inside with first | rest
      · exact first.trans (List.prefix_append ..).isInfix
      · exact rest.trans (((List.suffix_cons ..).trans (List.suffix_append ..)).trans (List.suffix_append ..)).isInfix
    · refine ih fun inside => forward (inside.trans ?_)
      rw [← @List.singleton_append _ c text, ← @List.append_assoc _ mode.pending, ← kept]
      simp

/-- A variable that has begun shows in its value, or in what has been read of it. -/
theorem expandFrom_begun (letters : ∀ name, values name = ['a']) (begun : mode ≠ .text) :
    ∃ d rest, expandFrom values mode text = d :: rest ∧ (d = '$' ∨ d = 'a') := by
  have left {mode : Mode} (begun : mode ≠ .text) (c : Char) (text : Text) :
      ∃ d rest, (mode.leave c).1 ++ text = d :: rest ∧ (d = '$' ∨ d = 'a') := by
    cases mode with
    | text => exact absurd rfl begun
    | dollar => unfold Mode.leave; split <;> exact ⟨'$', _, rfl, .inl rfl⟩
    | name read => unfold Mode.leave; split <;> exact ⟨'$', _, rfl, .inl rfl⟩
  induction text generalizing mode with
  | nil =>
    cases mode with
    | text => exact absurd rfl begun
    | dollar => exact ⟨'$', [], rfl, .inl rfl⟩
    | name read => exact ⟨'$', _, rfl, .inl rfl⟩
  | cons c text ih =>
    rw [expandFrom]
    unfold Mode.step
    cases mode with
    | text => exact absurd rfl begun
    | dollar =>
      by_cases brace : c = '{'
      · simp only [if_pos brace, List.nil_append]
        exact ih nofun
      · simp only [if_neg brace]
        exact left begun c _
    | name read =>
      by_cases close : c = '}'
      · simp only [if_pos close, letters]
        exact ⟨'a', _, rfl, .inr rfl⟩
      · by_cases inside : nameChar c = true
        · simp only [if_neg close, if_pos inside, List.nil_append]
          exact ih nofun
        · simp only [if_neg close, if_neg inside]
          exact left begun c _

theorem expandFrom_head {c : Char} (letters : ∀ name, values name = ['a']) (other : pathChar e.letter c = false) :
    ∃ d rest, expandFrom values .text (c :: text) = d :: rest ∧ d ≠ '/' ∧ d ≠ '.' := by
  by_cases dollar : c = '$'
  · subst dollar
    obtain ⟨d, rest, same, letter⟩ := @expandFrom_begun _ _ text letters (nofun : Mode.dollar ≠ .text)
    exact ⟨d, rest, same, by rcases letter with rfl | rfl <;> decide, by rcases letter with rfl | rfl <;> decide⟩
  · refine ⟨c, expandFrom values .text text, by simp [expandFrom, Mode.step, Mode.leave, dollar, Mode.pending], ?_, ?_⟩
    · rintro rfl
      exact absurd ((pathChar_ascii (by decide)).symm.trans other) (by decide)
    · rintro rfl
      exact absurd ((pathChar_ascii (by decide)).symm.trans other) (by decide)

end CBuild.PkgConfig
