import CBuild.Data.List
import CBuild.Model.ReplacePkgconfig

/-! # Relocated pkg-config files

`replace_pkgconfig` keeps the paths of a pkg-config file where each match is a whole path that starts at the directory,
or keeps its last name, and where the directory does not occur in what is written.
-/

namespace CBuild.Soundness.PkgconfigPaths

open CBuild.Data CBuild.Text CBuild.PkgConfig CBuild.Model.ProcessSysroot

/-- What has been read of the last word. -/
def wordBefore (e : Ends) (left : Text) : Text := (left.reverse.takeWhile fun c => !e.ends c).reverse

/-- A path that begins after a text is not the end of another path or of a variable. -/
def PathStarts (e : Ends) (left : Text) : Prop := ∀ c ∈ wordBefore e left, c ≠ '/' ∧ c ≠ '}'

/-- An occurrence of a path that starts at `src`, between two texts. -/
def SrcPath (e : Ends) (src left right : Text) : Prop :=
  PathStarts e left ∧ src <+: right ∧
    (src.getLast? = some '/' ∨ ∀ c ∈ (right.drop src.length).head?, c = '/' ∨ e.ends c = true)

/-- A match, between the text before it and the spans after it. -/
structure Place where
  left : Text
  path : Text
  after : List Span

def places : Text → List Span → List Place
  | _, [] => []
  | left, .kept c :: after => places (left ++ [c]) after
  | left, .found path :: after => ⟨left, path, after⟩ :: places (left ++ path) after

def changes (e : Ends) (src content : Text) : List Place :=
  if src <:+: universal content then places [] (spans e.letter src (universal content)) else []

/-- What is said of one file, of its content before and after. -/
structure Relocates (e : Ends) (src pcPath content new : Text) : Prop where
  paths : ∀ values : Text → Text, values "pcfiledir".toList = pcPath →
    meanings e (expand values new) = meanings e (expand values content)
  breaks : src <:+: universal content → universal content = content
  outside : ∀ place ∈ changes e src content, SrcPath e src place.left (place.path ++ place.after.flatMap Span.text)
  gone : ∀ left right, new = left ++ right → ¬ SrcPath e src left right

/-- What is said of a directory: of each pkg-config file, and of a second run. -/
def Relocated (e : Ends) (src : Text) (files : List (Text × Text)) : Prop :=
  ∃ after, replacePkgconfig e.letter src files = some after ∧ replacePkgconfig e.letter src after = some after ∧
    ∀ path content new, (path, content) ∈ files → (path, new) ∈ after → isPc src path = true →
      Relocates e src (dirname path) content new

/-- The text that is kept up to the next match. -/
def keptText : List Span → Text
  | .kept c :: after => c :: keptText after
  | _ => []

/-- A word ends here. -/
def EndsHere (e : Ends) : List Span → Prop
  | [] => True
  | .kept c :: _ => e.ends c = true
  | .found _ :: _ => False

/-- A match that is replaced well. -/
structure Suited (e : Ends) (src pcPath : Text) (place : Place) : Prop where
  starts : SrcPath e src place.left (place.path ++ place.after.flatMap Span.text)
  goes : EndsHere e place.after ∨
    readPath ([], []) (pcPath ++ '/' :: relpath place.path pcPath) = readPath ([], []) place.path
  once : ¬ src <:+: '/' :: relpath place.path pcPath ++ keptText place.after

/-- The directory does not occur in the file; or there are no carriage returns, and all matches are suited. -/
def Suits (e : Ends) (src pcPath content : Text) : Prop :=
  ¬ src <:+: universal content ∨
    '\r' ∉ content ∧ ∀ place ∈ places [] (spans e.letter src content), Suited e src pcPath place

/-- No two dots in a row, and no directory of the file itself. -/
def Fresh (content : Text) : Prop := ¬ "..".toList <:+: content ∧ ¬ "${pcfiledir}".toList <:+: content

/-- A directory that is no special pattern, dots aside, for the script and for a regular expression. -/
structure Literal (src : Text) : Prop where
  absolute : src.head? = some '/'
  plain : ∀ c ∈ src, c ∉ "\\^$*+?{}[]|()\"\n\r".toList

variable {e : Ends} {src pcPath text : Text} {cut : List Span}

/-- The spans of a text. -/
inductive Scan (letter : Char → Bool) (src : Text) : Text → List Span → Prop
  | nil : Scan letter src [] []
  | kept {c : Char} {text : Text} {spans : List Span} :
      srcMatches src (c :: text) = false → Scan letter src text spans → Scan letter src (c :: text) (.kept c :: spans)
  | found {path rest : Text} {spans : List Span} :
      path ≠ [] → matchHere letter src (path ++ rest) = some path → Scan letter src rest spans →
      Scan letter src (path ++ rest) (.found path :: spans)

theorem srcMatches_length : ∀ {src text : Text}, srcMatches src text = true → src.length ≤ text.length
  | [], _, _ => Nat.zero_le _
  | _ :: src, c :: text, found => by
    rw [srcMatches, Bool.and_eq_true] at found
    exact Nat.succ_le_succ (srcMatches_length found.2)

theorem srcMatches_prefix (src rest : Text) : srcMatches src (src ++ rest) = true := by
  induction src with
  | nil => rfl
  | cons c src ih => simp [srcMatches, ih]

/-- A match is a part of the text. -/
theorem matchHere_eq {path : Text} (found : matchHere e.letter src text = some path) :
    text = path ++ ((text.drop src.length).dropWhile (pathChar e.letter)) ∧ src.length ≤ path.length := by
  unfold matchHere at found
  split at found
  · next matched =>
    obtain rfl := Option.some.inj found
    constructor
    · rw [List.append_assoc, List.takeWhile_append_dropWhile, List.take_append_drop]
    · simp [srcMatches_length matched]
  · cases found

theorem matchHere_slash (absolute : src.head? = some '/') {c : Char} {path : Text}
    (matched : matchHere e.letter src (c :: text) = some path) : c = '/' := by
  cases src with
  | nil => cases absolute
  | cons d src =>
    obtain rfl := Option.some.inj absolute
    unfold matchHere at matched
    split at matched
    · next found =>
      rw [srcMatches, Bool.and_eq_true] at found
      exact (by simpa using found.1 : '/' = c).symm
    · cases matched

theorem scan_spans (nonempty : src ≠ []) (text : Text) : Scan e.letter src text (spans e.letter src text) := by
  have each (text : Text) : ∀ skip, Scan e.letter src (text.drop skip) (spansFrom e.letter src skip text) := by
    induction text with
    | nil => intro skip; cases skip <;> exact .nil
    | cons c text ih =>
      rintro (_ | skip)
      · rw [spansFrom, List.drop_zero]
        split
        · next path found =>
          obtain ⟨split, long⟩ := matchHere_eq found
          have some : path ≠ [] := by
            rintro rfl
            exact nonempty (List.eq_nil_of_length_eq_zero (Nat.le_zero.mp long))
          obtain ⟨first, path, rfl⟩ := List.exists_cons_of_ne_nil some
          generalize (List.drop src.length (c :: text)).dropWhile (pathChar e.letter) = after at split
          obtain rfl : c = first := (List.cons.inj split).1
          obtain rfl : text = path ++ after := (List.cons.inj split).2
          have later := ih path.length
          rw [List.drop_left] at later
          exact .found some found later
        · next none =>
          refine .kept ?_ (ih 0)
          by_contra matched
          simp [matchHere, matched] at none
      · exact ih skip
  exact each text 0

namespace Scan

theorem text_eq (scan : Scan e.letter src text cut) : cut.flatMap Span.text = text := by
  induction scan with
  | nil => rfl
  | kept _ _ ih => rw [List.flatMap_cons, ih]; rfl
  | found _ _ _ ih => rw [List.flatMap_cons, ih]; rfl

/-- What follows a match is no path character. -/
theorem next_span {path : Text} (scan : Scan e.letter src text cut) (absolute : src.head? = some '/')
    (matched : matchHere e.letter src (path ++ text) = some path) :
    cut = [] ∨ ∃ c after, cut = .kept c :: after ∧ pathChar e.letter c = false := by
  have same := List.append_cancel_left (matchHere_eq matched).1
  have next : ∀ c rest, text = c :: rest → pathChar e.letter c = false := by
    rintro c rest rfl
    have nonempty : ((path ++ c :: rest).drop src.length).dropWhile (pathChar e.letter) ≠ [] := by
      rw [← same]
      exact List.cons_ne_nil c rest
    have ends := List.head_dropWhile_not (pathChar e.letter) nonempty
    simpa only [← same, List.head_cons] using ends
  cases scan with
  | nil => exact .inl rfl
  | kept => exact .inr ⟨_, _, rfl, next _ _ rfl⟩
  | @found path' rest _ _ matched' =>
    obtain ⟨first, path', rfl⟩ := List.exists_cons_of_ne_nil ‹path' ≠ []›
    have slash : first = '/' := matchHere_slash absolute matched'
    exact absurd ((pathChar_ascii (by rw [slash]; decide)).symm.trans (next _ _ rfl)) (by rw [slash]; decide)

end Scan

theorem matchHere_literal {path rest : Text} (matched : matchHere e.letter src (path ++ rest) = some path)
    (starts : src <+: path ++ rest) : ∃ more, path = src ++ more ∧ ∀ c ∈ more, pathChar e.letter c = true := by
  unfold matchHere at matched
  split at matched
  · obtain same := Option.some.inj matched
    rw [← List.prefix_iff_eq_take.mp starts] at same
    exact ⟨_, same.symm, fun c member => List.mem_takeWhile_imp member⟩
  · cases matched

theorem Literal.cons (literal : Literal src) : ∃ more, src = '/' :: more := by
  cases src with
  | nil => cases literal.absolute
  | cons c more => exact ⟨more, by rw [Option.some.inj literal.absolute]⟩

theorem Literal.nonempty (literal : Literal src) : src ≠ [] := by
  rintro rfl
  cases literal.absolute

theorem Literal.not_mem (literal : Literal src) {c : Char} (special : c ∈ "\\^$*+?{}[]|()\"\n\r".toList) : c ∉ src :=
  fun member => literal.plain c member special

/-- The directory and the file are words. -/
structure Whole (e : Ends) (src pcPath : Text) : Prop where
  srcWord : ∀ c ∈ src, e.ends c = false
  pcWord : ∀ c ∈ pcPath, e.ends c = false
  absolute : pcPath.head? = some '/'

variable {values : Text → Text} {mode : Mode} {word : Word} {left : Text}

/-- What has been read so far: nothing of a path, where one can start. -/
structure Fits (e : Ends) (left : Text) (mode : Mode) (word : Word) : Prop where
  whole : ∀ c ∈ mode.pending, e.ends c = false
  starts : PathStarts e left → (mode.pending.foldl Word.read word).path = none

theorem wordBefore_append (inWord : ∀ c ∈ text, e.ends c = false) :
    wordBefore e (left ++ text) = wordBefore e left ++ text := by
  have all : ∀ c ∈ text.reverse, (!e.ends c) = true := by simpa using inWord
  simp only [wordBefore, List.reverse_append, List.takeWhile_append_of_pos all, List.reverse_reverse]

theorem Fits.kept {c : Char} (fits : Fits e left mode word) :
    Fits e (left ++ [c]) (mode.step values c).2 (wordAfter e word (mode.step values c).1) := by
  by_cases ends : e.ends c = true
  · rw [Mode.step_ends ends]
    refine ⟨nofun, fun _ => ?_⟩
    rw [wordAfter, List.foldl_append, List.foldl_cons, if_pos ends]
    rfl
  · have here : e.ends c = false := by simpa using ends
    refine ⟨Mode.step_inWord fits.whole here, fun starts => ?_⟩
    rw [PathStarts, wordBefore_append (by simpa using here)] at starts
    obtain ⟨before, last⟩ := List.forall_mem_append.mp starts
    obtain ⟨slash, close⟩ := last c (List.mem_singleton_self c)
    obtain ⟨read, rfl, rfl⟩ | ⟨-, kept⟩ := Mode.step_cases values mode c
    · exact absurd rfl close
    · have pending : ∀ d ∈ mode.pending ++ [c], e.ends d = false :=
        List.forall_mem_append.mpr ⟨fits.whole, List.forall_mem_singleton.mpr here⟩
      rw [← kept] at pending
      rw [wordAfter_inWord (List.forall_mem_append.mp pending).1, ← List.foldl_append, kept, List.foldl_append]
      have none := fits.starts before
      rw [List.foldl_cons, List.foldl_nil, Word.read, none]
      simp [slash]

/-- Texts that are in a word and begin no variable. -/
def Plain (e : Ends) (text : Text) : Prop := ∀ c ∈ text, c ≠ '$' ∧ e.ends c = false

theorem Plain.dollar (plain : Plain e text) : '$' ∉ text := fun member => (plain _ member).1 rfl

theorem plain_path (literal : Literal src) (whole : ∀ c ∈ src, e.ends c = false) {path rest : Text}
    (matched : matchHere e.letter src (path ++ rest) = some path) (starts : src <+: path ++ rest) :
    path.head? = some '/' ∧ Plain e path := by
  obtain ⟨more, rfl, chars⟩ := matchHere_literal matched starts
  refine ⟨?_, List.forall_mem_append.mpr ⟨fun c member => ⟨?_, whole c member⟩, fun c member => ⟨?_, ?_⟩⟩⟩
  · obtain ⟨src, rfl⟩ := literal.cons
    rfl
  · rintro rfl
    exact literal.not_mem (by decide) member
  · rintro rfl
    exact absurd ((pathChar_ascii (by decide)).symm.trans (chars _ member)) (by decide)
  · exact e.path c (chars c member)

theorem plain_relpath (plain : Plain e text) : Plain e ('/' :: relpath text pcPath) := by
  have slash : '/' ≠ '$' ∧ e.ends '/' = false := ⟨by decide, e.ascii (by decide) (by decide)⟩
  exact List.forall_mem_cons.mpr ⟨slash, relpath_chars pcPath ⟨by decide, e.ascii (by decide) (by decide)⟩ slash plain⟩

/-- A path in a word that has no path yet. -/
theorem meaningsFrom_path (inWord : ∀ c ∈ mode.pending, e.ends c = false)
    (none : (mode.pending.foldl Word.read word).path = none) {path : Text} (absolute : path.head? = some '/')
    (chars : ∀ c ∈ path, e.ends c = false) (rest : Text) :
    meaningsFrom e word (mode.pending ++ path ++ rest) =
      meaningsFrom e ⟨(mode.pending.foldl Word.read word).head, some (readPath ([], []) path)⟩ rest := by
  rw [meaningsFrom_append (List.forall_mem_append.mpr ⟨inWord, chars⟩), List.foldl_append]
  generalize mode.pending.foldl Word.read word = before at none
  obtain ⟨head, reached⟩ := before
  obtain rfl : reached = Option.none := none
  cases path with
  | nil => cases absolute
  | cons c path =>
    obtain rfl := Option.some.inj absolute
    rw [Word.foldl_slash]
    rfl

theorem expandFrom_matched {path : Text} (absolute : path.head? = some '/') (plain : '$' ∉ path) (rest : Text) :
    expandFrom values mode (path ++ rest) = mode.pending ++ path ++ expandFrom values .text rest := by
  cases path with
  | nil => cases absolute
  | cons c path =>
    obtain rfl := Option.some.inj absolute
    exact expandFrom_path (fun dollar => plain (List.mem_cons_of_mem _ dollar)) rest

theorem expandFrom_replaced (ownDir : values "pcfiledir".toList = pcPath) {path : Text} (plain : Plain e path)
    (rest : Text) : expandFrom values mode (pcFn pcPath path ++ rest) =
      mode.pending ++ (pcPath ++ '/' :: relpath path pcPath) ++ expandFrom values .text rest := by
  have named : ∀ c ∈ "pcfiledir".toList, nameChar c = true := by decide
  have split : pcFn pcPath path ++ rest =
      ['$', '{'] ++ "pcfiledir".toList ++ '}' :: ('/' :: relpath path pcPath ++ rest) := rfl
  rw [split, expandFrom_variable named, ownDir, expandFrom_text (plain_relpath plain).dollar]
  simp only [List.append_assoc]

theorem Fits.fresh : Fits e left .text .empty := ⟨fun _ member => absurd member List.not_mem_nil, fun _ => rfl⟩

theorem left_slash {path : Text} (absolute : path.head? = some '/') (plain : Plain e path) :
    '/' ∈ wordBefore e (left ++ path) := by
  rw [wordBefore_append fun c member => (plain c member).2]
  exact List.mem_append_right _ (List.mem_of_mem_head? absolute)

theorem Fits.found {path : Text} (absolute : path.head? = some '/') (plain : Plain e path) :
    Fits e (left ++ path) .text word := by
  refine ⟨fun _ member => absurd member List.not_mem_nil, fun starts => ?_⟩
  exact absurd rfl (starts '/' (left_slash absolute plain)).1

/-- With suited matches the meanings stay the same. -/
theorem meaningsFrom_same (literal : Literal src) (whole : Whole e src pcPath)
    (ownDir : values "pcfiledir".toList = pcPath) (scan : Scan e.letter src text cut)
    (suited : ∀ place ∈ places left cut, Suited e src pcPath place) (fits : Fits e left mode word) {word' : Word}
    (alike : word' = word ∨ mode = .text ∧ word'.meaning = word.meaning ∧ EndsHere e cut) :
    meaningsFrom e word' (expandFrom values mode (cut.flatMap (Span.replaced pcPath))) =
      meaningsFrom e word (expandFrom values mode text) := by
  induction scan generalizing left mode word word' with
  | nil =>
    rcases alike with rfl | ⟨rfl, same, -⟩
    · rfl
    · exact congrArg (fun meaning => [meaning]) same
  | @kept c text spans _ _ ih =>
    rw [List.flatMap_cons, Span.replaced, List.singleton_append, expandFrom, expandFrom]
    rcases alike with rfl | ⟨rfl, same, ends⟩
    · exact meaningsFrom_append_iff.mpr (ih suited fits.kept (.inl rfl))
    · have ends : e.ends c = true := ends
      rw [Mode.step_ends ends]
      simp only [Mode.pending, List.nil_append, List.singleton_append, meaningsFrom_ends ends, same]
      exact congrArg _ (ih suited .fresh (.inl rfl))
  | @found path rest spans _ matched scan ih =>
    obtain ⟨⟨starts, goes, -⟩, later⟩ := List.forall_mem_cons.mp suited
    rcases alike with rfl | ⟨-, -, ends⟩
    · have begins : src <+: path ++ rest := by
        rw [← scan.text_eq]
        exact starts.2.1
      obtain ⟨absolute, plain⟩ := plain_path literal whole.srcWord matched begins
      have replaced : ∀ c ∈ pcPath ++ '/' :: relpath path pcPath, e.ends c = false :=
        List.forall_mem_append.mpr ⟨whole.pcWord, fun c member => (plain_relpath plain c member).2⟩
      rw [List.flatMap_cons, Span.replaced, expandFrom_matched absolute plain.dollar,
        expandFrom_replaced ownDir plain]
      have none := fits.starts starts.1
      rw [meaningsFrom_path fits.whole none absolute fun c member => (plain c member).2,
        meaningsFrom_path fits.whole none (by simp [whole.absolute]) replaced]
      refine ih later (.found absolute plain) ?_
      rcases goes with ends | same
      · refine .inr ⟨rfl, ?_, ends⟩
        exact congrArg (fun names => (_, some names)) (normNames_relpath path pcPath)
      · exact .inl (by rw [same])
    · exact ends.elim

/-- The letter `a` for each variable, but the directory of the file. -/
def letters (pcPath name : Text) : Text := if name = "pcfiledir".toList then pcPath else ['a']

theorem letters_own (pcPath : Text) : letters pcPath "pcfiledir".toList = pcPath := if_pos rfl

/-- Nothing is found in the rest of a word that has a path. -/
theorem kept_word (slash : '/' ∈ wordBefore e left) (starts : ∀ place ∈ places left cut, PathStarts e place.left) :
    ∃ (word : Text) (rest : List Span), cut = word.map Span.kept ++ rest ∧ (∀ c ∈ word, e.ends c = false) ∧ EndsHere e rest := by
  induction cut generalizing left with
  | nil => exact ⟨[], [], rfl, fun _ member => absurd member List.not_mem_nil, trivial⟩
  | cons span cut ih =>
    cases span with
    | found path => exact absurd rfl (starts _ (List.mem_cons_self ..) '/' slash).1
    | kept c =>
      by_cases ends : e.ends c = true
      · exact ⟨[], _, rfl, fun _ member => absurd member List.not_mem_nil, ends⟩
      · have here : e.ends c = false := by simpa using ends
        obtain ⟨word, rest, rfl, inWord, stop⟩ := @ih (left ++ [c])
          (by rw [wordBefore_append (by simpa using here)]; exact List.mem_append_left _ slash) starts
        exact ⟨c :: word, rest, rfl, List.forall_mem_cons.mpr ⟨here, inWord⟩, stop⟩

theorem EndsHere.spanText {rest : List Span} (ends : EndsHere e rest) (written : Span → Text)
    (kept : ∀ c, written (.kept c) = [c]) :
    rest.flatMap written = [] ∨ ∃ c later, rest.flatMap written = c :: later ∧ e.ends c = true := by
  cases rest with
  | nil => exact .inl rfl
  | cons span rest =>
    cases span with
    | kept c => exact .inr ⟨c, rest.flatMap written, by rw [List.flatMap_cons, kept]; rfl, ends⟩
    | found => exact ends.elim

/-- Where a word goes on after a match, the match is read as before. -/
theorem readPath_of_same (whole : Whole e src pcPath) {c : Char} {after : List Span} {head : Text}
    {first second : List Text × Text} (other : pathChar e.letter c = false) (slash : '/' ∈ wordBefore e left)
    (starts : ∀ place ∈ places left (.kept c :: after), PathStarts e place.left) (goes : e.ends c = false)
    (forward : ¬ "..".toList <:+: (Span.kept c :: after).flatMap Span.text)
    (own : ¬ "${pcfiledir}".toList <:+: (Span.kept c :: after).flatMap Span.text)
    (same : meaningsFrom e ⟨head, some first⟩
        (expandFrom (letters pcPath) .text ((Span.kept c :: after).flatMap (Span.replaced pcPath))) =
      meaningsFrom e ⟨head, some second⟩
        (expandFrom (letters pcPath) .text ((Span.kept c :: after).flatMap Span.text))) : first = second := by
  obtain ⟨word, rest, split, inWord, ends⟩ := kept_word slash starts
  obtain ⟨word, rfl⟩ : ∃ more, word = c :: more := by
    cases word with
    | nil => 
      rw [List.map_nil, List.nil_append] at split
      rw [← split, EndsHere, goes] at ends
      cases ends
    | cons d more => exact ⟨more, by simpa using (List.cons.inj split).1.symm⟩
  have texts (written : Span → Text) (kept : ∀ c, written (.kept c) = [c]) :
      (Span.kept c :: after).flatMap written = (c :: word) ++ rest.flatMap written := by
    rw [split, List.flatMap_append, List.flatMap_map]
    simp [kept]
  have letter (name : Text) : ∀ d ∈ letters pcPath name, e.ends d = false := by
    unfold letters
    split
    · exact whole.pcWord
    · exact List.forall_mem_singleton.mpr (e.ascii (by decide) (by decide))
  rw [texts _ fun _ => rfl] at forward own
  rw [texts _ fun _ => rfl, texts _ fun _ => rfl] at same
  obtain ⟨expanded, one, stop⟩ := @expandFrom_word (letters pcPath) _ .text (c :: word) _
    (ends.spanText (Span.replaced pcPath) fun _ => rfl)
  obtain ⟨expanded', other', stop'⟩ := @expandFrom_word (letters pcPath) _ .text (c :: word) _
    (ends.spanText Span.text fun _ => rfl)
  have inside := @expandFrom_chars _ .text _ _ letter (fun _ member => absurd member List.not_mem_nil) inWord
  have heads := congrArg List.head? same
  rw [one, other', meaningsFrom_head inside stop, meaningsFrom_head inside stop', Word.foldl_path, Word.foldl_path] at heads
  have alike : expandFrom (letters pcPath) .text (c :: word) = expandFrom (fun _ => ['a']) .text (c :: word) := by
    refine expandFrom_congr (fun other different => if_neg different) fun inside => own ?_
    exact inside.trans (List.prefix_append ..).isInfix
  have forward : ¬ "..".toList <:+: expandFrom (fun _ => ['a']) .text (c :: word) := by
    have whole : ¬ "..".toList <:+: [] ++ (Mode.text.pending ++ (c :: word)) :=
      fun inside => forward (inside.trans (List.prefix_append ..).isInfix)
    exact @expandFrom_forward _ .text (c :: word) [] (fun _ => rfl) whole
  obtain ⟨d, more, starts, slash, dot⟩ := @expandFrom_head _ e word _ (fun _ => rfl) other
  rw [alike, starts] at heads
  rw [starts] at forward
  simp only [Word.meaning, Option.map_some, Option.some.injEq, Prod.mk.injEq, true_and] at heads
  exact arrive_injective slash dot forward heads

/-- Where the meanings stay the same, each match ends its word or is read as before. -/
theorem goes_of_same (literal : Literal src) (whole : Whole e src pcPath) (scan : Scan e.letter src text cut)
    (starts : ∀ place ∈ places left cut, SrcPath e src place.left (place.path ++ place.after.flatMap Span.text))
    (forward : ¬ "..".toList <:+: text) (own : ¬ "${pcfiledir}".toList <:+: mode.pending ++ text)
    (fits : Fits e left mode word) {word' : Word}
    (alike : word' = word ∨ mode = .text ∧ word'.meaning = word.meaning ∧ EndsHere e cut)
    (same : meaningsFrom e word' (expandFrom (letters pcPath) mode (cut.flatMap (Span.replaced pcPath))) =
      meaningsFrom e word (expandFrom (letters pcPath) mode text)) :
    ∀ place ∈ places left cut, EndsHere e place.after ∨
      readPath ([], []) (pcPath ++ '/' :: relpath place.path pcPath) = readPath ([], []) place.path := by
  induction scan generalizing left mode word word' with
  | nil => exact fun _ member => absurd member List.not_mem_nil
  | @kept c text spans _ _ ih =>
    have forward : ¬ "..".toList <:+: text := fun inside => forward (inside.trans (List.suffix_cons ..).isInfix)
    have own : ¬ "${pcfiledir}".toList <:+: (mode.step (letters pcPath) c).2.pending ++ text :=
      fun inside => own (inside.trans (Mode.step_suffix c).isInfix)
    rw [List.flatMap_cons, Span.replaced, List.singleton_append, expandFrom, expandFrom] at same
    rcases alike with rfl | ⟨rfl, alike, ends⟩
    · exact ih starts forward own fits.kept (.inl rfl) (meaningsFrom_append_iff.mp same)
    · have ends : e.ends c = true := ends
      rw [Mode.step_ends ends] at same own
      simp only [Mode.pending, List.nil_append, List.singleton_append, meaningsFrom_ends ends, alike] at same
      exact ih starts forward own .fresh (.inl rfl) (List.cons.inj same).2
  | @found path rest spans _ matched scan ih =>
    obtain ⟨here, later⟩ := List.forall_mem_cons.mp starts
    rcases alike with rfl | ⟨-, -, ends⟩
    · have begins : src <+: path ++ rest := by
        rw [← scan.text_eq]
        exact here.2.1
      obtain ⟨absolute, plain⟩ := plain_path literal whole.srcWord matched begins
      have replaced : ∀ c ∈ pcPath ++ '/' :: relpath path pcPath, e.ends c = false :=
        List.forall_mem_append.mpr ⟨whole.pcWord, fun c member => (plain_relpath plain c member).2⟩
      have none := fits.starts here.1
      rw [List.flatMap_cons, Span.replaced, expandFrom_matched absolute plain.dollar,
        expandFrom_replaced (letters_own pcPath) plain,
        meaningsFrom_path fits.whole none absolute fun c member => (plain c member).2,
        meaningsFrom_path fits.whole none (by simp [whole.absolute]) replaced] at same
      have forward : ¬ "..".toList <:+: rest := fun inside => forward (inside.trans (List.suffix_append ..).isInfix)
      have own : ¬ "${pcfiledir}".toList <:+: rest := fun inside =>
        own (inside.trans ((List.suffix_append ..).trans (List.suffix_append ..)).isInfix)
      have goes : EndsHere e spans ∨
          readPath ([], []) (pcPath ++ '/' :: relpath path pcPath) = readPath ([], []) path := by
        refine or_iff_not_imp_left.mpr fun goesOn => ?_
        rcases scan.next_span literal.absolute matched with rfl | ⟨c, after, rfl, other⟩
        · exact absurd trivial goesOn
        · rw [← scan.text_eq] at forward own same
          refine readPath_of_same whole other (left_slash absolute plain) (fun place member => (later place member).1) ?_
            forward own same
          simpa [EndsHere] using goesOn
      refine List.forall_mem_cons.mpr ⟨goes, @ih .text _ _ later forward own (.found absolute plain) _ ?_ same⟩
      rcases goes with ends | same
      · exact .inr ⟨rfl, congrArg (fun names => (_, some names)) (normNames_relpath path pcPath), ends⟩
      · exact .inl (by rw [same])
    · exact ends.elim

theorem not_infix_keptText (scan : Scan e.letter src text cut) (nonempty : src ≠ []) : ¬ src <:+: keptText cut := by
  have nothing : ¬ src <:+: [] := fun inside => nonempty (List.infix_nil.mp inside)
  have kept {text : Text} {cut : List Span} (scan : Scan e.letter src text cut) : keptText cut <+: text := by
    induction scan with
    | nil => exact List.prefix_refl _
    | kept _ _ ih => exact (List.prefix_cons_inj _).mpr ih
    | found => exact List.nil_prefix
  induction scan with
  | nil => exact nothing
  | @kept c text spans none scan ih =>
    intro inside
    rcases List.infix_cons_iff.mp inside with here | later
    · obtain ⟨rest, same⟩ := here.trans ((List.prefix_cons_inj c).mpr (kept scan))
      rw [← same, srcMatches_prefix] at none
      cases none
    · exact ih later
  | found => exact nothing

/-- The directory occurs where no match is, or in a relative path and the text after it. -/
theorem infix_replaced (literal : Literal src) {before : Text}
    (inside : src <:+: before ++ cut.flatMap (Span.replaced pcPath)) : src <:+: before ++ keptText cut ∨
      ∃ place ∈ places left cut, src <:+: '/' :: relpath place.path pcPath ++ keptText place.after := by
  induction cut generalizing left before with
  | nil => exact .inl inside
  | cons span cut ih =>
    cases span with
    | kept c =>
      have split (rest : Text) : before ++ c :: rest = (before ++ [c]) ++ rest := by simp
      rw [keptText, split]
      exact ih (split _ ▸ inside)
    | found path =>
      have split : before ++ (Span.found path :: cut).flatMap (Span.replaced pcPath) = before ++ '$' ::
          ('{' :: "pcfiledir".toList ++ '}' :: ('/' :: relpath path pcPath ++ cut.flatMap (Span.replaced pcPath))) := rfl
      rw [split, infix_append_cons_iff (literal.not_mem (by decide)),
        infix_append_cons_iff (literal.not_mem (by decide))] at inside
      rcases inside with here | name | later
      · exact .inl (by simpa [keptText] using here)
      · obtain ⟨src, rfl⟩ := literal.cons
        exact absurd (name.subset (List.mem_cons_self ..)) (by decide)
      · rcases ih later with here | ⟨place, member, there⟩
        · exact .inr ⟨_, List.mem_cons_self .., here⟩
        · exact .inr ⟨place, List.mem_cons_of_mem _ member, there⟩

/-- What is written for a match, with the text after it. -/
theorem place_inside {place : Place} (member : place ∈ places left cut) :
    '/' :: relpath place.path pcPath ++ keptText place.after <:+: cut.flatMap (Span.replaced pcPath) := by
  have kept (cut : List Span) : keptText cut <+: cut.flatMap (Span.replaced pcPath) := by
    induction cut with
    | nil => exact List.nil_prefix
    | cons span cut ih =>
      cases span with
      | kept c => exact (List.prefix_cons_inj c).mpr ih
      | found => exact List.nil_prefix
  induction cut generalizing left with
  | nil => cases member
  | cons span cut ih =>
    rw [List.flatMap_cons]
    cases span with
    | kept c => exact (ih member).trans (List.suffix_append ..).isInfix
    | found path =>
      rcases List.mem_cons.mp member with rfl | later
      · have split : Span.replaced pcPath (.found path) ++ cut.flatMap (Span.replaced pcPath) =
            "${pcfiledir}".toList ++ ('/' :: relpath path pcPath ++ cut.flatMap (Span.replaced pcPath)) := rfl
        rw [split]
        exact ((List.prefix_append_right_inj _).mpr (kept cut)).isInfix.trans (List.suffix_append ..).isInfix
      · exact (ih later).trans (List.suffix_append ..).isInfix

/-- What is written differs, unless there is no match. -/
theorem Scan.unchanged (literal : Literal src) (scan : Scan e.letter src text cut)
    (same : cut.flatMap (Span.replaced pcPath) = text) : ¬ src <:+: text := by
  have kept : keptText cut = text := by
    induction scan with
    | nil => rfl
    | kept _ _ ih => exact congrArg _ (ih (List.cons.inj same).2)
    | @found path rest spans some matched =>
      obtain ⟨first, path, rfl⟩ := List.exists_cons_of_ne_nil some
      have slash : first = '/' := matchHere_slash literal.absolute matched
      exact absurd ((List.cons.inj same).1.trans slash) (by decide)
  rw [← kept]
  exact not_infix_keptText scan literal.nonempty

theorem universal_no_return (text : Text) : '\r' ∉ universal text := by
  fun_induction universal text with
  | case1 => exact List.not_mem_nil
  | case2 text ih => simp [ih]
  | case3 c text _ ih =>
    rw [List.mem_cons, not_or]
    refine ⟨?_, ih⟩
    split
    · decide
    · next other => exact Ne.symm other

theorem universal_eq (absent : '\r' ∉ text) : universal text = text := by
  fun_induction universal text with
  | case1 => rfl
  | case2 text => exact absurd (List.mem_cons_self ..) absent
  | case3 c text _ ih =>
    rw [List.mem_cons, not_or] at absent
    rw [if_neg (Ne.symm absent.1), ih absent.2]

theorem prefix_universal {first text : Text} (plain : ∀ c ∈ first, c ≠ '\r') (here : first <+: text) :
    first <+: universal text := by
  induction first generalizing text with
  | nil => exact List.nil_prefix
  | cons c first ih =>
    obtain ⟨rest, rfl⟩ := here
    obtain ⟨other, later⟩ := List.forall_mem_cons.mp plain
    have kept : universal (c :: (first ++ rest)) = c :: universal (first ++ rest) := by
      rw [universal, if_neg other]
      exact fun _ same => absurd same other
    rw [List.cons_append, kept]
    exact (List.prefix_cons_inj c).mpr (ih later (List.prefix_append ..))

theorem infix_universal (literal : Literal src) (inside : src <:+: text) : src <:+: universal text := by
  have plain : ∀ c ∈ src, c ≠ '\r' := fun c member same => literal.not_mem (by decide) (same ▸ member)
  obtain ⟨src, rfl⟩ := literal.cons
  obtain ⟨-, plain⟩ := List.forall_mem_cons.mp plain
  fun_induction universal text with
  | case1 => exact inside
  | case2 text ih =>
    rcases List.infix_cons_iff.mp inside with here | later
    · exact absurd (List.cons_prefix_cons.mp here).1 (by decide)
    · rcases List.infix_cons_iff.mp later with here | later
      · exact absurd (List.cons_prefix_cons.mp here).1 (by decide)
      · exact (ih later).trans (List.suffix_cons ..).isInfix
  | case3 c text _ ih =>
    rcases List.infix_cons_iff.mp inside with here | later
    · obtain ⟨rfl, rest⟩ := List.cons_prefix_cons.mp here
      exact ((List.prefix_cons_inj _).mpr (prefix_universal plain rest)).isInfix
    · exact (ih later).trans (List.suffix_cons ..).isInfix

theorem pcFn_no_return {path : Text} (absent : '\r' ∉ path) : '\r' ∉ pcFn pcPath path := by
  have chars : ∀ c ∈ path, c ≠ '\r' := fun c member same => absent (same ▸ member)
  have rel := relpath_chars pcPath (by decide : '.' ≠ '\r') (by decide : '/' ≠ '\r') chars
  have start : '\r' ∉ "${pcfiledir}/".toList := by decide
  unfold pcFn
  intro member
  rcases List.mem_append.mp member with first | last
  · exact start first
  · exact rel '\r' last rfl

theorem Scan.no_return (scan : Scan e.letter src text cut) (absent : '\r' ∉ text) :
    '\r' ∉ cut.flatMap (Span.replaced pcPath) := by
  induction scan with
  | nil => exact List.not_mem_nil
  | kept _ _ ih =>
    rw [List.mem_cons, not_or] at absent
    rw [List.flatMap_cons, Span.replaced, List.singleton_append, List.mem_cons, not_or]
    exact ⟨absent.1, ih absent.2⟩
  | @found path rest spans _ _ _ ih =>
    rw [List.mem_append, not_or] at absent
    rw [List.flatMap_cons, Span.replaced, List.mem_append, not_or]
    exact ⟨pcFn_no_return absent.1, ih absent.2⟩

variable {content : Text}

theorem replaceContent_pos (here : src <:+: universal content) :
    replaceContent e.letter src pcPath content =
      (spans e.letter src (universal content)).flatMap (Span.replaced pcPath) := if_pos here

theorem replaceContent_neg (here : ¬ src <:+: universal content) : replaceContent e.letter src pcPath content = content :=
  if_neg here

/-- With suited matches a file is relocated, and a second run leaves it as it is. -/
theorem relocates_of_suits (literal : Literal src) (whole : Whole e src pcPath) (suits : Suits e src pcPath content) :
    Relocates e src pcPath content (replaceContent e.letter src pcPath content) ∧
      replaceContent e.letter src pcPath (replaceContent e.letter src pcPath content) = replaceContent e.letter src pcPath content := by
  by_cases here : src <:+: universal content
  · obtain ⟨absent, suited⟩ := suits.resolve_left (not_not.mpr here)
    have lines := universal_eq absent
    rw [replaceContent_pos here, lines]
    have scan := scan_spans (e := e) literal.nonempty content
    have nowhere : ¬ src <:+: (spans e.letter src content).flatMap (Span.replaced pcPath) := by
      intro inside
      rcases @infix_replaced _ _ _ [] literal [] inside with kept | ⟨place, member, there⟩
      · exact not_infix_keptText scan literal.nonempty kept
      · exact (suited place member).once there
    refine ⟨⟨fun values own => ?_, fun _ => lines, fun place member => ?_, fun left right split path => ?_⟩, ?_⟩
    · exact meaningsFrom_same literal whole own scan suited .fresh (.inl rfl)
    · rw [changes, if_pos here, lines] at member
      exact (suited place member).starts
    · rw [split] at nowhere
      exact nowhere (path.2.1.isInfix.trans (List.suffix_append ..).isInfix)
    · rw [← universal_eq (scan.no_return absent)] at nowhere
      exact replaceContent_neg nowhere
  · rw [replaceContent_neg here, replaceContent_neg here]
    refine ⟨⟨fun _ _ => rfl, fun inside => absurd inside here, fun place member => ?_, fun left right split path => ?_⟩, rfl⟩
    · rw [changes, if_neg here] at member
      cases member
    · refine here (infix_universal literal ?_)
      rw [split]
      exact path.2.1.isInfix.trans (List.suffix_append ..).isInfix

theorem suits_of_relocates (literal : Literal src) (whole : Whole e src pcPath) (fresh : Fresh content)
    (relocates : Relocates e src pcPath content (replaceContent e.letter src pcPath content))
    (again : replaceContent e.letter src pcPath (replaceContent e.letter src pcPath content) = replaceContent e.letter src pcPath content) :
    Suits e src pcPath content := by
  refine or_iff_not_imp_left.mpr fun here => ?_
  have here := not_not.mp here
  have lines := relocates.breaks here
  have absent : '\r' ∉ content := lines ▸ universal_no_return content
  have scan := scan_spans (e := e) literal.nonempty content
  obtain ⟨paths, -, outside, -⟩ := relocates
  rw [replaceContent_pos here, lines] at paths again
  rw [changes, if_pos here, lines] at outside
  have nowhere : ¬ src <:+: (spans e.letter src content).flatMap (Span.replaced pcPath) := by
    intro inside
    have without : '\r' ∉ (spans e.letter src content).flatMap (Span.replaced pcPath) := scan.no_return absent
    have lines := universal_eq without
    rw [replaceContent_pos (lines.symm ▸ inside), lines] at again
    exact (scan_spans literal.nonempty _).unchanged literal again inside
  have goes := @goes_of_same _ _ _ _ _ .text _ _ literal whole scan outside fresh.1 fresh.2 .fresh _ (.inl rfl)
    (paths _ (letters_own pcPath))
  refine ⟨absent, fun place member => ⟨outside place member, goes place member, fun inside => ?_⟩⟩
  exact nowhere (inside.trans (place_inside member))

variable {files : List (Text × Text)}

def replaceAll (e : Ends) (src : Text) (pcs : List Text) (files : List (Text × Text)) : List (Text × Text) :=
  files.map fun file => if file.1 ∈ pcs then (file.1, replaceContent e.letter src (dirname file.1) file.2) else file

theorem replaceAll_fst (pcs : List Text) : (replaceAll e src pcs files).map Prod.fst = files.map Prod.fst := by
  rw [replaceAll, List.map_map]
  refine List.map_congr_left fun file _ => ?_
  rw [Function.comp]
  split <;> rfl

theorem replaceFile_eq (distinct : (files.map Prod.fst).Nodup) {pc : Text} (member : pc ∈ files.map Prod.fst) :
    replaceFile e.letter src files pc = some (replaceAll e src [pc] files) := by
  obtain ⟨⟨path, content⟩, inside, rfl⟩ := List.mem_map.mp member
  have found := lookup_of_nodup distinct inside
  rw [replaceFile, found]
  refine congrArg some (List.map_congr_left fun ⟨other, content'⟩ there => ?_)
  by_cases same : other = path
  · subst same
    have found' := lookup_of_nodup distinct there
    rw [found] at found'
    cases found'
    simp
  · simp [same]

theorem foldlM_replaceFile (distinct : (files.map Prod.fst).Nodup) {pcs : List Text}
    (once : pcs.Nodup) (members : ∀ pc ∈ pcs, pc ∈ files.map Prod.fst) :
    pcs.foldlM (replaceFile e.letter src) files = some (replaceAll e src pcs files) := by
  induction pcs generalizing files with
  | nil => simp [replaceAll]
  | cons pc pcs ih =>
    obtain ⟨here, later⟩ := List.forall_mem_cons.mp members
    obtain ⟨other, once⟩ := List.nodup_cons.mp once
    rw [List.foldlM_cons, replaceFile_eq distinct here, Option.bind_eq_bind, Option.bind_some,
      ih (by rwa [replaceAll_fst]) once (by rwa [replaceAll_fst])]
    congr 1
    rw [replaceAll, replaceAll, replaceAll, List.map_map]
    refine List.map_congr_left fun file _ => ?_
    by_cases first : file.1 = pc
    · simp [first, other]
    · simp [first]

/-- What the script and the reader take for names of files: one word, in a word of the file. -/
def Named (e : Ends) (path : Text) : Prop := words path = [path] ∧ ∀ c ∈ path, e.ends c = false

theorem isPc_whole (literal : Literal src) {path : Text} (pc : isPc src path = true) (named : Named e path) :
    Whole e src (dirname path) := by
  have begins : src <+: path := by
    unfold isPc at pc
    rw [Bool.and_eq_true, List.isPrefixOf_iff_prefix] at pc
    split at pc
    · exact pc.1
    · exact (List.prefix_append ..).trans pc.1
  refine ⟨fun c member => named.2 c (begins.subset member), fun c member => ?_, dirname_absolute ?_⟩
  · exact named.2 c ((dirname_begins path).subset member)
  · obtain ⟨rest, rfl⟩ := begins
    obtain ⟨src, rfl⟩ := literal.cons
    rfl

theorem pcs_eq (named : ∀ path ∈ files.map Prod.fst, isPc src path = true → words path = [path]) :
    pcs src files = (files.map Prod.fst).filter (isPc src) := by
  rw [pcs, List.filter_map]
  induction files with
  | nil => rfl
  | cons file files ih =>
    obtain ⟨here, later⟩ := List.forall_mem_cons.mp (List.map_cons ▸ named)
    by_cases pc : isPc src file.1 = true
    · simp only [List.filter_cons, Function.comp, pc, if_true, List.flatMap_cons, List.map_cons, here pc]
      rw [ih later]
      rfl
    · simp only [List.filter_cons, Function.comp, pc]
      exact ih later

def replaced (e : Ends) (src : Text) (files : List (Text × Text)) : List (Text × Text) :=
  replaceAll e src ((files.map Prod.fst).filter (isPc src)) files

theorem replaced_fst : (replaced e src files).map Prod.fst = files.map Prod.fst := replaceAll_fst _

theorem replacePkgconfig_eq (distinct : (files.map Prod.fst).Nodup)
    (named : ∀ path ∈ files.map Prod.fst, isPc src path = true → words path = [path]) :
    replacePkgconfig e.letter src files = some (replaced e src files) := by
  rw [replacePkgconfig, pcs_eq named]
  exact foldlM_replaceFile distinct (distinct.filter _) fun _ member => (List.mem_filter.mp member).1

theorem mem_replaced (distinct : (files.map Prod.fst).Nodup) {path content new : Text} (pc : isPc src path = true)
    (member : (path, content) ∈ files) :
    (path, new) ∈ replaced e src files ↔ new = replaceContent e.letter src (dirname path) content := by
  have listed : path ∈ (files.map Prod.fst).filter (isPc src) :=
    List.mem_filter.mpr ⟨List.mem_map.mpr ⟨_, member, rfl⟩, pc⟩
  have inside : (path, replaceContent e.letter src (dirname path) content) ∈ replaced e src files :=
    List.mem_map.mpr ⟨_, member, if_pos listed⟩
  constructor
  · intro there
    have distinct : ((replaced e src files).map Prod.fst).Nodup := by rwa [replaced_fst]
    exact Option.some.inj ((lookup_of_nodup distinct there).symm.trans (lookup_of_nodup distinct inside))
  · rintro rfl
    exact inside

/-- A second run changes nothing exactly when it changes no file. -/
theorem replaced_again : replaced e src (replaced e src files) = replaced e src files ↔
    ∀ file ∈ files, isPc src file.1 = true →
      replaceContent e.letter src (dirname file.1) (replaceContent e.letter src (dirname file.1) file.2) =
        replaceContent e.letter src (dirname file.1) file.2 := by
  have twice : replaced e src (replaced e src files) =
      replaceAll e src ((files.map Prod.fst).filter (isPc src)) (replaced e src files) := by
    rw [replaced, replaced_fst]
  rw [twice, replaced, replaceAll, replaceAll, List.map_map, List.map_inj_left]
  refine forall_congr' fun ⟨path, content⟩ => forall_congr' fun member => ?_
  have listed : path ∈ (files.map Prod.fst).filter (isPc src) ↔ isPc src path = true :=
    List.mem_filter.trans (and_iff_right (List.mem_map.mpr ⟨_, member, rfl⟩))
  by_cases pc : isPc src path = true
  · simp [listed, pc]
  · simp [listed, pc]

variable (e)

/-- A directory is relocated where each match in its pkg-config files is suited; for fresh files, only there. -/
theorem relocated_iff (literal : Literal src) (distinct : (files.map Prod.fst).Nodup)
    (named : ∀ file ∈ files, isPc src file.1 = true → Named e file.1) :
    ((∀ file ∈ files, isPc src file.1 = true → Suits e src (dirname file.1) file.2) → Relocated e src files) ∧
      ((∀ file ∈ files, isPc src file.1 = true → Fresh file.2) → Relocated e src files →
        ∀ file ∈ files, isPc src file.1 = true → Suits e src (dirname file.1) file.2) := by
  have one : ∀ path ∈ files.map Prod.fst, isPc src path = true → words path = [path] := by
    intro path member pc
    obtain ⟨file, inside, rfl⟩ := List.mem_map.mp member
    exact (named file inside pc).1
  have first := replacePkgconfig_eq (e := e) distinct one
  have second : replacePkgconfig e.letter src (replaced e src files) = some (replaced e src (replaced e src files)) :=
    replacePkgconfig_eq (by rwa [replaced_fst]) (by rwa [replaced_fst])
  constructor
  · intro suits
    have each := fun file member pc =>
      relocates_of_suits literal (isPc_whole literal pc (named file member pc)) (suits file member pc)
    refine ⟨replaced e src files, first, ?_, fun path content new member there pc => ?_⟩
    · rw [second, replaced_again.mpr fun file member pc => (each file member pc).2]
    · rw [(mem_replaced distinct pc member).mp there]
      exact (each (path, content) member pc).1
  · rintro fresh ⟨after, run, again, relocates⟩ ⟨path, content⟩ member pc
    obtain rfl := Option.some.inj (first.symm.trans run)
    have same := Option.some.inj (second.symm.trans again)
    have whole := isPc_whole literal pc (named _ member pc)
    refine suits_of_relocates literal whole (fresh _ member pc) ?_ (replaced_again.mp same _ member pc)
    exact relocates path content _ member ((mem_replaced distinct pc member).mpr rfl) pc

def blanks : Ends where
  letter _ := false
  ends := blank
  path c char := by
    by_contra ends
    simp only [blank, Bool.not_eq_false, Bool.or_eq_true, decide_eq_true_eq] at ends
    rcases ends with (rfl | rfl) | rfl <;> exact absurd char (by decide)
  marks := by decide

def libFile (content : Text) : Text × Text := ("/w/lib/a.pc".toList, content)

theorem literal_w : Literal "/w".toList := ⟨rfl, by decide⟩

theorem libFile_named {content : Text} : ∀ file ∈ [libFile content], isPc "/w".toList file.1 = true →
    Named blanks file.1 := by
  intro file member _
  rw [List.mem_singleton.mp member]
  exact (by decide : words "/w/lib/a.pc".toList = ["/w/lib/a.pc".toList] ∧
    ∀ c ∈ "/w/lib/a.pc".toList, blanks.ends c = false)

theorem prefix_relocated : Relocated blanks "/w".toList [libFile "prefix=/w\n".toList] := by
  refine (relocated_iff blanks literal_w (by decide) libFile_named).1 fun file member _ => ?_
  obtain rfl := List.mem_singleton.mp member
  have places : places [] (spans blanks.letter "/w".toList "prefix=/w\n".toList) =
      [⟨"prefix=".toList, "/w".toList, [.kept '\n']⟩] := rfl
  refine .inr ⟨by decide, fun place there => ?_⟩
  obtain rfl := List.mem_singleton.mp (places ▸ there)
  have starts : ∀ c ∈ wordBefore blanks "prefix=".toList, c ≠ '/' ∧ c ≠ '}' := by decide
  exact ⟨⟨starts, by decide, .inr (by decide)⟩, .inl rfl, by decide⟩

/-- The slash before a variable is lost. -/
theorem variable_glued : ¬ Relocated blanks "/w".toList [libFile "-L/w/${a}".toList] := by
  rintro ⟨after, run, -, relocates⟩
  have written : replacePkgconfig blanks.letter "/w".toList [libFile "-L/w/${a}".toList] =
      some [libFile "-L${pcfiledir}/..${a}".toList] := by decide
  obtain rfl := Option.some.inj (written.symm.trans run)
  have paths := (relocates _ _ _ (List.mem_singleton_self _) (List.mem_singleton_self _) (by decide)).paths
  exact absurd (paths (letters "/w/lib".toList) (letters_own _)) (by decide)

end CBuild.Soundness.PkgconfigPaths
