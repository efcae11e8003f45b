import CBuild.Text.Basic

/-! # Lines that go on behind a backslash

Reading a list of lines one after the other, where a text goes on in the next line behind a backslash at the end of a
line. The words of the text do not depend on where it is broken.
-/

namespace CBuild.Text.Folding

def Blank (text : Text) : Prop := ∀ c ∈ text, blank c = true

instance instDecidableBlank (text : Text) : Decidable (Blank text) :=
  inferInstanceAs (Decidable (∀ c ∈ text, blank c = true))

/-- A text without the blanks at its beginning. -/
def skip (text : Text) : Text := text.dropWhile blank

/-- A text without the blanks at its end. -/
def trimmed (text : Text) : Text := (text.reverse.dropWhile blank).reverse

/-- A text without the blanks around it. -/
def bare (text : Text) : Text := trimmed (skip text)

variable {text before after first second tail : Text} {c : Char}

theorem skip_blank (leads : Blank before) (rest : Text) : skip (before ++ rest) = skip rest := by
  induction before with
  | nil => rfl
  | cons c before ih =>
    obtain ⟨here, others⟩ := List.forall_mem_cons.mp leads
    exact (List.dropWhile_cons_of_pos here).trans (ih others)

theorem skip_other (other : blank c = false) (rest : Text) : skip (c :: rest) = c :: rest :=
  List.dropWhile_cons_of_neg (by rw [other]; exact Bool.false_ne_true)

theorem trimmed_append {front : Text} {last : Char} (finish : front.getLast? = some last) (shown : blank last = false)
    (text : Text) : trimmed (front ++ text) = front ++ trimmed text := by
  obtain ⟨init, split⟩ := List.getLast?_eq_some_iff.mp finish
  have kept : front.reverse.dropWhile blank = front.reverse := by
    rw [split, List.reverse_append, List.reverse_singleton, List.singleton_append]
    exact skip_other shown init.reverse
  unfold trimmed
  rw [List.reverse_append, List.dropWhile_append]
  cases left : text.reverse.dropWhile blank with
  | nil => rw [List.isEmpty_nil, if_pos rfl, kept, List.reverse_reverse, List.reverse_nil, List.append_nil]
  | cons c rest =>
    rw [List.isEmpty_cons, if_neg Bool.false_ne_true, List.reverse_append, List.reverse_reverse]

theorem trimmed_backslash (trails : Blank after) (text : Text) : trimmed (text ++ '\\' :: after) = text ++ ['\\'] := by
  have turned : Blank after.reverse := fun c member => trails c (List.mem_reverse.mp member)
  unfold trimmed
  rw [List.reverse_append, List.reverse_cons, List.append_assoc]
  change (skip (after.reverse ++ ('\\' :: text.reverse))).reverse = _
  rw [skip_blank turned, skip_other (by decide), List.reverse_cons, List.reverse_reverse]

theorem skip_backslash (text after : Text) : skip (text ++ '\\' :: after) = skip text ++ '\\' :: after := by
  unfold skip
  rw [List.dropWhile_append]
  split
  · rename_i none
    rw [List.isEmpty_iff.mp none]
    exact skip_other (by decide) after
  · rfl

/-- A line with a backslash at its end. -/
theorem bare_backslash (trails : Blank after) (text : Text) : bare (text ++ '\\' :: after) = skip text ++ ['\\'] := by
  rw [bare, skip_backslash, trimmed_backslash trails]

theorem mem_trimmed (member : c ∈ trimmed text) : c ∈ text :=
  List.mem_reverse.mp ((List.dropWhile_suffix _).mem (List.mem_reverse.mp member))

theorem getLast?_suffix (suffix : second <:+ text) (some : second ≠ []) : second.getLast? = text.getLast? := by
  obtain ⟨front, rfl⟩ := suffix
  rw [List.getLast?_append, List.getLast?_eq_some_getLast some, Option.some_or]

/-- What is left of a text without the blanks at its end has another character. -/
theorem trimmed_nil (none : skip (trimmed text) = []) : trimmed text = [] := by
  have all : ∀ c ∈ text.reverse.dropWhile blank, blank c = true := fun c member =>
    List.dropWhile_eq_nil_iff.mp none c (List.mem_reverse.mpr member)
  have empty : text.reverse.dropWhile blank = [] := by
    rw [← List.dropWhile_idempotent]
    exact List.dropWhile_eq_nil_iff.mpr all
  rw [trimmed, empty, List.reverse_nil]

theorem words_append (here : blank c = true) (first second : Text) :
    words (first ++ c :: second) = words first ++ words second := by
  unfold words
  rw [List.splitOnP_append_cons first second here, List.filter_append]

theorem words_front (leads : Blank before) (rest : Text) : words (before ++ rest) = words rest := by
  induction before with
  | nil => rfl
  | cons c before ih =>
    obtain ⟨here, others⟩ := List.forall_mem_cons.mp leads
    exact (words_append here [] (before ++ rest)).trans (ih others)

theorem words_back (trails : Blank after) (text : Text) : words (text ++ after) = words text := by
  cases after with
  | nil => rw [List.append_nil]
  | cons c after =>
    obtain ⟨here, others⟩ := List.forall_mem_cons.mp trails
    have none : words after = [] := by
      have all := words_front others []
      rwa [List.append_nil] at all
    rw [words_append here, none, List.append_nil]

theorem words_skip (text : Text) : words (skip text) = words text := by
  have leads : Blank (text.takeWhile blank) := fun c => List.mem_takeWhile_imp
  calc words (skip text) = words (text.takeWhile blank ++ skip text) := (words_front leads _).symm
    _ = words text := by rw [skip, List.takeWhile_append_dropWhile]

theorem words_trimmed (text : Text) : words (trimmed text) = words text := by
  have trails : Blank (text.reverse.takeWhile blank).reverse := fun c member =>
    List.mem_takeWhile_imp (List.mem_reverse.mp member)
  calc words (trimmed text) = words (trimmed text ++ (text.reverse.takeWhile blank).reverse) := (words_back trails _).symm
    _ = words text := by
        rw [trimmed, ← List.reverse_append, List.takeWhile_append_dropWhile, List.reverse_reverse]

theorem words_bare (text : Text) : words (bare text) = words text := by
  rw [bare, words_trimmed, words_skip]

/-- The words are the characters that are not blank. -/
theorem words_flatten (text : Text) : (words text).flatten = text.filter (fun c => !blank c) := by
  unfold words
  rw [List.flatten_filter_ne_nil]
  induction text with
  | nil => rfl
  | cons c text ih =>
    rw [List.splitOnP_cons_eq_if_modifyHead]
    cases here : blank c with
    | true =>
      rw [if_pos rfl, List.flatten_cons, ih, List.filter_cons_of_neg (by rw [here]; exact Bool.false_ne_true)]
      rfl
    | false =>
      rw [if_neg Bool.false_ne_true, List.filter_cons_of_pos (by rw [here]; rfl), ← ih]
      cases split : text.splitOnP blank with
      | nil => exact absurd split (List.splitOnP_ne_nil _ _)
      | cons word rest => rfl

theorem words_plain (plain : ∀ c ∈ text, blank c = false) : words text = [text].filter (· ≠ []) := by
  rw [words, List.splitOnP_eq_singleton plain]

section Replaced

variable {old : Text} (some : old ≠ []) (new : Text)
include some

/-- A replacement does not reach across a character that is not in the pattern. -/
theorem replace_apart (absent : c ∉ old) (first second : Text) :
    replace old new (first ++ c :: second) = replace old new first ++ c :: replace old new second := by
  have longer := List.length_pos_of_ne_nil some
  induction size : first.length using Nat.strong_induction_on generalizing first with
  | _ n ih =>
    have inside {rest : Text} (whole : old ++ rest = first ++ c :: second) : ∃ mid, first = old ++ mid := by
      rcases List.append_eq_append_iff.mp whole with ⟨mid, split, -⟩ | ⟨mid, split, later⟩
      · exact ⟨mid, split⟩
      · cases mid with
        | nil => exact ⟨[], by rw [split, List.append_nil, List.append_nil]⟩
        | cons d mid =>
          obtain ⟨rfl, -⟩ := List.cons.inj later
          exact absurd (split ▸ List.mem_append_right _ (List.mem_cons_self ..)) absent
    by_cases here : old <+: first ++ c :: second
    · obtain ⟨rest, whole⟩ := here
      obtain ⟨mid, rfl⟩ := inside whole
      rw [List.length_append] at size
      rw [List.append_assoc, replace_front some, replace_front some, ih _ (by omega) mid rfl, List.append_assoc]
    · cases first with
      | nil => exact replace_next new here
      | cons d first =>
        have alone : ¬ old <+: d :: first := fun begins => here (begins.trans (List.prefix_append ..))
        rw [List.length_cons] at size
        rw [replace_next new alone, List.cons_append, List.cons_append, ← ih _ (by omega) first rfl]
        exact replace_next new here

theorem mem_replace (member : c ∈ replace old new text) : c ∈ new ∨ c ∈ text := by
  have longer := List.length_pos_of_ne_nil some
  induction size : text.length using Nat.strong_induction_on generalizing text with
  | _ n ih =>
    by_cases here : old <+: text
    · obtain ⟨rest, rfl⟩ := here
      rw [List.length_append] at size
      rw [replace_front some, List.mem_append] at member
      exact member.elim .inl fun later => (ih _ (by omega) later rfl).imp_right (List.mem_append_right _)
    · cases text with
      | nil => exact .inr member
      | cons d text =>
        rw [List.length_cons] at size
        rw [replace_next new here, List.mem_cons] at member
        exact member.elim (fun same => .inr (same ▸ List.mem_cons_self ..)) fun later =>
          (ih _ (by omega) later rfl).imp_right (List.mem_cons_of_mem _)

/-- Where neither text has a blank, the words are replaced one by one. -/
theorem words_replace (plain : ∀ c ∈ old, blank c = false) (plain' : ∀ c ∈ new, blank c = false) (text : Text) :
    words (replace old new text) = ((words text).map (replace old new)).filter (· ≠ []) := by
  induction size : text.length using Nat.strong_induction_on generalizing text with
  | _ n ih =>
    have word : ∀ c ∈ text.takeWhile (!blank ·), blank c = false := fun c member =>
      Bool.not_eq_true' _ |>.mp (List.mem_takeWhile_imp (p := (!blank ·)) member)
    have replaced : ∀ c ∈ replace old new (text.takeWhile (!blank ·)), blank c = false := fun c member =>
      (mem_replace some new member).elim (plain' c) (word c)
    have here : words (replace old new (text.takeWhile (!blank ·))) =
        ((words (text.takeWhile (!blank ·))).map (replace old new)).filter (· ≠ []) := by
      rw [words_plain replaced, words_plain word]
      by_cases none : text.takeWhile (!blank ·) = []
      · rw [none]
        rfl
      · rw [List.filter_cons_of_pos (a := text.takeWhile _) (decide_eq_true none)]
        rfl
    have split := List.takeWhile_append_dropWhile (p := (!blank ·)) (l := text)
    cases rest : text.dropWhile (!blank ·) with
    | nil =>
      rw [rest, List.append_nil] at split
      rwa [split] at here
    | cons c later =>
      have gap : blank c = true := by
        have stops := List.head?_dropWhile_not (!blank ·) text
        rw [rest] at stops
        simpa using stops
      have absent : c ∉ old := fun member => by
        rw [plain c member] at gap
        cases gap
      rw [rest] at split
      have shorter : later.length < n := by
        rw [← size, ← split, List.length_append, List.length_cons]
        omega
      rw [← split, replace_apart some new absent, words_append gap, words_append gap, here, ih _ shorter later rfl,
        List.map_append, List.filter_append]

end Replaced

def readWith {σ τ : Type} (turn : σ → Text → σ × List τ) : σ → List Text → σ × List τ
  | s, [] => (s, [])
  | s, line :: lines => let (s, first) := turn s line; let (s, rest) := readWith turn s lines; (s, first ++ rest)

section Runs

variable {σ τ : Type} {turn : σ → Text → σ × List τ}

theorem readWith_cons (s : σ) (line : Text) (lines : List Text) : readWith turn s (line :: lines) =
    ((readWith turn (turn s line).1 lines).1, (turn s line).2 ++ (readWith turn (turn s line).1 lines).2) := rfl

theorem readWith_append (s : σ) (first second : List Text) : readWith turn s (first ++ second) =
    ((readWith turn (readWith turn s first).1 second).1,
      (readWith turn s first).2 ++ (readWith turn (readWith turn s first).1 second).2) := by
  induction first generalizing s with
  | nil => rfl
  | cons line first ih =>
    rw [List.cons_append, readWith_cons, readWith_cons, ih, List.append_assoc]

/-- States that are related give the same statements where a turn keeps them so. -/
theorem readWith_agree {rel : σ → σ → Prop}
    (step : ∀ s s' line, rel s s' → rel (turn s line).1 (turn s' line).1 ∧ (turn s line).2 = (turn s' line).2)
    {s s' : σ} (related : rel s s') (lines : List Text) : (readWith turn s lines).2 = (readWith turn s' lines).2 := by
  induction lines generalizing s s' with
  | nil => rfl
  | cons line lines ih =>
    obtain ⟨next, here⟩ := step s s' line related
    rw [readWith_cons, readWith_cons, here, ih next]

/-- The text of a statement that is open goes on behind a backslash, and another line closes it. -/
structure Folds (turn : σ → Text → σ × List τ) (opened : Text → σ) (close : Text → σ × List τ) : Prop where
  more : ∀ text line, (bare line).getLast? = some '\\' →
    turn (opened text) line = (opened (text ++ ' ' :: bare (bare line).dropLast), [])
  last : ∀ text line, (bare line).getLast? ≠ some '\\' →
    turn (opened text) line = close (text ++ ' ' :: bare (bare line))

end Runs

/-- A part of the tokens of a statement, with a backslash behind it. -/
structure Piece where
  text : Text
  trail : Text
  blanks : Blank trail

def Piece.line (piece : Piece) : Text := piece.text ++ '\\' :: piece.trail

/-- Tokens on several lines, the first behind the head of the statement. -/
structure Layout where
  first : Piece
  pieces : List Piece
  last : Text
  ends : (bare last).getLast? ≠ some '\\'

def Layout.tokens (layout : Layout) : List Text :=
  words layout.first.text ++ layout.pieces.flatMap (fun piece => words piece.text) ++ words layout.last

def Layout.lines (layout : Layout) (line : Text → Text) : List Text :=
  line layout.first.line :: (layout.pieces.map Piece.line ++ [layout.last])

/-- The parts have the characters of the tokens, and blanks. -/
theorem Layout.mem_first {layout : Layout} {tokens : Text} (same : layout.tokens = words tokens)
    (member : c ∈ layout.first.text) : blank c = true ∨ c ∈ tokens := by
  cases isBlank : blank c with
  | true => exact .inl rfl
  | false =>
    have shown : c ∈ (words layout.first.text).flatten := by
      rw [words_flatten]
      exact List.mem_filter.mpr ⟨member, by rw [isBlank]; rfl⟩
    obtain ⟨word, within, char⟩ := List.mem_flatten.mp shown
    have found : word ∈ words tokens := by
      rw [← same]
      exact List.mem_append_left _ (List.mem_append_left _ within)
    have there : c ∈ (words tokens).flatten := List.mem_flatten.mpr ⟨word, found, char⟩
    rw [words_flatten] at there
    exact .inr (List.mem_filter.mp there).1
section Runs

variable {σ τ : Type} {turn : σ → Text → σ × List τ} {opened : Text → σ} {close : Text → σ × List τ}

/-- The lines of a text behind the first close the statement with the words of all. -/
theorem Folds.run (folds : Folds turn opened close) (layout : Layout) (text : Text) :
    ∃ joined, words joined = words text ++ layout.pieces.flatMap (fun piece => words piece.text) ++ words layout.last ∧
      readWith turn (opened text) (layout.pieces.map Piece.line ++ [layout.last]) = close joined := by
  induction layout.pieces generalizing text with
  | nil =>
    refine ⟨text ++ ' ' :: bare (bare layout.last), ?_, ?_⟩
    · rw [words_append (by decide), words_bare, words_bare, List.flatMap_nil, List.append_nil]
    · rw [List.map_nil, List.nil_append, readWith_cons, folds.last _ _ layout.ends]
      exact Prod.ext rfl (List.append_nil _)
  | cons piece pieces ih =>
    have stripped : bare piece.line = skip piece.text ++ ['\\'] := bare_backslash piece.blanks piece.text
    have turn_eq := folds.more text piece.line (by rw [stripped, List.getLast?_concat])
    rw [stripped, List.dropLast_concat] at turn_eq
    obtain ⟨joined, same, run⟩ := ih (text ++ ' ' :: bare (skip piece.text))
    refine ⟨joined, ?_, ?_⟩
    · rw [same, words_append (by decide), words_bare, words_skip, List.flatMap_cons, List.append_assoc (words text)]
    · rw [List.map_cons, List.cons_append, readWith_cons, turn_eq]
      dsimp only
      rw [run]
      exact Prod.ext rfl (List.nil_append _)

end Runs

end CBuild.Text.Folding
