import CBuild.Model.GenBuildChain.Reading
import CBuild.Model.GenBuildChain.SetItemDeps

/-! # Statements on several lines

A statement that is broken between its tokens, with a backslash at the end of each line but the last, gives what it
gives on one line, and the lines behind it are read in the same way.
-/

namespace CBuild.Soundness.LineFolding

open CBuild.Text CBuild.Text.Folding CBuild.Model.GenBuildChain CBuild.Model.GenPackageInfos

variable {text before after first second rest tail group tokens : Text} {c : Char} {token : Char → Bool}

theorem behind_append (word : String) (rest : Text) : behind word (word.toList ++ rest) = some rest := by
  unfold behind
  rw [if_pos (List.isPrefixOf_iff_prefix.mpr (List.prefix_append ..)), List.drop_left]

/-- A group of characters, blanks, and a character that ends it. -/
theorem span_group {class' : Char → Bool} {last : Char} (inside : ∀ c ∈ group, class' c = true ∧ blank c = false)
    (gap : Blank after) (apart : ∀ c, blank c = true → class' c = false) (ends : class' last = false)
    (shown : blank last = false) (rest : Text) :
    (skip (group ++ (after ++ last :: rest))).takeWhile class' = group ∧
      skip ((skip (group ++ (after ++ last :: rest))).dropWhile class') = last :: rest := by
  have stop : (after ++ last :: rest).takeWhile class' = [] ∧
      (after ++ last :: rest).dropWhile class' = after ++ last :: rest := by
    cases after with
    | nil => exact ⟨List.takeWhile_cons_of_neg (by rw [ends]; exact Bool.false_ne_true),
        List.dropWhile_cons_of_neg (by rw [ends]; exact Bool.false_ne_true)⟩
    | cons c after =>
      have blank_c := apart c (gap c (List.mem_cons_self ..))
      exact ⟨List.takeWhile_cons_of_neg (by rw [blank_c]; exact Bool.false_ne_true),
        List.dropWhile_cons_of_neg (by rw [blank_c]; exact Bool.false_ne_true)⟩
  cases group with
  | nil =>
    rw [List.nil_append, skip_blank gap, skip_other shown]
    refine ⟨List.takeWhile_cons_of_neg (by rw [ends]; exact Bool.false_ne_true), ?_⟩
    rw [List.dropWhile_cons_of_neg (by rw [ends]; exact Bool.false_ne_true), skip_other shown]
  | cons c group =>
    have all : ∀ other ∈ c :: group, class' other = true := fun other member => (inside other member).1
    rw [List.cons_append, skip_other (inside c (List.mem_cons_self ..)).2, ← List.cons_append,
      List.takeWhile_append_of_pos all, List.dropWhile_append_of_pos all, stop.1, stop.2, List.append_nil,
      skip_blank gap, skip_other shown]
    exact ⟨rfl, rfl⟩

theorem not_blank {class' : Char → Bool} (space : class' ' ' = false) (tab : class' '\t' = false)
    (newline : class' '\n' = false) (isBlank : blank c = true) : class' c = false := by
  simp only [blank, Bool.or_eq_true, decide_eq_true_eq] at isBlank
  rcases isBlank with (rfl | rfl) | rfl <;> assumption

/-- `#NAME ( first ) target ( targets ) :`, with blanks between these. -/
structure Head (name : String) (firstChar targetChar targetsChar : Char → Bool) where
  first : Text
  target : Text
  targets : Text
  gap : Fin 6 → Text
  gaps : ∀ i, Blank (gap i)
  first_chars : ∀ c ∈ first, firstChar c = true
  target_chars : ∀ c ∈ target, targetChar c = true
  targets_chars : ∀ c ∈ targets, targetsChar c = true
  target_some : target ≠ []

variable {name : String} {firstChar targetChar targetsChar : Char → Bool}

def Head.line (head : Head name firstChar targetChar targetsChar) (tokens : Text) : Text :=
  name.toList ++ (head.gap 0 ++ '(' :: (head.gap 1 ++ (head.first ++ (head.gap 2 ++ ')' :: (head.gap 3 ++
    (head.target ++ (head.gap 4 ++ '(' :: (head.targets ++ ')' :: (head.gap 5 ++ ':' :: tokens)))))))))

theorem Head.line_append (head : Head name firstChar targetChar targetsChar) (tokens : Text) :
    head.line tokens = head.line [] ++ tokens := by
  simp only [Head.line, List.append_assoc, List.cons_append, List.nil_append]

theorem Head.line_ends (head : Head name firstChar targetChar targetsChar) : (head.line []).getLast? = some ':' :=
  List.getLast?_eq_some_iff.mpr ⟨name.toList ++ (head.gap 0 ++ '(' :: (head.gap 1 ++ (head.first ++ (head.gap 2 ++
    ')' :: (head.gap 3 ++ (head.target ++ (head.gap 4 ++ '(' :: (head.targets ++ ')' :: head.gap 5)))))))),
    by simp only [Head.line, List.append_assoc, List.cons_append]⟩

/-- The regular expression of such a statement takes the tokens behind its head. -/
theorem matchStatement_line (head : Head name firstChar targetChar targetsChar)
    {taken : Text → Option (Text × Text)}
    (takes : ∀ text, text.takeWhile firstChar = head.first → taken text = some (span firstChar text))
    (firstApart : ∀ c, blank c = true ∨ c = ')' → firstChar c = false)
    (targetApart : ∀ c, blank c = true ∨ c = '(' → targetChar c = false)
    (targetsApart : targetsChar ')' = false) (tokens : Text) :
    matchStatement name taken targetChar targetsChar token (head.line tokens) =
      some ⟨head.first, head.target, head.targets, tokens.takeWhile token⟩ := by
  have shown (class' : Char → Bool) (apart : ∀ c, blank c = true → class' c = false) {text : Text}
      (chars : ∀ c ∈ text, class' c = true) : ∀ c ∈ text, class' c = true ∧ blank c = false := by
    refine fun c member => ⟨chars c member, ?_⟩
    by_contra isBlank
    exact absurd (chars c member) (by rw [apart c ((Bool.not_eq_false _).mp isBlank)]; exact Bool.false_ne_true)
  obtain ⟨firstTaken, firstLeft⟩ := span_group
    (shown _ (fun c isBlank => firstApart c (.inl isBlank)) head.first_chars) (head.gaps 2)
    (fun c isBlank => firstApart c (.inl isBlank)) (firstApart ')' (.inr rfl)) (by decide)
    (head.gap 3 ++ (head.target ++ (head.gap 4 ++ '(' :: (head.targets ++ ')' :: (head.gap 5 ++ ':' :: tokens)))))
  obtain ⟨targetTaken, targetLeft⟩ := span_group
    (shown _ (fun c isBlank => targetApart c (.inl isBlank)) head.target_chars) (head.gaps 4)
    (fun c isBlank => targetApart c (.inl isBlank)) (targetApart '(' (.inr rfl)) (by decide)
    (head.targets ++ ')' :: (head.gap 5 ++ ':' :: tokens))
  have targetsTaken : (head.targets ++ ')' :: (head.gap 5 ++ ':' :: tokens)).takeWhile targetsChar = head.targets := by
    rw [List.takeWhile_append_of_pos head.targets_chars,
      List.takeWhile_cons_of_neg (by rw [targetsApart]; exact Bool.false_ne_true), List.append_nil]
  have targetsLeft : (head.targets ++ ')' :: (head.gap 5 ++ ':' :: tokens)).dropWhile targetsChar =
      ')' :: (head.gap 5 ++ ':' :: tokens) := by
    rw [List.dropWhile_append_of_pos head.targets_chars,
      List.dropWhile_cons_of_neg (by rw [targetsApart]; exact Bool.false_ne_true)]
  have char (c : Char) (rest : Text) : behind (String.singleton c) (c :: rest) = some rest :=
    by simpa only [String.toList_singleton, List.cons_append, List.nil_append]
      using behind_append (String.singleton c) rest
  unfold matchStatement Head.line
  rw [behind_append]
  simp only [Option.bind_eq_bind, Option.bind_some]
  rw [skip_blank (head.gaps 0), skip_other (by decide), show "(" = String.singleton '(' from rfl, char]
  simp only [Option.bind_some]
  rw [skip_blank (head.gaps 1), takes _ firstTaken]
  simp only [Option.bind_some, span]
  rw [firstLeft, show ")" = String.singleton ')' from rfl, char]
  simp only [Option.bind_some]
  rw [skip_blank (head.gaps 3), span1, targetTaken, if_neg head.target_some]
  simp only [Option.bind_some, span]
  rw [targetLeft, char]
  simp only [Option.bind_some]
  rw [targetsLeft, char]
  simp only [Option.bind_some]
  rw [skip_blank (head.gaps 5), skip_other (by decide), show ":" = String.singleton ':' from rfl, char, firstTaken,
    targetTaken, targetsTaken]
  rfl
/-- The text of a line up to its tokens: it begins with a comment character and ends with a colon. -/
structure Heads (line : Text → Text) : Prop where
  append : ∀ tokens, line tokens = line [] ++ tokens
  begins : ∀ tokens, ∃ rest, line tokens = '#' :: rest
  ends : (line []).getLast? = some ':'

/-- The blanks around a line are taken away. -/
theorem Heads.strip_line {line : Text → Text} (heads : Heads line) (leads : Blank before) (tokens : Text) :
    strip (before ++ line tokens) = line (trimmed tokens) := by
  obtain ⟨rest, begins⟩ := heads.begins tokens
  have first : skip (before ++ line tokens) = line tokens := by
    rw [skip_blank leads, begins, skip_other (by decide)]
  change trimmed (skip _) = _
  rw [first, heads.append tokens, trimmed_append heads.ends (by decide), ← heads.append]

theorem Head.heads (head : Head name firstChar targetChar targetsChar) (comment : name.toList.head? = some '#') :
    Heads head.line where
  append := head.line_append
  begins tokens := by
    obtain ⟨others, begins⟩ := List.head?_eq_some_iff.mp comment
    rw [Head.line, begins]
    exact ⟨_, List.cons_append⟩
  ends := head.line_ends

theorem matchDeps_line (head : Head "#DEPS" makeChar packageChar (fun c => blank c || wordChar c || oneOf "-.%:" c))
    (tokens : Text) : matchDeps (head.line tokens) =
      some ⟨head.first, head.target, head.targets, tokens.takeWhile depsToken⟩ := by
  refine matchStatement_line head (fun _ _ => rfl) ?_ ?_ (by decide) tokens
  · rintro c (isBlank | rfl)
    · exact not_blank (by decide) (by decide) (by decide) isBlank
    · decide
  · rintro c (isBlank | rfl)
    · exact not_blank (by decide) (by decide) (by decide) isBlank
    · decide

/-- Another statement is not taken for this one. -/
theorem matchDeps_incdeps (rest : Text) : matchDeps ("#INCDEPS".toList ++ rest) = none := by
  have begins : "#INCDEPS".toList = '#' :: 'I' :: "NCDEPS".toList := by decide
  have expected : "#DEPS".toList = '#' :: 'D' :: "EPS".toList := by decide
  have apart : behind "#DEPS" ("#INCDEPS".toList ++ rest) = none := by
    rw [behind, if_neg]
    rw [begins, expected]
    exact Bool.false_ne_true
  unfold matchDeps matchStatement
  rw [apart]
  rfl

theorem matchIncdeps_line {gap tokens : Text} (gaps : Blank gap) (admitted : ∀ c ∈ tokens, incdepsToken c = true)
    (shown : skip tokens ≠ []) : matchIncdeps ("#INCDEPS".toList ++ (gap ++ ':' :: tokens)) = some (skip tokens) := by
  have taken : (skip tokens).takeWhile incdepsToken = skip tokens :=
    List.takeWhile_eq_self_iff.mpr fun c member => admitted c ((List.dropWhile_suffix _).mem member)
  unfold matchIncdeps
  rw [behind_append]
  simp only [Option.bind_eq_bind, Option.bind_some]
  rw [skip_blank gaps, skip_other (by decide), show ':' :: tokens = ":".toList ++ tokens from rfl, behind_append]
  simp only [Option.bind_some]
  rw [taken, if_pos shown]

/-- `#INCDEPS:` takes nothing without a path. -/
theorem matchIncdeps_empty {gap : Text} (gaps : Blank gap) :
    matchIncdeps ("#INCDEPS".toList ++ (gap ++ [':'])) = none := by
  unfold matchIncdeps
  rw [behind_append]
  simp only [Option.bind_eq_bind, Option.bind_some]
  rw [skip_blank gaps, skip_other (by decide)]
  rfl

/-- No other expression takes a comment line. -/
theorem beginLine_comment {rest : Text} (deps : matchDeps ('#' :: rest) = none)
    (incdeps : matchIncdeps ('#' :: rest) = none) (r : Reader) : beginLine ('#' :: rest) r = (r, []) := by
  have word (word : String) {first : Char} {others : Text} (begins : word.toList = first :: others)
      (apart : first ≠ '#') : behind word ('#' :: rest) = none := by
    rw [behind, if_neg]
    rw [begins, List.isPrefixOf_cons_cons, beq_false_of_ne apart]
    exact Bool.false_ne_true
  have cache : matchCache ('#' :: rest) = false := by rw [matchCache, word "CACHE_BUILD" rfl (by decide)]; rfl
  have url : matchUrl ('#' :: rest) = false := by rw [matchUrl, word "SRC_URL" rfl (by decide)]; rfl
  have incrule : matchIncrule ('#' :: rest) = false := by rw [matchIncrule, word "include" rfl (by decide)]
  have package : matchPackage ('#' :: rest) = none := by
    unfold matchPackage; rw [word "PACKAGE_NAME" rfl (by decide)]; rfl
  have vars : matchVars ('#' :: rest) = none := by
    unfold matchVars span1
    rw [List.takeWhile_cons_of_neg (by decide), if_pos rfl]
    rfl
  have fthead : matchFthead ('#' :: rest) = false := by
    unfold matchFthead
    rw [skip_other (by decide), word "$(eval" rfl (by decide)]
    rfl
  unfold beginLine
  rw [deps, incdeps]
  dsimp only
  rw [cache, url, incrule, package, vars, fthead, Bool.and_false]
  simp only [Bool.false_eq_true, if_false, ite_self]

/-- The text of a statement in front of its tokens: `#DEPS(make) target(targets):` or `#INCDEPS:`. -/
inductive Opening where
  | deps (head : Head "#DEPS" makeChar packageChar (fun c => blank c || wordChar c || oneOf "-.%:" c))
  | incdeps (gap : Text) (gaps : Blank gap)

namespace Opening

def line (opening : Opening) (tokens : Text) : Text :=
  match opening with
  | deps head => head.line tokens
  | incdeps gap _ => "#INCDEPS".toList ++ (gap ++ ':' :: tokens)

/-- The characters that the regular expression takes behind it. -/
def admits : Opening → Char → Bool
  | deps _ => depsToken
  | incdeps .. => incdepsToken

def matchType : Opening → Text → MatchType
  | deps head, tokens => .deps ⟨head.first, head.target, head.targets, tokens⟩
  | incdeps .., _ => .incdeps

theorem line_deps (head) (tokens : Text) : (deps head).line tokens = head.line tokens := rfl

theorem line_incdeps (gap : Text) (gaps : Blank gap) (tokens : Text) :
    (incdeps gap gaps).line tokens = "#INCDEPS".toList ++ (gap ++ ':' :: tokens) := rfl

variable (opening : Opening)

theorem heads : Heads opening.line := by
  cases opening with
  | deps head => exact head.heads (by decide)
  | incdeps gap gaps =>
    have begins : "#INCDEPS".toList = '#' :: "INCDEPS".toList := by decide
    refine ⟨fun tokens => ?_, fun tokens => ?_, ?_⟩
    · rw [line_incdeps, line_incdeps]
      simp only [List.append_assoc, List.cons_append, List.nil_append]
    · rw [line_incdeps, begins]
      exact ⟨_, List.cons_append⟩
    · rw [line_incdeps]
      exact List.getLast?_eq_some_iff.mpr ⟨"#INCDEPS".toList ++ gap, (List.append_assoc ..).symm⟩

theorem admits_backslash : opening.admits '\\' = true := by
  cases opening with
  | deps head => exact (by decide : depsToken '\\' = true)
  | incdeps gap gaps => exact (by decide : incdepsToken '\\' = true)

theorem admits_blank (isBlank : blank c = true) : opening.admits c = true := by
  cases opening with
  | deps head => change depsToken c = true; rw [depsToken, isBlank]; rfl
  | incdeps gap gaps => change incdepsToken c = true; rw [incdepsToken, isBlank]; rfl

theorem splitChar_matchType (tokens : Text) : splitChar (opening.matchType tokens) = ' ' := by
  cases opening with
  | deps head => rfl
  | incdeps gap gaps => rfl

/-- The tokens are taken, with the blanks in front of them or without. -/
theorem beginLine_line (admitted : ∀ c ∈ tokens, opening.admits c = true) (shown : skip tokens ≠ []) (r : Reader) :
    ∃ group, (group = tokens ∨ group = skip tokens) ∧
      beginLine (opening.line tokens) r = start (opening.matchType tokens) group r := by
  cases opening with
  | deps head =>
    have all : ∀ c ∈ tokens, depsToken c = true := admitted
    refine ⟨tokens, .inl rfl, ?_⟩
    rw [line_deps, beginLine, matchDeps_line, List.takeWhile_eq_self_iff.mpr all]
    rfl
  | incdeps gap gaps =>
    refine ⟨skip tokens, .inr rfl, ?_⟩
    rw [line_incdeps, beginLine, matchDeps_incdeps]
    dsimp only
    rw [matchIncdeps_line gaps admitted shown]
    rfl

end Opening

/-- What is read next is the same: the text behind which a statement goes on counts only where one does. -/
structure Alike (r r' : Reader) : Prop where
  matchType : r.matchType = r'.matchType
  package : r.package = r'.package
  featurecfg : r.featurecfg = r'.featurecfg
  lastGroup : r.matchType ≠ none → r.lastGroup = r'.lastGroup

/-- The same statements, and readers that are alike. -/
def Agree (first second : Reader × List Statement) : Prop := Alike first.1 second.1 ∧ first.2 = second.2

theorem Agree.rfl {first : Reader × List Statement} : Agree first first :=
  ⟨⟨Eq.refl _, Eq.refl _, Eq.refl _, fun _ => Eq.refl _⟩, Eq.refl _⟩

theorem Alike.trans {first second third : Reader} (one : Alike first second) (two : Alike second third) :
    Alike first third where
  matchType := one.matchType.trans two.matchType
  package := one.package.trans two.package
  featurecfg := one.featurecfg.trans two.featurecfg
  lastGroup busy := (one.lastGroup busy).trans (two.lastGroup (one.matchType ▸ busy))

theorem Alike.symm {first second : Reader} (alike : Alike first second) : Alike second first where
  matchType := alike.matchType.symm
  package := alike.package.symm
  featurecfg := alike.featurecfg.symm
  lastGroup busy := (alike.lastGroup (alike.matchType.symm ▸ busy)).symm

variable {r r' : Reader}

/-- A line that begins a statement does not look at the text of the one before it. -/
theorem beginLine_agree (idle : r.matchType = none) (line text : Text) :
    Agree (beginLine line { r with lastGroup := text }) (beginLine line r) := by
  have started (matchType : MatchType) (group : Text) :
      start matchType group { r with lastGroup := text } = start matchType group r := rfl
  have kept (statements : List Statement) : Agree ({ r with lastGroup := text }, statements) (r, statements) :=
    ⟨⟨rfl, rfl, rfl, fun busy => absurd idle busy⟩, rfl⟩
  unfold beginLine
  simp only [started]
  cases matchDeps line with
  | some groups => exact .rfl
  | none =>
  cases matchIncdeps line with
  | some group => exact .rfl
  | none =>
  dsimp only
  split
  · exact kept _
  split
  · exact kept _
  split
  · exact kept _
  cases matchPackage line with
  | some name => exact ⟨⟨rfl, rfl, rfl, fun busy => absurd idle busy⟩, rfl⟩
  | none =>
  dsimp only
  cases (if r.package ≠ [] then matchVars line else none) with
  | some found =>
    dsimp only
    split
    · exact .rfl
    · exact kept _
  | none =>
    dsimp only
    split
    · exact .rfl
    · exact kept _

theorem readLine_agree (alike : Alike r r') (line : Text) : Agree (readLine r line) (readLine r' line) := by
  obtain ⟨matchType, lastGroup, package, featurecfg⟩ := r
  obtain ⟨matchType', lastGroup', package', featurecfg'⟩ := r'
  obtain ⟨rfl, rfl, rfl, same⟩ := alike
  cases matchType with
  | some matchType =>
    obtain rfl := same (Option.some_ne_none _)
    exact .rfl
  | none => exact beginLine_agree (r := ⟨none, lastGroup', package, featurecfg⟩) rfl (strip line) lastGroup

namespace Opening

variable (opening : Opening)

/-- What ends a statement depends on the words of its text. -/
theorem finish_agree (tokens tokens' : Text) (package : r.package = r'.package)
    (featurecfg : r.featurecfg = r'.featurecfg) (same : words r.lastGroup = words r'.lastGroup) :
    Agree (finish (opening.matchType tokens) r) (finish (opening.matchType tokens') r') := by
  cases opening with
  | deps head =>
    unfold matchType finish
    dsimp only
    rw [same]
    exact ⟨⟨rfl, package, rfl, fun busy => absurd rfl busy⟩, rfl⟩
  | incdeps gap gaps =>
    unfold matchType finish
    dsimp only
    rw [same]
    exact ⟨⟨rfl, package, featurecfg, fun busy => absurd rfl busy⟩, rfl⟩

/-- The statement on one line. -/
theorem readLine_whole (idle : r.matchType = none) (leads : Blank before)
    (admitted : ∀ c ∈ tokens, opening.admits c = true)
    (ends : (strip (before ++ opening.line tokens)).getLast? ≠ some '\\') {text : Text}
      (same : words text = words tokens) :
    Agree (readLine r (before ++ opening.line tokens))
      (finish (opening.matchType []) { r with lastGroup := text }) := by
  have read : readLine r (before ++ opening.line tokens) = beginLine (opening.line (trimmed tokens)) r := by
    rw [readLine, idle, ← opening.heads.strip_line leads]
  rw [opening.heads.strip_line leads, opening.heads.append] at ends
  rw [read]
  by_cases shown : skip (trimmed tokens) = []
  · -- `#INCDEPS:` is no statement then, and one without paths is none either
    have none : words text = [] := by
      rw [same, ← words_trimmed, trimmed_nil shown]
      rfl
    rw [trimmed_nil shown]
    cases opening with
    | deps head =>
      rw [line_deps, beginLine, matchDeps_line]
      exact finish_agree (.deps head) [] [] rfl rfl (none.symm ▸ rfl)
    | incdeps gap gaps =>
      obtain ⟨rest, begins⟩ := (incdeps gap gaps).heads.begins []
      rw [begins, beginLine_comment (by rw [← begins]; exact matchDeps_incdeps _)
        (by rw [← begins]; exact matchIncdeps_empty gaps)]
      unfold matchType finish
      dsimp only
      rw [none]
      exact ⟨⟨idle, rfl, rfl, fun busy => absurd idle busy⟩, rfl⟩
  · obtain ⟨group, kept, begun⟩ :=
      opening.beginLine_line (fun c member => admitted c (mem_trimmed member)) shown r
    have last : group.getLast? = (opening.line [] ++ trimmed tokens).getLast? := by
      rcases kept with rfl | rfl
      · exact getLast?_suffix (List.suffix_append ..) fun none => shown (by rw [none]; rfl)
      · exact getLast?_suffix ((List.dropWhile_suffix _).trans (List.suffix_append ..)) shown
    rw [begun, start, if_neg (last ▸ ends)]
    refine opening.finish_agree _ _ rfl rfl ?_
    change words (bare group) = words text
    rw [words_bare, same]
    rcases kept with rfl | rfl
    · exact words_trimmed tokens
    · rw [words_skip, words_trimmed]

/-- The reader behind an open statement goes on as `Folds` says. -/
theorem folds (tokens : Text) (r : Reader) : Folds readLine
    (fun text => { r with matchType := some (opening.matchType tokens), lastGroup := text })
    (fun text => finish (opening.matchType tokens)
      { r with matchType := some (opening.matchType tokens), lastGroup := text }) where
  more text line ends := by
    have here : (strip line).getLast? = some '\\' := ends
    rw [readLine]
    dsimp only
    rw [goOn, if_pos here, opening.splitChar_matchType]
    rfl
  last text line ends := by
    have here : ¬ (strip line).getLast? = some '\\' := ends
    rw [readLine]
    dsimp only
    rw [goOn, if_neg here, opening.splitChar_matchType]
    rfl

/-- The statement on several lines. -/
theorem readLines_layout (idle : r.matchType = none) (leads : Blank before) {layout : Layout}
    (admitted : ∀ c ∈ layout.first.text, opening.admits c = true) :
    ∃ text, words text = layout.tokens ∧
      Agree (readWith readLine r (layout.lines fun tokens => before ++ opening.line tokens))
        (finish (opening.matchType []) { r with lastGroup := text }) := by
  have shown : skip (layout.first.text ++ ['\\']) = skip layout.first.text ++ ['\\'] := skip_backslash _ []
  obtain ⟨group, kept, begun⟩ := @beginLine_line (layout.first.text ++ ['\\']) opening
    (fun c member => (List.mem_append.mp member).elim (admitted c)
      fun last => (List.mem_singleton.mp last) ▸ opening.admits_backslash)
    (by rw [shown]; exact List.append_ne_nil_of_right_ne_nil _ (List.cons_ne_nil _ _)) r
  obtain ⟨front, split, front_words⟩ : ∃ front, group = front ++ ['\\'] ∧ words front = words layout.first.text := by
    rcases kept with rfl | rfl
    · exact ⟨_, rfl, rfl⟩
    · exact ⟨_, shown, words_skip _⟩
  have opened : readLine r (before ++ opening.line layout.first.line) =
      ({ r with
        matchType := some (opening.matchType (layout.first.text ++ ['\\']))
        lastGroup := bare front }, []) := by
    rw [readLine, idle]
    dsimp only
    rw [opening.heads.strip_line leads, Piece.line, trimmed_backslash layout.first.blanks, begun, start, split,
      List.getLast?_concat, if_pos rfl, List.dropLast_concat]
    rfl
  obtain ⟨joined, same, run⟩ := (opening.folds (layout.first.text ++ ['\\']) r).run layout (bare front)
  refine ⟨joined, by rw [same, words_bare, front_words]; rfl, ?_⟩
  rw [Layout.lines, readWith_cons, opened]
  dsimp only
  rw [run]
  exact opening.finish_agree _ _ rfl rfl rfl

end Opening

/-- `#VDEPS(type) target(targets):`. -/
structure VHead extends Head "#VDEPS" wordChar (fun c => wordChar c || c = '-')
    (fun c => blank c || wordChar c || oneOf "-./" c) where
  first_some : first ≠ []

namespace VHead

variable (head : VHead)

def groups (tokens : Text) : Groups := ⟨head.first, head.target, head.targets, tokens⟩

theorem matchVdeps_line (tokens : Text) :
    matchVdeps (head.line tokens) = some (head.groups (tokens.takeWhile vdepsToken)) := by
  refine matchStatement_line head.toHead (fun text taken => ?_) ?_ ?_ (by decide) tokens
  · rw [span1, if_neg (by rw [taken]; exact head.first_some)]
  · rintro c (isBlank | rfl)
    · exact @not_blank c wordChar (by decide) (by decide) (by decide) isBlank
    · decide
  · rintro c (isBlank | rfl)
    · exact @not_blank c (fun c => wordChar c || c = '-') (by decide) (by decide) (by decide) isBlank
    · decide

theorem vdepsToken_blank (isBlank : blank c = true) : vdepsToken c = true := by
  rw [vdepsToken, isBlank]
  rfl

/-- The same reader, but for the text of a statement that is closed. -/
def Alike (r r' : VReader) : Prop := r = r' ∨ r.matchType = none ∧ r'.matchType = none

theorem readVline_alike (r r' : VReader) (line : Text) (alike : Alike r r') :
    Alike (readVline r line).1 (readVline r' line).1 ∧ (readVline r line).2 = (readVline r' line).2 := by
  rcases alike with rfl | ⟨idle, idle'⟩
  · exact ⟨.inl rfl, rfl⟩
  · unfold readVline
    rw [idle, idle']
    dsimp only
    cases matchVdeps (strip line) with
    | none => exact ⟨.inr ⟨idle, idle'⟩, rfl⟩
    | some groups =>
      dsimp only
      split
      · exact ⟨.inl rfl, rfl⟩
      · exact ⟨.inr ⟨rfl, rfl⟩, rfl⟩

/-- What a statement with these tokens gives. -/
def statement (tokens : List Text) : VStatement := ⟨head.first, head.target, words head.targets, tokens⟩

/-- The statement on one line. -/
theorem readVline_whole {r : VReader} (idle : r.matchType = none) (leads : Blank before)
    (admitted : ∀ c ∈ tokens, vdepsToken c = true)
    (ends : (strip (before ++ head.line tokens)).getLast? ≠ some '\\') :
    (readVline r (before ++ head.line tokens)).1.matchType = none ∧
      (readVline r (before ++ head.line tokens)).2 = [head.statement (words tokens)] := by
  have heads : Heads head.line := head.heads (by decide)
  have all : (trimmed tokens).takeWhile vdepsToken = trimmed tokens :=
    List.takeWhile_eq_self_iff.mpr fun c member => admitted c (mem_trimmed member)
  rw [heads.strip_line leads, heads.append] at ends
  have last : (trimmed tokens).getLast? ≠ some '\\' := by
    intro backslash
    refine ends ?_
    rw [List.getLast?_append, backslash, Option.some_or]
  unfold readVline
  rw [idle, heads.strip_line leads]
  dsimp only
  rw [matchVdeps_line, all]
  dsimp only [groups]
  rw [if_neg last]
  refine ⟨rfl, ?_⟩
  change [VStatement.mk head.first head.target (words head.targets) (words (bare (trimmed tokens)))] = _
  rw [words_bare, words_trimmed]
  rfl

theorem folds (groups : Groups) : Folds readVline (fun text => ⟨some groups, text⟩)
    (fun text => vfinish groups ⟨some groups, text⟩) where
  more text line ends := by
    have here : (strip line).getLast? = some '\\' := ends
    rw [readVline]
    dsimp only
    rw [if_pos here]
    rfl
  last text line ends := by
    have here : ¬ (strip line).getLast? = some '\\' := ends
    rw [readVline]
    dsimp only
    rw [if_neg here]
    rfl

/-- The statement on several lines. -/
theorem readVlines_layout {r : VReader} (idle : r.matchType = none) (leads : Blank before) {layout : Layout}
    (admitted : ∀ c ∈ layout.first.text, vdepsToken c = true) :
    (readWith readVline r (layout.lines fun tokens => before ++ head.line tokens)).1.matchType = none ∧
      (readWith readVline r (layout.lines fun tokens => before ++ head.line tokens)).2 =
        [head.statement layout.tokens] := by
  have heads : Heads head.line := head.heads (by decide)
  have all : (layout.first.text ++ ['\\']).takeWhile vdepsToken = layout.first.text ++ ['\\'] :=
    List.takeWhile_eq_self_iff.mpr fun c member => (List.mem_append.mp member).elim (admitted c)
      fun last => (List.mem_singleton.mp last) ▸ (by decide)
  have opened : readVline r (before ++ head.line layout.first.line) =
      (⟨some (head.groups (layout.first.text ++ ['\\'])), bare layout.first.text⟩, []) := by
    unfold readVline
    rw [idle, heads.strip_line leads, Piece.line, trimmed_backslash layout.first.blanks]
    dsimp only
    rw [matchVdeps_line, all]
    dsimp only
    rw [groups, List.getLast?_concat, if_pos rfl, List.dropLast_concat]
    rfl
  obtain ⟨joined, same, run⟩ := (folds (head.groups (layout.first.text ++ ['\\']))).run layout (bare layout.first.text)
  rw [Layout.lines, readWith_cons, opened]
  dsimp only
  rw [run]
  refine ⟨rfl, ?_⟩
  change [VStatement.mk head.first head.target (words head.targets) (words joined)] = _
  rw [same, words_bare]
  rfl

end VHead

/-- The tokens `whole` on one line, and the same tokens on several lines; blanks may stand in front of both. -/
structure Breaks (line : Text → Text) (admits : Char → Bool) (before whole before' : Text)
    (layout : Layout) : Prop where
  leads : Blank before
  leads' : Blank before'
  admitted : ∀ c ∈ whole, admits c = true
  ends : (strip (before ++ line whole)).getLast? ≠ some '\\'
  same : layout.tokens = words whole

theorem Breaks.first_admitted {line : Text → Text} {admits : Char → Bool} {before' whole : Text} {layout : Layout}
    (breaks : Breaks line admits before whole before' layout) (blanks : ∀ c, blank c = true → admits c = true) :
    ∀ c ∈ layout.first.text, admits c = true :=
  fun c member => (layout.mem_first breaks.same member).elim (blanks c) (breaks.admitted c)

/-- A statement that is broken between its tokens gives what it gives on one line, and the lines behind it are read in
the same way: in a `mk.deps` file and in a virtual file. -/
theorem statements_folded {before whole before' : Text} {layout : Layout} (above below : List Text) :
    (∀ opening : Opening, Breaks opening.line opening.admits before whole before' layout →
      (readWith readLine {} above).1.matchType = none →
      readDeps (above ++ layout.lines (fun tokens => before' ++ opening.line tokens) ++ below) =
        readDeps (above ++ (before ++ opening.line whole) :: below)) ∧
    (∀ head : VHead, Breaks head.line vdepsToken before whole before' layout →
      (readWith readVline {} above).1.matchType = none →
      readVdeps (above ++ layout.lines (fun tokens => before' ++ head.line tokens) ++ below) =
        readVdeps (above ++ (before ++ head.line whole) :: below)) := by
  refine ⟨fun opening breaks idle => ?_, fun head breaks idle => ?_⟩
  · obtain ⟨text, same, folded⟩ := opening.readLines_layout idle breaks.leads'
      (breaks.first_admitted fun c => opening.admits_blank)
    have one := opening.readLine_whole idle breaks.leads breaks.admitted breaks.ends (same.trans breaks.same)
    have rest := @readWith_agree _ _ readLine Alike (fun r r' line alike => readLine_agree alike line) _ _
      (folded.1.trans one.1.symm) below
    rw [readDeps, readDeps, List.append_assoc, readWith_append, readWith_append, readWith_append, readWith_cons]
    dsimp only
    rw [folded.2, one.2, rest]
  · obtain ⟨closed, folded⟩ := head.readVlines_layout idle breaks.leads'
      (breaks.first_admitted fun c => VHead.vdepsToken_blank)
    obtain ⟨closed', one⟩ := head.readVline_whole idle breaks.leads breaks.admitted breaks.ends
    have rest := readWith_agree VHead.readVline_alike (.inr ⟨closed, closed'⟩) below
    rw [readVdeps, readVdeps, List.append_assoc, readWith_append, readWith_append, readWith_append, readWith_cons]
    dsimp only
    rw [folded, one, rest, breaks.same]

private theorem blank_none : Blank [] := fun _ member => absurd member List.not_mem_nil

private theorem blank_gap : ∀ _ : Fin 6, Blank [] := fun _ => blank_none

private theorem last_ends : (bare " b".toList).getLast? ≠ some '\\' := by decide

private def threeLines : Layout := ⟨⟨[], [], blank_none⟩, [⟨"a ".toList, [], blank_none⟩], " b".toList, last_ends⟩

private def depsHead : Head "#DEPS" makeChar packageChar (fun c => blank c || wordChar c || oneOf "-.%:" c) where
  first := []
  target := "zlib".toList
  targets := "all".toList
  gap _ := []
  gaps := blank_gap
  first_chars := by decide
  target_chars := by decide
  targets_chars := by decide
  target_some := by decide

private def vdepsHead : VHead where
  first := "choice".toList
  target := "tls".toList
  targets := []
  gap _ := []
  gaps := blank_gap
  first_chars := by decide
  target_chars := by decide
  targets_chars := by decide
  target_some := by decide
  first_some := by decide

/-- A statement of each file, with a line behind it. -/
theorem three_lines :
    readDeps (threeLines.lines (Opening.line (.deps depsHead)) ++ ["#INCDEPS: c".toList]) =
        readDeps [(Opening.deps depsHead).line "a b".toList, "#INCDEPS: c".toList] ∧
      readVdeps (threeLines.lines vdepsHead.line ++ []) = readVdeps [vdepsHead.line "a b".toList] :=
  ⟨(@statements_folded [] "a b".toList [] threeLines [] ["#INCDEPS: c".toList]).1 (.deps depsHead)
      ⟨blank_none, blank_none, by decide, by decide, by decide⟩ rfl,
    (@statements_folded [] "a b".toList [] threeLines [] []).2 vdepsHead
      ⟨blank_none, blank_none, by decide, by decide, by decide⟩ rfl⟩

section Flag

variable {reg reg' : Registry} {item item' : Item} {dep : Text}

theorem addWeak_featurecfg (item : Item) (isVirtual : Bool) (deps : List Text) :
    (item.addWeak isVirtual deps).featurecfg = item.featurecfg := by
  cases isVirtual <;> rfl

theorem addStrong_featurecfg (item : Item) (isVirtual : Bool) (dep : Text) :
    (item.addStrong isVirtual dep).featurecfg = item.featurecfg := by
  cases isVirtual <;> rfl

theorem addAlternatives_featurecfg {subdeps : List Text} (added : item.addAlternatives dep subdeps = some item') :
    item'.featurecfg = item.featurecfg := by
  induction subdeps generalizing item with
  | nil => exact (congrArg Item.featurecfg (Option.some.inj added)).symm
  | cons subdep subdeps ih =>
    cases subdep with
    | nil => exact absurd added (Option.some_ne_none _).symm
    | cons c rest =>
      unfold Item.addAlternatives at added
      split at added
      · exact (ih added).trans rfl
      · exact (ih added).trans rfl

theorem addMarked_featurecfg {isVirtual : Bool} {token : Text} (added : item.addMarked isVirtual token = some item') :
    item'.featurecfg = item.featurecfg := by
  have weak (item : Item) (num : ℕ) (dep : Text) :
      (if num ≠ 0 then item.addWeak isVirtual [dep] else item).featurecfg = item.featurecfg := by
    split
    · exact addWeak_featurecfg ..
    · rfl
  have select (item : Item) (num : ℕ) (dep : Text) : (if num = 2 then { item with select := item.select ++ [dep] }
      else { item with imply := item.imply ++ [dep] }).featurecfg = item.featurecfg := by
    split <;> rfl
  simp only [Item.addMarked, Option.bind_eq_bind, Option.bind_some] at added
  split at added
  · split at added
    · obtain ⟨chosen, all, last⟩ := Option.bind_eq_some_iff.mp added
      rw [← Option.some.inj last, weak, select, addAlternatives_featurecfg all]
    · rw [← Option.some.inj added, weak, select]
  · rw [← Option.some.inj added, weak]

/-- What the loop knows of its item is what `__set_item_deps` makes of the tokens. -/
theorem setItemDep_featurecfg (set : setItemDep reg item dep = some (reg', item')) :
    item'.featurecfg = (item.featurecfg || isFeaturecfg dep) := by
  have flag : isFeaturecfg dep =
      decide ((if dep.head? = some '*' then dep.drop 1 else dep) = "featurecfg".toList) := by
    have plain : "featurecfg".toList = 'f' :: "eaturecfg".toList := by decide
    have marked : "*featurecfg".toList = '*' :: "featurecfg".toList := by decide
    cases dep with
    | nil => decide
    | cons c rest =>
      by_cases star : c = '*'
      · subst star
        rw [isFeaturecfg, marked, plain]
        simp
      · rw [isFeaturecfg, marked]
        simp [star]
  rw [flag]
  unfold setItemDep at set
  dsimp only at set
  generalize (if dep.head? = some '*' then dep.drop 1 else dep) = bare at set ⊢
  have done {reg₁ reg₂ : Registry} {item₁ : Item} (same : some (reg₁, item₁) = some (reg₂, item')) : item₁ = item' :=
    (Prod.ext_iff.mp (Option.some.inj same)).2
  by_cases feature : bare = "featurecfg".toList
  · subst feature
    rw [if_neg (by decide), if_neg (by decide), if_neg (by decide), if_pos rfl] at set
    rw [← done set, decide_eq_true rfl, Bool.or_true]
  rw [decide_eq_false feature, Bool.or_false]
  by_cases kconfig : bare = "kconfig".toList
  · rw [if_pos kconfig] at set
    rw [← done set]
  by_cases nokconfig : bare = "nokconfig".toList
  · rw [if_neg kconfig, if_pos nokconfig] at set
    rw [← done set]
  by_cases versioncfg : bare = "versioncfg".toList
  · rw [if_neg kconfig, if_neg nokconfig, if_pos versioncfg] at set
    rw [← done set]
  rw [if_neg kconfig, if_neg nokconfig, if_neg versioncfg, if_neg feature] at set
  by_cases unselect : bare = "unselect".toList
  · rw [if_pos unselect] at set
    rw [← done set]
  by_cases selected : bare = "selected".toList
  · rw [if_neg unselect, if_pos selected] at set
    rw [← done set]
  rw [if_neg unselect, if_neg selected] at set
  cases bare with
  | nil => exact absurd set (Option.some_ne_none _).symm
  | cons c rest =>
    dsimp only at set
    split at set
    · rw [← done set]
    split at set
    · rw [← done set]
    split at set
    · obtain ⟨found, added, same⟩ := Option.map_eq_some_iff.mp set
      rw [← done (congrArg some same), addMarked_featurecfg added]
    split at set
    · rw [← done set]
    split at set
    · rw [← done set]
      exact addWeak_featurecfg ..
    · rw [← done set, addStrong_featurecfg]

/-- The flag for all tokens of a statement. -/
theorem setItemDeps_featurecfg {deps : List Text} (set : setItemDeps reg item deps = some (reg', item')) :
    item'.featurecfg = (item.featurecfg || deps.any isFeaturecfg) := by
  induction deps generalizing reg item with
  | nil =>
    have same : item = item' := (Prod.ext_iff.mp (Option.some.inj set)).2
    rw [← same]
    exact (Bool.or_false _).symm
  | cons dep deps ih =>
    obtain ⟨found, one, rest⟩ := Option.bind_eq_some_iff.mp set
    rw [ih rest, setItemDep_featurecfg one, List.any_cons, Bool.or_assoc]

end Flag

end CBuild.Soundness.LineFolding
