import CBuild.Kconfig.Expr

/-! # Reading what a script writes

How expressions put together from parts are read. A part that is an operand keeps its meaning next
to any operator. Joined by `&&` or by `||` the parts mean what they say, and brackets make an
operand of an expression. Operands joined by `||` and then `&&` group at the last two.
-/

namespace CBuild.Kconfig

theorem scan_cons {mode next final : Mode} {c : Char} {rest : Text} {tokens later : List Token}
    (here : step mode c = some (tokens, next)) (there : scan next rest = some (later, final)) :
    scan mode (c :: rest) = some (tokens ++ later, final) := by
  simp [scan, here, there]

theorem scan_append {mode next final : Mode} {first second : Text} {tokens later : List Token}
    (before : scan mode first = some (tokens, next)) (after : scan next second = some (later, final)) :
    scan mode (first ++ second) = some (tokens ++ later, final) := by
  induction first generalizing mode tokens with
  | nil =>
    cases before
    exact after
  | cons c first ih =>
    simp only [scan, bind, Option.bind_eq_some_iff] at before
    obtain ⟨⟨out, stepped⟩, here, ⟨more, reached⟩, there, result⟩ := before
    cases result
    rw [List.cons_append, List.append_assoc]
    exact scan_cons here (ih there)

/-- The text is complete, and these are its tokens. -/
def Lexes (text : Text) (tokens : List Token) : Prop :=
  ∃ out mode last, scan .blank text = some (out, mode) ∧ mode.flush = some last ∧ tokens = out ++ last

theorem tokenize_of_lexes {text : Text} {tokens : List Token} (lexed : Lexes text tokens) :
    tokenize text = some tokens := by
  obtain ⟨out, mode, last, scanned, flushed, rfl⟩ := lexed
  simp [tokenize, scanned, flushed]

/-- A character that is not of a symbol ends what a complete text holds back. -/
theorem Lexes.before {text rest : Text} {tokens next later : List Token} {mode final : Mode} {c : Char}
    (lexed : Lexes text tokens) (other : symbolChar c = false) (started : start c = some (next, mode))
    (scanned : scan mode rest = some (later, final)) :
    scan .blank (text ++ c :: rest) = some (tokens ++ (next ++ later), final) := by
  obtain ⟨out, held, last, before, flushed, rfl⟩ := lexed
  rw [List.append_assoc, ← List.append_assoc last]
  refine scan_append before (scan_cons ?_ scanned)
  cases held with
  | blank =>
    cases flushed
    exact started
  | symbol read =>
    cases flushed
    simp [step, other, started]
  | _ => contradiction

/-- A text that goes on after a separator. -/
private theorem Lexes.separated {first second sep : Text} {tokens later : List Token} {token : Token}
    (before : Lexes first tokens) (after : Lexes second later)
    (separator : scan .blank sep = some ([token], .blank)) :
    Lexes (first ++ (' ' :: sep ++ second)) (tokens ++ token :: later) := by
  obtain ⟨out, mode, last, scanned, flushed, rfl⟩ := after
  have rest : scan .blank (sep ++ second) = some ([token] ++ out, mode) := scan_append separator scanned
  exact ⟨tokens ++ ([] ++ ([token] ++ out)), mode, last, before.before (c := ' ') (by decide) rfl rest,
    flushed, by simp⟩

theorem Lexes.and {first second : Text} {tokens later : List Token} (before : Lexes first tokens)
    (after : Lexes second later) : Lexes (first ++ (" && ".toList ++ second)) (tokens ++ .and :: later) :=
  @Lexes.separated _ _ "&& ".toList _ _ _ before after rfl

theorem Lexes.or {first second : Text} {tokens later : List Token} (before : Lexes first tokens)
    (after : Lexes second later) : Lexes (first ++ (" || ".toList ++ second)) (tokens ++ .or :: later) :=
  @Lexes.separated _ _ "|| ".toList _ _ _ before after rfl

theorem Lexes.bracket {text : Text} {tokens : List Token} (lexed : Lexes text tokens) :
    Lexes ('(' :: (text ++ [')'])) (.open :: (tokens ++ [.close])) :=
  ⟨[.open] ++ (tokens ++ ([.close] ++ [])), .blank, [],
    scan_cons rfl (lexed.before (c := ')') (by decide) rfl rfl), rfl, by simp⟩

private theorem scan_symbol (read : Text) {name : Text} (symbol : ∀ c ∈ name, symbolChar c = true) :
    scan (.symbol read) name = some ([], .symbol (read ++ name)) := by
  induction name generalizing read with
  | nil => simp [scan]
  | cons c name ih =>
    have here : step (.symbol read) c = some ([], .symbol (read ++ [c])) := by
      simp [step, symbol c (List.mem_cons_self ..)]
    have later := ih (read ++ [c]) fun d member => symbol d (List.mem_cons_of_mem _ member)
    simpa using scan_cons here later

/-- A nonempty text of symbol characters starts a symbol. -/
private theorem scan_name {name : Text} (nonempty : name ≠ []) (symbol : ∀ c ∈ name, symbolChar c = true)
    {mode : Mode} {tokens : List Token}
    (starts : ∀ c, symbolChar c = true → step mode c = some (tokens, .symbol [c])) :
    scan mode name = some (tokens, .symbol name) := by
  obtain ⟨c, rest, rfl⟩ := List.exists_cons_of_ne_nil nonempty
  have later := scan_symbol [c] fun d member => symbol d (List.mem_cons_of_mem _ member)
  simpa using scan_cons (starts c (symbol c (List.mem_cons_self ..))) later

theorem Lexes.symbol {name : Text} (nonempty : name ≠ []) (symbol : ∀ c ∈ name, symbolChar c = true) :
    Lexes name [.operand (.symbol name)] :=
  ⟨[], .symbol name, _, scan_name nonempty symbol fun c here => by simp [step, start, here], rfl, rfl⟩

theorem Lexes.notSymbol {name : Text} (nonempty : name ≠ [])
    (symbol : ∀ c ∈ name, symbolChar c = true) :
    Lexes ('!' :: name) [.not, .operand (.symbol name)] := by
  have later := @scan_name _ nonempty symbol .bang [.not] fun c here => by
    have other : c ≠ '=' := fun same => absurd (same ▸ here) (by decide)
    simp [step, start, here, other]
  exact ⟨[] ++ [.not], .symbol name, _, scan_cons rfl later, rfl, rfl⟩

private theorem scan_quoted (read : Text) {content : Text} (plain : '"' ∉ content) :
    scan (.quoted read) (content ++ ['"']) = some ([.operand (.quoted (read ++ content))], .blank) := by
  induction content generalizing read with
  | nil => simp [scan, step]
  | cons c content ih =>
    have here : step (.quoted read) c = some ([], .quoted (read ++ [c])) := by
      simp [step, show c ≠ '"' from fun same => plain (same ▸ List.mem_cons_self ..)]
    have later := ih (read ++ [c]) fun member => plain (List.mem_cons_of_mem _ member)
    simpa using scan_cons here later

def quote (content : Text) : Text := '"' :: (content ++ ['"'])

private theorem scan_quote {content : Text} (plain : '"' ∉ content) :
    scan .blank (quote content) = some ([.operand (.quoted content)], .blank) :=
  @scan_cons _ _ _ _ _ [] _ rfl (scan_quoted [] plain)

/-- Two quoted texts with `=` or `!=` between them. -/
theorem Lexes.compare (same : Bool) {left right : Text} (plainLeft : '"' ∉ left)
    (plainRight : '"' ∉ right) :
    Lexes (quote left ++ ((if same then ['='] else ['!', '=']) ++ quote right))
      [.operand (.quoted left), .compare same, .operand (.quoted right)] := by
  have sign : scan .blank (if same then ['='] else ['!', '=']) = some ([.compare same], .blank) := by
    cases same <;> rfl
  exact ⟨_, .blank, [], scan_append (scan_quote plainLeft) (scan_append sign (scan_quote plainRight)),
    rfl, rfl⟩

/-- What follows is not a comparison sign. -/
def Stops (rest : List Token) : Prop := ∀ same, rest.head? ≠ some (.compare same)

/-- Where an operand is expected the tokens are read as one, for the expression. -/
def IsOperand (tokens : List Token) (e : Expr) : Prop :=
  ∀ top outer rest, top.negated = false → Stops rest →
    read true top outer (tokens ++ rest) = read false (top.operand e) outer rest

theorem isOperand_operand (o : Operand) : IsOperand [.operand o] (.operand o) := by
  intro top outer rest _ stops
  rcases rest with _ | ⟨token, rest⟩
  · rfl
  · cases token with
    | compare same => exact absurd rfl (stops same)
    | _ => rfl

theorem isOperand_not (o : Operand) : IsOperand [.not, .operand o] (.not (.operand o)) := by
  intro top outer rest plain stops
  have negated : (top.negate.operand (.operand o)) = top.operand (.not (.operand o)) := by
    simp [Frame.negate, Frame.operand, plain]
  have started : read true top outer ([.not, .operand o] ++ rest) =
      read true top.negate outer ([.operand o] ++ rest) := rfl
  rcases rest with _ | ⟨token, rest⟩
  · rw [started, ← negated]; rfl
  · cases token with
    | compare same => exact absurd rfl (stops same)
    | _ => rw [started, ← negated]; rfl

theorem isOperand_compare (same : Bool) (left right : Operand) :
    IsOperand [.operand left, .compare same, .operand right] (.compare same left right) :=
  fun _ _ _ _ _ => rfl

/-- The frame that reading a whole expression leaves, in any context. -/
def IsExpr (tokens : List Token) (frame : Frame) : Prop :=
  ∀ outer rest, Stops rest → read true {} outer (tokens ++ rest) = read false frame outer rest

theorem isOperand_bracket {tokens : List Token} {frame : Frame} {e : Expr} (expr : IsExpr tokens frame)
    (value : frame.value = some e) : IsOperand (.open :: (tokens ++ [.close])) e := by
  intro top outer rest _ _
  calc read true top outer (.open :: (tokens ++ [.close]) ++ rest)
      = read true {} (top :: outer) (tokens ++ (.close :: rest)) := by simp [read]
    _ = read false frame (top :: outer) (.close :: rest) := expr _ _ (by simp [Stops])
    _ = read false (top.operand e) outer rest := by simp [read, value]

theorem read_of_isExpr {tokens : List Token} {frame : Frame} (expr : IsExpr tokens frame) :
    read true {} [] tokens = frame.value := by
  have whole := expr [] [] (by simp [Stops])
  rwa [List.append_nil] at whole

/-- What the alternatives before the last one, and the conjuncts of the last one, say. -/
structure Frame.Means (frame : Frame) (a : Assignment) (before last : Bool) : Prop where
  plain : frame.negated = false
  alternatives : frame.alternatives.elim false (Expr.eval a) = before
  conjuncts : frame.conjuncts.map (Expr.eval a) = some last

theorem Frame.Means.value {frame : Frame} {a : Assignment} {before last : Bool}
    (means : frame.Means a before last) : ∃ e, frame.value = some e ∧ e.eval a = (before || last) := by
  obtain ⟨plain, alternatives, conjuncts⟩ := means
  obtain ⟨e, found, meaning⟩ := Option.map_eq_some_iff.mp conjuncts
  cases other : frame.alternatives with
  | none => exact ⟨e, by simp [Frame.value, other, found], by simp [← alternatives, other, meaning]⟩
  | some earlier =>
    exact ⟨.or earlier e, by simp [Frame.value, other, found],
      by simp [Expr.eval, ← alternatives, other, meaning]⟩

/-- The text is an operand wherever it stands, with this meaning. -/
def OperandText (text : Text) (meaning : Assignment → Bool) : Prop :=
  ∃ tokens e, Lexes text tokens ∧ IsOperand tokens e ∧ ∀ a, e.eval a = meaning a

/-- The text is an expression: the meaning of its last alternative and of those before it. -/
def ExprText (text : Text) (before last : Assignment → Bool) : Prop :=
  ∃ tokens frame, Lexes text tokens ∧ IsExpr tokens frame ∧ ∀ a, frame.Means a (before a) (last a)

abbrev Part := Text × (Assignment → Bool)

theorem OperandText.symbol {name : Text} (nonempty : name ≠ []) (symbol : ∀ c ∈ name, symbolChar c = true) :
    OperandText name fun a => a.symbols name :=
  ⟨_, _, .symbol nonempty symbol, isOperand_operand _, fun a => by
    cases value : a.symbols name <;> simp [Expr.eval, Operand.value, value]⟩

theorem OperandText.notSymbol {name : Text} (nonempty : name ≠ [])
    (symbol : ∀ c ∈ name, symbolChar c = true) : OperandText ('!' :: name) fun a => !a.symbols name :=
  ⟨_, _, .notSymbol nonempty symbol, isOperand_not _, fun a => by
    cases value : a.symbols name <;> simp [Expr.eval, Operand.value, value]⟩

theorem OperandText.compare (same : Bool) {left right : Text} (plainLeft : '"' ∉ left)
    (plainRight : '"' ∉ right) :
    OperandText (quote left ++ ((if same then ['='] else ['!', '=']) ++ quote right))
      fun a => decide ((Operand.quoted left).value a = (Operand.quoted right).value a) == same :=
  ⟨_, _, .compare same plainLeft plainRight, isOperand_compare _ _ _, fun _ => rfl⟩

theorem readExpr_of_exprText {text : Text} {before last : Assignment → Bool}
    (expr : ExprText text before last) :
    ∃ e, readExpr text = some e ∧ ∀ a, e.eval a = (before a || last a) := by
  obtain ⟨tokens, frame, lexed, isExpr, means⟩ := expr
  obtain ⟨e, value, _⟩ := (means ⟨fun _ => false, fun _ => []⟩).value
  refine ⟨e, ?_, fun a => ?_⟩
  · simp [readExpr, tokenize_of_lexes lexed, read_of_isExpr isExpr, value]
  · obtain ⟨e', value', meaning⟩ := (means a).value
    rwa [Option.some.inj (value.symm.trans value')]

theorem OperandText.bracket {text : Text} {before last : Assignment → Bool}
    (expr : ExprText text before last) :
    OperandText ('(' :: (text ++ [')'])) fun a => before a || last a := by
  obtain ⟨tokens, frame, lexed, isExpr, means⟩ := expr
  obtain ⟨e, value, _⟩ := (means ⟨fun _ => false, fun _ => []⟩).value
  refine ⟨_, e, lexed.bracket, isOperand_bracket isExpr value, fun a => ?_⟩
  obtain ⟨e', value', meaning⟩ := (means a).value
  rwa [Option.some.inj (value.symm.trans value')]

/-- Operands joined by `&&`, read after what a frame has already. -/
private theorem read_conjuncts {parts : List Part} (nonempty : parts ≠ [])
    (operands : ∀ part ∈ parts, OperandText part.1 part.2) :
    ∃ tokens, Lexes (" && ".toList.intercalate (parts.map Prod.fst)) tokens ∧
      ∀ top : Frame, top.negated = false → ∃ frame : Frame, frame.negated = false ∧
        frame.alternatives = top.alternatives ∧
        (∀ a, frame.conjuncts.map (Expr.eval a) =
          some (top.conjuncts.elim true (Expr.eval a) && parts.all (·.2 a))) ∧
        ∀ outer rest, Stops rest → read true top outer (tokens ++ rest) = read false frame outer rest := by
  induction parts with
  | nil => contradiction
  | cons part parts ih =>
    obtain ⟨here, e, lexed, isOperand, meaning⟩ := operands part (List.mem_cons_self ..)
    have conjunct (top : Frame) (plain : top.negated = false) (a : Assignment) :
        (top.operand e).conjuncts.map (Expr.eval a) =
          some (top.conjuncts.elim true (Expr.eval a) && part.2 a) := by
      cases before : top.conjuncts <;> simp [Frame.operand, plain, before, Expr.eval, meaning]
    cases parts with
    | nil =>
      refine ⟨here, by simpa using lexed, fun top plain => ?_⟩
      exact ⟨top.operand e, rfl, rfl, by simpa using conjunct top plain, fun outer rest stops =>
        isOperand top outer rest plain stops⟩
    | cons next parts =>
      obtain ⟨there, later, reads⟩ := ih (by simp) fun other member =>
        operands other (List.mem_cons_of_mem _ member)
      refine ⟨here ++ .and :: there, ?_, fun top plain => ?_⟩
      · have joined := lexed.and later
        simpa [List.intercalate_cons_cons] using joined
      · obtain ⟨frame, framePlain, sameBefore, conjuncts, readRest⟩ := reads (top.operand e) rfl
        refine ⟨frame, framePlain, sameBefore, fun a => ?_, fun outer rest stops => ?_⟩
        · obtain ⟨c, found, value⟩ := Option.map_eq_some_iff.mp (conjunct top plain a)
          rw [conjuncts a, found]
          simp [value, Bool.and_assoc]
        · have first := isOperand top outer (.and :: there ++ rest) plain (by simp [Stops])
          rw [List.append_assoc, first]
          exact readRest outer rest stops

/-- Operands joined by `||`, read where a frame begins its next alternative. -/
private theorem read_alternatives {init : List Part} {last : Part}
    (operands : ∀ part ∈ init ++ [last], OperandText part.1 part.2) :
    ∃ tokens, Lexes (" || ".toList.intercalate ((init ++ [last]).map Prod.fst)) tokens ∧
      ∀ top : Frame, top.negated = false → top.conjuncts = none → ∃ frame : Frame,
        (∀ a, frame.Means a (top.alternatives.elim false (Expr.eval a) || init.any (·.2 a)) (last.2 a)) ∧
        ∀ outer rest, Stops rest → read true top outer (tokens ++ rest) = read false frame outer rest := by
  induction init with
  | nil =>
    obtain ⟨here, e, lexed, isOperand, meaning⟩ := operands last (by simp)
    refine ⟨here, by simpa using lexed, fun top plain begins => ⟨top.operand e, fun a => ?_, ?_⟩⟩
    · exact ⟨rfl, by simp [Frame.operand], by simp [Frame.operand, plain, begins, meaning]⟩
    · exact fun outer rest stops => isOperand top outer rest plain stops
  | cons part init ih =>
    obtain ⟨here, e, lexed, isOperand, meaning⟩ := operands part (by simp)
    obtain ⟨there, later, reads⟩ := ih fun other member => operands other (by simp_all)
    refine ⟨here ++ .or :: there, ?_, fun top plain begins => ?_⟩
    · have joined := lexed.or later
      rw [List.cons_append, List.map_cons, List.intercalate_cons_of_ne_nil (by simp), List.append_assoc]
      exact joined
    · obtain ⟨frame, means, readRest⟩ := reads (top.operand e).alternative rfl rfl
      refine ⟨frame, fun a => ?_, fun outer rest stops => ?_⟩
      · have before : (top.operand e).alternative.alternatives.elim false (Expr.eval a) =
            (top.alternatives.elim false (Expr.eval a) || part.2 a) := by
          cases earlier : top.alternatives <;>
            simp [Frame.alternative, Frame.value, Frame.operand, plain, begins, earlier, Expr.eval, meaning]
        have all := means a
        rw [before, Bool.or_assoc] at all
        simpa using all
      · have first := isOperand top outer (.or :: there ++ rest) plain (by simp [Stops])
        rw [List.append_assoc, first]
        exact readRest outer rest stops

/-- Operands joined by `&&` all hold. -/
theorem ExprText.and {parts : List Part} (nonempty : parts ≠ [])
    (operands : ∀ part ∈ parts, OperandText part.1 part.2) :
    ExprText (" && ".toList.intercalate (parts.map Prod.fst)) (fun _ => false)
      fun a => parts.all (·.2 a) := by
  obtain ⟨tokens, lexed, reads⟩ := read_conjuncts nonempty operands
  obtain ⟨frame, plain, alternatives, conjuncts, readRest⟩ := reads {} rfl
  exact ⟨tokens, frame, lexed, readRest, fun a =>
    ⟨plain, by simp [alternatives], by simpa using conjuncts a⟩⟩

/-- One of operands joined by `||` holds. -/
theorem ExprText.or {init : List Part} {last : Part}
    (operands : ∀ part ∈ init ++ [last], OperandText part.1 part.2) :
    ExprText (" || ".toList.intercalate ((init ++ [last]).map Prod.fst)) (fun a => init.any (·.2 a)) last.2 := by
  obtain ⟨tokens, lexed, reads⟩ := read_alternatives operands
  obtain ⟨frame, means, readRest⟩ := reads {} rfl rfl
  exact ⟨tokens, frame, lexed, readRest, by simpa using means⟩

/-- A conjunct after operands joined by `||` belongs to the last of them. -/
theorem ExprText.or_and {init : List Part} {last : Part} {text : Text} {meaning : Assignment → Bool}
    (operands : ∀ part ∈ init ++ [last], OperandText part.1 part.2) (added : OperandText text meaning) :
    ExprText (" || ".toList.intercalate ((init ++ [last]).map Prod.fst) ++ (" && ".toList ++ text))
      (fun a => init.any (·.2 a)) fun a => last.2 a && meaning a := by
  obtain ⟨tokens, lexed, reads⟩ := read_alternatives operands
  obtain ⟨frame, means, readRest⟩ := reads {} rfl rfl
  obtain ⟨more, e, lexedMore, isOperand, evaluates⟩ := added
  have plain : frame.negated = false := (means ⟨fun _ => false, fun _ => []⟩).plain
  refine ⟨tokens ++ .and :: more, frame.operand e, lexed.and lexedMore, fun outer rest stops => ?_, fun a => ?_⟩
  · rw [List.append_assoc, readRest outer _ (by simp [Stops])]
    exact isOperand frame outer rest plain stops
  · obtain ⟨_, alternatives, conjuncts⟩ := means a
    obtain ⟨c, found, value⟩ := Option.map_eq_some_iff.mp conjuncts
    exact ⟨rfl, by simpa [Frame.operand] using alternatives,
      by simp [Frame.operand, plain, found, Expr.eval, value, evaluates]⟩

end CBuild.Kconfig
