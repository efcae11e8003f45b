import CBuild.Kconfig.Reading
import CBuild.Data.List
import CBuild.Model.GenBuildChain.WriteKconfig

/-! # The meaning of the `depends on` line

Read with the precedence of Kconfig, the line means what the dependency list means, but for one
case: an or-rule or an environment dependency with several values that is the only conjunct is
written without brackets, and a missing source path then adds a conjunct that belongs to its last
alternative only.
-/

namespace CBuild.Soundness.DependsLine

open CBuild.Data CBuild.Text CBuild.Kconfig CBuild.Model.GenBuildChain

/-- The characters of the values of an environment dependency. -/
def valueChar (c : Char) : Bool := c ∉ ['"', ',', '=', '$', '\\']

/-- An environment dependency `NAME=v1,v2` or `NAME!=v1,v2`. -/
structure EnvDep where
  name : Name
  same : Bool
  values : List Text
  nonempty : values ≠ []
  plain : ∀ value ∈ values, ∀ c ∈ value, valueChar c = true

def EnvDep.sign (env : EnvDep) : Text := if env.same then ['='] else ['!', '=']

def EnvDep.text (env : EnvDep) : Text := env.name.text ++ (env.sign ++ [','].intercalate env.values)

/-- The dependency fields of an item that the line is written from, with the texts of its names
and of its environment dependences. Filtering leaves no weak rule empty. -/
structure Written (item : Item) (envs : List EnvDep) : Prop where
  names : ∀ dep ∈ item.asdeps ++ item.vsdeps ++ item.cdeps ++ item.wrule.flatten,
    ∃ name : Name, name.text = dep
  rules : ∀ rule ∈ item.wrule, rule ≠ []
  edeps : item.edeps = envs.map EnvDep.text

/-- The source path of the item is set, and missing. -/
def SrcMissing (pathExists : Text → Bool) (item : Item) : Prop :=
  item.src ≠ [] ∧ pathExists item.src = false

instance (pathExists : Text → Bool) (item : Item) : Decidable (SrcMissing pathExists item) :=
  inferInstanceAs (Decidable (_ ∧ _))

/-- What the dependency list of an item means. -/
structure Meets (prependFlag : Bool) (pathExists : Text → Bool) (item : Item) (envs : List EnvDep)
    (a : Assignment) : Prop where
  strong : ∀ dep ∈ item.asdeps ++ item.vsdeps, a.symbols (prependedSymbol prependFlag dep) = true
  conflict : ∀ dep ∈ item.cdeps, a.symbols (prependedSymbol prependFlag dep) = false
  weak : ∀ rule ∈ item.wrule, ∃ dep ∈ rule, a.symbols (prependedSymbol prependFlag dep) = true
  environment : ∀ env ∈ envs,
    if env.same then a.environment env.name.text ∈ env.values else a.environment env.name.text ∉ env.values
  src : SrcMissing pathExists item →
    a.symbols (prependedSymbol prependFlag srcPathExisted) = true

/-- The written line, if any, holds. -/
def LineHolds (deps : List Text) (a : Assignment) : Prop :=
  ∀ text, dependsExpr deps = some text → ∃ e, readExpr text = some e ∧ e.eval a = true

/-- The source path is missing, and the only other constraint is a disjunction: an or-rule with an
alternative before the last one other than the symbol of the missing path, or an environment
variable equal to one of several values. -/
def Unbracketed (prependFlag : Bool) (pathExists : Text → Bool) (item : Item) (envs : List EnvDep) : Prop :=
  SrcMissing pathExists item ∧ item.asdeps = [] ∧ item.vsdeps = [] ∧ item.cdeps = [] ∧
    ((∃ rule, item.wrule = [rule] ∧ envs = [] ∧ ∃ dep ∈ rule.dropLast,
        prependedSymbol prependFlag dep ≠ prependedSymbol prependFlag srcPathExisted) ∨
      (item.wrule = [] ∧ ∃ env, envs = [env] ∧ env.same = true ∧ 2 ≤ env.values.length))

private theorem symbolChar_toUpper {c : Char} (symbol : symbolChar c = true) :
    symbolChar c.toUpper = true := by
  unfold Char.toUpper
  split
  · next lower =>
    simp only [UInt32.le_iff_toNat_le] at lower
    simp only [symbolChar, Char.isAlphanum, Char.isAlpha, Char.isUpper, UInt32.le_iff_toNat_le]
    simp [UInt32.toNat_add] at lower ⊢
    grind
  · exact symbol

/-- Replacing a character leaves the others, and brings in those of the new text. -/
private theorem replace_char_all {p q : Char → Prop} {old : Char} {new text : Text}
    (kept : ∀ c, p c → c ≠ old → q c) (fresh : ∀ c ∈ new, q c) (all : ∀ c ∈ text, p c) :
    ∀ c ∈ replace [old] new text, q c := by
  intro c member
  rw [replace_char] at member
  obtain ⟨d, inside, here⟩ := List.mem_flatMap.mp member
  split at here
  · exact fresh c here
  · next other => exact List.mem_singleton.mp here ▸ kept d (all d inside) other

private theorem replace_char_ne_nil {old : Char} {new text : Text} (nonempty : text ≠ []) (fresh : new ≠ []) :
    replace [old] new text ≠ [] := by
  obtain ⟨c, rest, rfl⟩ := List.exists_cons_of_ne_nil nonempty
  rw [replace_char, List.flatMap_cons]
  split <;> simp [fresh]

/-- The symbol of a package is a symbol of Kconfig. -/
theorem symbolChar_prependedSymbol (prependFlag : Bool) (name : Name) :
    prependedSymbol prependFlag name.text ≠ [] ∧
      ∀ c ∈ prependedSymbol prependFlag name.text, symbolChar c = true := by
  have escaped : ∀ c ∈ escapeToupper name.text, symbolChar c = true := by
    intro c member
    obtain ⟨d, inside, rfl⟩ := List.mem_map.mp member
    refine symbolChar_toUpper (replace_char_all (q := fun c => symbolChar c = true)
      (p := fun c => symbolChar c = true ∨ c = '-') ?_ (by decide) ?_ d inside)
    · exact fun c kept other => kept.resolve_right other
    · refine replace_char_all (p := fun c => symbolChar c = true ∨ c = '-' ∨ c = '+') ?_ (by decide) ?_
      · exact fun c kept other => kept.imp_right (Or.resolve_right · other)
      · refine replace_char_all (p := fun c => nameChar c = true) ?_ (by decide) name.named
        intro c named other
        simp only [nameChar, symbolChar, Bool.or_eq_true, decide_eq_true_eq] at named ⊢
        tauto
  have nonempty : escapeToupper name.text ≠ [] := by
    rw [escapeToupper, upper, ne_eq, List.map_eq_nil_iff]
    exact replace_char_ne_nil (replace_char_ne_nil (replace_char_ne_nil name.nonempty (by decide))
      (by decide)) (by decide)
  cases prependFlag with
  | true =>
    refine ⟨by simp [prependedSymbol], fun c member => ?_⟩
    rcases List.mem_append.mp member with marker | inside
    · have plain : ∀ c ∈ "CONFIG_".toList, symbolChar c = true := by decide
      exact plain c (by simpa using marker)
    · exact escaped c inside
  | false => exact ⟨nonempty, escaped⟩

def symbolPart (prependFlag : Bool) (dep : Text) : Part :=
  (prependedSymbol prependFlag dep, fun a => a.symbols (prependedSymbol prependFlag dep))

def conflictPart (prependFlag : Bool) (dep : Text) : Part :=
  ('!' :: prependedSymbol prependFlag dep, fun a => !a.symbols (prependedSymbol prependFlag dep))

def rulePart (prependFlag bracketFlag : Bool) (rule : List Text) : Part :=
  (ruleConjunct prependFlag bracketFlag rule, fun a => rule.any fun dep => (symbolPart prependFlag dep).2 a)

def comparePart (env : EnvDep) (value : Text) : Part :=
  (envComparison env.sign env.name.text value, fun a => decide (a.environment env.name.text = value) == env.same)

theorem operand_symbolPart (prependFlag : Bool) (name : Name) :
    OperandText (symbolPart prependFlag name.text).1 (symbolPart prependFlag name.text).2 :=
  have symbol := symbolChar_prependedSymbol prependFlag name
  .symbol symbol.1 symbol.2

theorem operand_conflictPart (prependFlag : Bool) (name : Name) :
    OperandText (conflictPart prependFlag name.text).1 (conflictPart prependFlag name.text).2 :=
  have symbol := symbolChar_prependedSymbol prependFlag name
  .notSymbol symbol.1 symbol.2

theorem operand_comparePart {env : EnvDep} {value : Text} (member : value ∈ env.values) :
    OperandText (comparePart env value).1 (comparePart env value).2 := by
  have plain := env.plain value member
  have noQuote : '"' ∉ value := fun inside => absurd (plain _ inside) (by decide)
  have nameNoQuote : '"' ∉ '$' :: '(' :: (env.name.text ++ [')']) := by
    simp [env.name.not_mem (c := '"') (by decide)]
  have variableValue (a : Assignment) : (Operand.quoted ('$' :: '(' :: (env.name.text ++ [')']))).value a =
      a.environment env.name.text := by
    rw [Operand.value, reference?_variable]
  have noDollar : '$' ∉ value := fun inside => absurd (plain _ inside) (by decide)
  have literal (a : Assignment) : (Operand.quoted value).value a = value := by
    simp [Operand.value, reference?_of_not_mem noDollar]
  have operand := OperandText.compare env.same nameNoQuote noQuote
  simp only [variableValue, literal] at operand
  have text : (comparePart env value).1 = quote ('$' :: '(' :: (env.name.text ++ [')'])) ++
      ((if env.same then ['='] else ['!', '=']) ++ quote value) := by
    simp [comparePart, envComparison, quote, EnvDep.sign]
  rw [text]
  exact operand

/-- Operands joined by `||`, in the order of a list. -/
theorem exprText_orJoin {parts : List Part} (nonempty : parts ≠ [])
    (operands : ∀ part ∈ parts, OperandText part.1 part.2) :
    ∃ before last, ExprText (orJoin (parts.map Prod.fst)) before last ∧
      ∀ a, (before a || last a) = parts.any (·.2 a) := by
  obtain ⟨init, last, rfl⟩ := exists_append_singleton nonempty
  exact ⟨_, _, .or operands, fun a => by simp⟩

theorem operand_rulePart (prependFlag bracketFlag : Bool) {rule : List Text} (nonempty : rule ≠ [])
    (names : ∀ dep ∈ rule, ∃ name : Name, name.text = dep)
    (single : bracketFlag = true ∨ rule.length = 1) :
    OperandText (rulePart prependFlag bracketFlag rule).1 (rulePart prependFlag bracketFlag rule).2 := by
  have operands : ∀ part ∈ rule.map (symbolPart prependFlag), OperandText part.1 part.2 := by
    intro part member
    obtain ⟨dep, inside, rfl⟩ := List.mem_map.mp member
    obtain ⟨name, rfl⟩ := names dep inside
    exact operand_symbolPart prependFlag name
  match rule, nonempty with
  | [dep], _ =>
    have operand := operands (symbolPart prependFlag dep) (by simp)
    simpa [rulePart, ruleConjunct, symbolPart] using operand
  | dep :: next :: rest, _ =>
    obtain rfl : bracketFlag = true := single.resolve_right (by simp)
    obtain ⟨before, last, expr, meaning⟩ := exprText_orJoin (by simp) operands
    have operand := OperandText.bracket expr
    simp only [meaning] at operand
    have text : (rulePart prependFlag true (dep :: next :: rest)).1 =
        '(' :: (orJoin ((dep :: next :: rest).map (symbolPart prependFlag) |>.map Prod.fst) ++ [')']) := by
      rw [List.map_map]
      rfl
    rw [text]
    simpa [rulePart, Function.comp_def] using operand

def envParts (bracketFlag : Bool) (env : EnvDep) : List Part :=
  if env.same then
    let alternatives := orJoin (env.values.map fun value => (comparePart env value).1)
    [(if bracketFlag then bracketed alternatives else alternatives,
      fun a => env.values.any fun value => (comparePart env value).2 a)]
  else env.values.map (comparePart env)

theorem envConjuncts_text (bracketFlag : Bool) (env : EnvDep) :
    envConjuncts bracketFlag env.text = some ((envParts bracketFlag env).map Prod.fst) := by
  have noEqual : '=' ∉ [','].intercalate env.values := by
    intro member
    rcases mem_intercalate member with comma | ⟨value, inside, here⟩
    · exact absurd comma (by decide)
    · exact absurd (env.plain value inside _ here) (by decide)
  have noSign : ¬ ['!', '='] <:+: [','].intercalate env.values :=
    fun inside => noEqual (inside.subset (by simp))
  have values : splitOn [','] ([','].intercalate env.values) = env.values :=
    splitOn_intercalate env.nonempty fun value inside here =>
      absurd (env.plain value inside _ here) (by decide)
  have bang : '!' ∉ env.name.text := env.name.not_mem (by decide)
  cases same : env.same with
  | true =>
    have absent : ¬ "!=".toList <:+: env.text := by
      rw [EnvDep.text, EnvDep.sign, same]
      refine not_infix_append bang fun inside => ?_
      rcases List.infix_cons_iff.mp inside with start | later
      · exact absurd (List.cons_prefix_cons.mp start).1 (by decide)
      · exact noSign later
    have parts : splitOn ['='] env.text = [env.name.text, [','].intercalate env.values] := by
      rw [EnvDep.text, EnvDep.sign, same]
      refine (@splitOn_part _ [] _ (env.name.not_mem (by decide)) _).trans ?_
      rw [splitOn_of_absent fun inside => noEqual (inside.subset (by simp))]
    rw [envConjuncts, if_neg absent, parts]
    simp only [values, envParts, same, if_true, List.map_cons, List.map_nil, comparePart, EnvDep.sign]
  | false =>
    have present : "!=".toList <:+: env.text := by
      rw [EnvDep.text, EnvDep.sign, same]
      exact ⟨env.name.text, [','].intercalate env.values, by simp⟩
    have parts : splitOn "!=".toList env.text = [env.name.text, [','].intercalate env.values] := by
      rw [EnvDep.text, EnvDep.sign, same]
      refine (@splitOn_part _ ['='] _ bang _).trans ?_
      rw [splitOn_of_absent noSign]
    rw [envConjuncts, if_pos present, parts]
    simp [values, envParts, same, comparePart, EnvDep.sign]

def lineParts (prependFlag ruleFlag envFlag : Bool) (pathExists : Text → Bool) (item : Item)
    (envs : List EnvDep) : List Part :=
  item.asdeps.map (symbolPart prependFlag) ++ item.vsdeps.map (symbolPart prependFlag) ++
    item.cdeps.map (conflictPart prependFlag) ++ item.wrule.map (rulePart prependFlag ruleFlag) ++
    envs.flatMap (envParts envFlag) ++
    (if SrcMissing pathExists item then [symbolPart prependFlag srcPathExisted] else [])

def ruleFlag (item : Item) : Bool :=
  !item.asdeps.isEmpty || !item.vsdeps.isEmpty || !item.cdeps.isEmpty || item.wrule.length > 1 ||
    !item.edeps.isEmpty

def envFlag (item : Item) : Bool :=
  !item.asdeps.isEmpty || !item.vsdeps.isEmpty || !item.cdeps.isEmpty || !item.wrule.isEmpty ||
    item.edeps.length > 1

theorem dependsConjuncts_eq (prependFlag : Bool) (pathExists : Text → Bool) {item : Item}
    {envs : List EnvDep} (written : Written item envs) :
    dependsConjuncts prependFlag pathExists item =
      some ((lineParts prependFlag (ruleFlag item) (envFlag item) pathExists item envs).map Prod.fst) := by
  have traversed (flag : Bool) : item.edeps.mapM (envConjuncts flag) =
      some (envs.map fun env => (envParts flag env).map Prod.fst) := by
    rw [written.edeps, mapM_eq_some_iff, List.forall₂_map_left_iff, List.forall₂_map_right_iff,
      List.forall₂_same]
    exact fun env _ => envConjuncts_text flag env
  have rules : (!(item.asdeps.map (prependedSymbol prependFlag) ++
      item.vsdeps.map (prependedSymbol prependFlag) ++
      item.cdeps.map fun dep => '!' :: prependedSymbol prependFlag dep).isEmpty ||
      decide (item.wrule.length > 1) || !item.edeps.isEmpty) = ruleFlag item := by
    simp [ruleFlag, Bool.or_assoc, isEmpty_append]
  have environment : (!(item.asdeps.map (prependedSymbol prependFlag) ++
      item.vsdeps.map (prependedSymbol prependFlag) ++
      (item.cdeps.map fun dep => '!' :: prependedSymbol prependFlag dep) ++
      item.wrule.map (ruleConjunct prependFlag (ruleFlag item))).isEmpty ||
      decide (item.edeps.length > 1)) = envFlag item := by
    simp [envFlag, Bool.or_assoc, isEmpty_append]
  simp only [dependsConjuncts, rules, environment, traversed, bind, Option.bind_some]
  have texts : (lineParts prependFlag (ruleFlag item) (envFlag item) pathExists item envs).map Prod.fst =
      item.asdeps.map (prependedSymbol prependFlag) ++ item.vsdeps.map (prependedSymbol prependFlag) ++
        item.cdeps.map (fun dep => '!' :: prependedSymbol prependFlag dep) ++
        item.wrule.map (ruleConjunct prependFlag (ruleFlag item)) ++
        (envs.map fun env => (envParts (envFlag item) env).map Prod.fst).flatten ++
        (if SrcMissing pathExists item then [prependedSymbol prependFlag srcPathExisted] else []) := by
    simp only [lineParts, List.map_append, List.map_map, List.flatMap_def, List.map_flatten]
    split <;> rfl
  rw [texts]
  by_cases missing : SrcMissing pathExists item
  · rw [if_pos missing]
    exact congrArg some (if_pos missing)
  · rw [if_neg missing, List.append_nil]
    exact congrArg some (if_neg missing)

/-- One environment dependency, bracketed or not. -/
theorem envParts_all (bracketFlag : Bool) (env : EnvDep) (a : Assignment) :
    (envParts bracketFlag env).all (·.2 a) = true ↔
      if env.same then a.environment env.name.text ∈ env.values
      else a.environment env.name.text ∉ env.values := by
  cases same : env.same with
  | true => simp [envParts, comparePart, same]
  | false =>
    simp only [envParts, same, comparePart, Bool.false_eq_true, if_false, List.all_map, List.all_eq_true,
      Function.comp_apply, beq_false, Bool.not_eq_true', decide_eq_false_iff_not]
    constructor
    · exact fun all member => all _ member rfl
    · exact fun absent value member equal => absent (equal ▸ member)

/-- Whatever is bracketed, the parts together say what the dependency list means. -/
theorem lineParts_all (prependFlag ruleFlag envFlag : Bool) (pathExists : Text → Bool) (item : Item)
    (envs : List EnvDep) (a : Assignment) :
    (lineParts prependFlag ruleFlag envFlag pathExists item envs).all (·.2 a) = true ↔
      Meets prependFlag pathExists item envs a := by
  have environment : (envs.flatMap (envParts envFlag)).all (·.2 a) = true ↔ ∀ env ∈ envs,
      if env.same then a.environment env.name.text ∈ env.values
      else a.environment env.name.text ∉ env.values := by
    rw [List.all_flatMap, List.all_eq_true]
    exact forall₂_congr fun env _ => envParts_all envFlag env a
  have src : (if SrcMissing pathExists item then [symbolPart prependFlag srcPathExisted]
      else []).all (·.2 a) = true ↔ (SrcMissing pathExists item →
        a.symbols (prependedSymbol prependFlag srcPathExisted) = true) := by
    by_cases missing : SrcMissing pathExists item <;> simp [missing, symbolPart]
  simp only [lineParts, List.all_append, Bool.and_eq_true, environment, src]
  simp only [List.all_map, List.all_eq_true, Function.comp_apply, symbolPart, conflictPart, rulePart,
    List.any_eq_true, Bool.not_eq_true']
  constructor
  · rintro ⟨⟨⟨⟨⟨strong, weakStrong⟩, conflict⟩, weak⟩, env⟩, path⟩
    exact ⟨List.forall_mem_append.mpr ⟨strong, weakStrong⟩, conflict, weak, env, path⟩
  · intro meets
    obtain ⟨strong, weakStrong⟩ := List.forall_mem_append.mp meets.strong
    exact ⟨⟨⟨⟨⟨strong, weakStrong⟩, meets.conflict⟩, meets.weak⟩, meets.environment⟩, meets.src⟩

theorem lineHolds_iff {deps : List Text} {text : Text} {before last : Assignment → Bool}
    (joined : dependsExpr deps = some text) (expr : ExprText text before last) (a : Assignment) :
    LineHolds deps a ↔ (before a || last a) = true := by
  obtain ⟨e, read, meaning⟩ := readExpr_of_exprText expr
  simp only [LineHolds, joined, Option.some.injEq, forall_eq', read, exists_eq_left', meaning]

theorem lineHolds_and {parts : List Part} (operands : ∀ part ∈ parts, OperandText part.1 part.2)
    (a : Assignment) : LineHolds (parts.map Prod.fst) a ↔ parts.all (·.2 a) = true := by
  by_cases empty : parts = []
  · simp [LineHolds, dependsExpr, empty]
  · have joined : dependsExpr (parts.map Prod.fst) =
        some (" && ".toList.intercalate (parts.map Prod.fst)) := if_neg (by simpa using empty)
    rw [lineHolds_iff joined (.and empty operands), Bool.false_or]

theorem lineHolds_or {init : List Part} {last : Part}
    (operands : ∀ part ∈ init ++ [last], OperandText part.1 part.2) (a : Assignment) :
    LineHolds [orJoin ((init ++ [last]).map Prod.fst)] a ↔ (init.any (·.2 a) || last.2 a) = true := by
  refine lineHolds_iff ?_ (.or operands) a
  rw [dependsExpr, if_neg (by simp), List.intercalate_singleton, orJoin]

/-- Without brackets the added conjunct belongs to the last alternative. -/
theorem lineHolds_or_and {init : List Part} {last added : Part}
    (operands : ∀ part ∈ init ++ [last], OperandText part.1 part.2)
    (operand : OperandText added.1 added.2) (a : Assignment) :
    LineHolds [orJoin ((init ++ [last]).map Prod.fst), added.1] a ↔
      (init.any (·.2 a) || (last.2 a && added.2 a)) = true := by
  refine lineHolds_iff ?_ (.or_and operands operand) a
  rw [dependsExpr, if_neg (by simp), List.intercalate_cons_cons, List.intercalate_singleton, orJoin,
    List.append_assoc]

theorem operand_envParts {bracketFlag : Bool} {env : EnvDep}
    (single : bracketFlag = true ∨ env.same = false ∨ env.values.length = 1) :
    ∀ part ∈ envParts bracketFlag env, OperandText part.1 part.2 := by
  have operands : ∀ part ∈ env.values.map (comparePart env), OperandText part.1 part.2 := by
    intro part member
    obtain ⟨value, inside, rfl⟩ := List.mem_map.mp member
    exact operand_comparePart inside
  cases same : env.same with
  | false => simpa only [envParts, same, Bool.false_eq_true, if_false] using operands
  | true =>
    intro part member
    simp only [envParts, same, if_true, List.mem_singleton] at member
    subst member
    cases bracketFlag with
    | true =>
      obtain ⟨before, last, expr, meaning⟩ := exprText_orJoin (by simpa using env.nonempty) operands
      have operand := OperandText.bracket expr
      simp only [meaning, List.map_map, List.any_map, Function.comp_def] at operand
      exact operand
    | false =>
      have one : env.values.length = 1 :=
        (single.resolve_left (by simp)).resolve_left (by simp [same])
      obtain ⟨value, only⟩ := List.length_eq_one_iff.mp one
      have operand := operands (comparePart env value) (by simp [only])
      simpa [only, orJoin] using operand

/-- Every part is an operand when each disjunction has brackets or one alternative only. -/
theorem operand_lineParts (prependFlag : Bool) (pathExists : Text → Bool) {item : Item}
    {envs : List EnvDep} {rules environment : Bool} (written : Written item envs)
    (singleRules : ∀ rule ∈ item.wrule, rules = true ∨ rule.length = 1)
    (singleEnvs : ∀ env ∈ envs, environment = true ∨ env.same = false ∨ env.values.length = 1) :
    ∀ part ∈ lineParts prependFlag rules environment pathExists item envs, OperandText part.1 part.2 := by
  have names := written.names
  simp only [List.forall_mem_append] at names
  obtain ⟨⟨⟨strong, weakStrong⟩, conflict⟩, weak⟩ := names
  have symbols {deps : List Text} (named : ∀ dep ∈ deps, ∃ name : Name, name.text = dep) :
      ∀ part ∈ deps.map (symbolPart prependFlag), OperandText part.1 part.2 := by
    intro part member
    obtain ⟨dep, inside, rfl⟩ := List.mem_map.mp member
    obtain ⟨name, rfl⟩ := named dep inside
    exact operand_symbolPart prependFlag name
  simp only [lineParts, List.forall_mem_append]
  refine ⟨⟨⟨⟨⟨symbols strong, symbols weakStrong⟩, ?_⟩, ?_⟩, ?_⟩, ?_⟩
  · intro part member
    obtain ⟨dep, inside, rfl⟩ := List.mem_map.mp member
    obtain ⟨name, rfl⟩ := conflict dep inside
    exact operand_conflictPart prependFlag name
  · intro part member
    obtain ⟨rule, inside, rfl⟩ := List.mem_map.mp member
    exact operand_rulePart prependFlag rules (written.rules rule inside)
      (fun dep here => weak dep (List.mem_flatten.mpr ⟨rule, inside, here⟩)) (singleRules rule inside)
  · intro part member
    obtain ⟨env, inside, here⟩ := List.mem_flatMap.mp member
    exact operand_envParts (singleEnvs env inside) part here
  · split
    · exact @symbols [srcPathExisted] fun dep member =>
        ⟨⟨srcPathExisted, by decide, by decide⟩, (List.mem_singleton.mp member).symm⟩
    · simp

/-- A lone disjunction, and whether a missing source path follows it. -/
theorem holds_iff_of_disjunction {init : List Part} {last added : Part} {src : Prop} [Decidable src]
    (operands : ∀ part ∈ init ++ [last], OperandText part.1 part.2)
    (operand : OperandText added.1 added.2) (a : Assignment) :
    LineHolds ([orJoin ((init ++ [last]).map Prod.fst)] ++ if src then [added.1] else []) a ↔
      (init.any (·.2 a) = true ∨ last.2 a = true) ∧ (src → init.any (·.2 a) = true ∨ added.2 a = true) := by
  split
  · next holds =>
    rw [List.singleton_append, lineHolds_or_and operands operand]
    simp only [Bool.or_eq_true, Bool.and_eq_true, holds, forall_const]
    tauto
  · next fails =>
    rw [List.append_nil, lineHolds_or operands, Bool.or_eq_true]
    simp [fails]

/-- The missing conjunct changes the meaning when an alternative before the last one can hold
without it. -/
theorem disjunction_iff {init : List Part} {last added : Part} {src : Prop} :
    (∀ a, (init.any (·.2 a) = true ∨ last.2 a = true) ∧ (src → init.any (·.2 a) = true ∨ added.2 a = true) ↔
        (init.any (·.2 a) = true ∨ last.2 a = true) ∧ (src → added.2 a = true)) ↔
      ¬ (src ∧ ∃ a, init.any (·.2 a) = true ∧ added.2 a = false) := by
  constructor
  · rintro same ⟨holds, a, before, missing⟩
    have both := ((same a).mp ⟨.inl before, fun _ => .inl before⟩).2 holds
    rw [missing] at both
    contradiction
  · intro none a
    refine and_congr_right fun _ => forall_congr' fun holds => ⟨fun either => ?_, .inr⟩
    rcases either with before | added
    · by_contra missing
      exact none ⟨holds, a, before, by simpa using missing⟩
    · exact added

theorem ruleFlag_eq_false {item : Item} : ruleFlag item = false ↔ item.asdeps = [] ∧ item.vsdeps = [] ∧
    item.cdeps = [] ∧ item.wrule.length ≤ 1 ∧ item.edeps = [] := by
  simp [ruleFlag, and_assoc]

theorem envFlag_eq_false {item : Item} : envFlag item = false ↔ item.asdeps = [] ∧ item.vsdeps = [] ∧
    item.cdeps = [] ∧ item.wrule = [] ∧ item.edeps.length ≤ 1 := by
  simp [envFlag, and_assoc]

theorem ruleConjunct_of_several {prependFlag : Bool} {rule : List Text} (several : rule.length ≠ 1) :
    ruleConjunct prependFlag false rule = orJoin (rule.map (prependedSymbol prependFlag)) := by
  unfold ruleConjunct
  split
  · exact absurd rfl several
  · rfl

theorem operand_srcPart {prependFlag : Bool} :
    OperandText (symbolPart prependFlag srcPathExisted).1
      (symbolPart prependFlag srcPathExisted).2 :=
  operand_symbolPart prependFlag ⟨srcPathExisted, by decide, by decide⟩

/-- The line of a lone or-rule with several alternatives. -/
theorem ruleLine_iff (prependFlag : Bool) (pathExists : Text → Bool) {item : Item} {rule : List Text}
    (written : Written item []) (alone : ruleFlag item = false) (only : item.wrule = [rule])
    (several : rule.length ≠ 1) :
    (∀ a, LineHolds ((lineParts prependFlag false (envFlag item) pathExists item []).map Prod.fst) a ↔
        Meets prependFlag pathExists item [] a) ↔ ¬ Unbracketed prependFlag pathExists item [] := by
  obtain ⟨strong, weakStrong, conflict, _, _⟩ := ruleFlag_eq_false.mp alone
  have nonempty := written.rules rule (by simp [only])
  obtain ⟨init, last, rfl⟩ := exists_append_singleton nonempty
  have operands : ∀ part ∈ init.map (symbolPart prependFlag) ++ [symbolPart prependFlag last],
      OperandText part.1 part.2 := by
    intro part member
    have member : part ∈ (init ++ [last]).map (symbolPart prependFlag) := by simpa using member
    obtain ⟨dep, inside, rfl⟩ := List.mem_map.mp member
    obtain ⟨name, rfl⟩ := written.names dep (List.mem_append_right _ (by simpa [only] using inside))
    exact operand_symbolPart prependFlag name
  have conjunct : ruleConjunct prependFlag false (init ++ [last]) =
      orJoin ((init.map (symbolPart prependFlag) ++ [symbolPart prependFlag last]).map Prod.fst) := by
    rw [ruleConjunct_of_several several, List.map_append, List.map_append, List.map_map]
    rfl
  have texts : (lineParts prependFlag false (envFlag item) pathExists item []).map Prod.fst =
      [orJoin ((init.map (symbolPart prependFlag) ++ [symbolPart prependFlag last]).map Prod.fst)] ++
        if SrcMissing pathExists item then [(symbolPart prependFlag srcPathExisted).1] else [] := by
    rw [← conjunct]
    by_cases missing : SrcMissing pathExists item <;>
      simp [lineParts, strong, weakStrong, conflict, only, missing, rulePart]
  have meets (a : Assignment) : Meets prependFlag pathExists item [] a ↔
      ((init.map (symbolPart prependFlag)).any (·.2 a) = true ∨ (symbolPart prependFlag last).2 a = true) ∧
        (SrcMissing pathExists item → (symbolPart prependFlag srcPathExisted).2 a = true) := by
    rw [← lineParts_all prependFlag false false]
    by_cases missing : SrcMissing pathExists item <;>
      simp [lineParts, strong, weakStrong, conflict, only, missing, rulePart]
  simp only [texts, holds_iff_of_disjunction operands operand_srcPart, meets, disjunction_iff]
  have changes : (∃ a : Assignment, (init.map (symbolPart prependFlag)).any (·.2 a) = true ∧
      (symbolPart prependFlag srcPathExisted).2 a = false) ↔ ∃ dep ∈ init,
        prependedSymbol prependFlag dep ≠ prependedSymbol prependFlag srcPathExisted := by
    simp only [List.any_map, List.any_eq_true, Function.comp_apply, symbolPart]
    constructor
    · rintro ⟨a, ⟨dep, inside, enabled⟩, missing⟩
      exact ⟨dep, inside, fun same => by rw [same, missing] at enabled; contradiction⟩
    · rintro ⟨dep, inside, other⟩
      exact ⟨⟨fun name => name = prependedSymbol prependFlag dep, fun _ => []⟩,
        ⟨dep, inside, by simp⟩, by simpa using other.symm⟩
  rw [changes]
  simp [Unbracketed, strong, weakStrong, conflict, only]

/-- The line of a lone environment dependency with several values. -/
theorem envLine_iff (prependFlag : Bool) (pathExists : Text → Bool) {item : Item} {env : EnvDep}
    (alone : envFlag item = false) (same : env.same = true)
    (several : env.values.length ≠ 1) :
    (∀ a, LineHolds ((lineParts prependFlag (ruleFlag item) false pathExists item [env]).map Prod.fst) a ↔
        Meets prependFlag pathExists item [env] a) ↔ ¬ Unbracketed prependFlag pathExists item [env] := by
  obtain ⟨strong, weakStrong, conflict, none, _⟩ := envFlag_eq_false.mp alone
  obtain ⟨init, last, listed⟩ := exists_append_singleton env.nonempty
  have operands : ∀ part ∈ init.map (comparePart env) ++ [comparePart env last],
      OperandText part.1 part.2 := by
    intro part member
    have member : part ∈ env.values.map (comparePart env) := by simpa [listed] using member
    obtain ⟨value, inside, rfl⟩ := List.mem_map.mp member
    exact operand_comparePart inside
  have texts : (lineParts prependFlag (ruleFlag item) false pathExists item [env]).map Prod.fst =
      [orJoin ((init.map (comparePart env) ++ [comparePart env last]).map Prod.fst)] ++
        if SrcMissing pathExists item then [(symbolPart prependFlag srcPathExisted).1] else [] := by
    by_cases missing : SrcMissing pathExists item <;>
      simp [lineParts, strong, weakStrong, conflict, none, missing, envParts, same, listed, Function.comp_def]
  have meets (a : Assignment) : Meets prependFlag pathExists item [env] a ↔
      ((init.map (comparePart env)).any (·.2 a) = true ∨ (comparePart env last).2 a = true) ∧
        (SrcMissing pathExists item → (symbolPart prependFlag srcPathExisted).2 a = true) := by
    rw [← lineParts_all prependFlag false false]
    by_cases missing : SrcMissing pathExists item <;>
      simp [lineParts, strong, weakStrong, conflict, none, missing, envParts, same, listed, or_and_right]
  simp only [texts, holds_iff_of_disjunction operands operand_srcPart, meets, disjunction_iff]
  have two : 2 ≤ env.values.length := by
    have some := List.length_pos_iff.mpr env.nonempty
    omega
  have changes : ∃ a : Assignment, (init.map (comparePart env)).any (·.2 a) = true ∧
      (symbolPart prependFlag srcPathExisted).2 a = false := by
    match init, listed with
    | [], listed => simp [listed] at two
    | value :: init, _ => exact ⟨⟨fun _ => false, fun _ => value⟩, by simp [comparePart, same], rfl⟩
  rw [and_iff_left changes]
  simp [Unbracketed, strong, weakStrong, conflict, none, same, two]

/-- The line means what the dependency list means, under every assignment, unless a lone
disjunction is followed by the symbol of a missing source path. -/
theorem dependsLine_iff (prependFlag : Bool) (pathExists : Text → Bool) (item : Item)
    (envs : List EnvDep) (written : Written item envs) :
    ∃ deps, dependsConjuncts prependFlag pathExists item = some deps ∧
      ((∀ a, LineHolds deps a ↔ Meets prependFlag pathExists item envs a) ↔
        ¬ Unbracketed prependFlag pathExists item envs) := by
  refine ⟨_, dependsConjuncts_eq prependFlag pathExists written, ?_⟩
  by_cases rules : ∀ rule ∈ item.wrule, ruleFlag item = true ∨ rule.length = 1
  · by_cases environment : ∀ env ∈ envs, envFlag item = true ∨ env.same = false ∨ env.values.length = 1
    · -- every disjunction has brackets or one alternative only
      have operands := operand_lineParts prependFlag pathExists written rules environment
      refine iff_of_true (fun a => (lineHolds_and operands a).trans (lineParts_all ..)) ?_
      rintro ⟨_, strong, weakStrong, conflict, ⟨rule, only, none, dep, before, _⟩ | ⟨none, env, only, same, two⟩⟩
      · have alone : ruleFlag item = false :=
          ruleFlag_eq_false.mpr ⟨strong, weakStrong, conflict, by simp [only], by simp [written.edeps, none]⟩
        have one := (rules rule (by simp [only])).resolve_left (by simp [alone])
        have few : rule.dropLast.length = 0 := by simp [one]
        rw [List.length_eq_zero_iff.mp few] at before
        contradiction
      · have alone : envFlag item = false :=
          envFlag_eq_false.mpr ⟨strong, weakStrong, conflict, none, by simp [written.edeps, only]⟩
        have one := ((environment env (by simp [only])).resolve_left (by simp [alone])).resolve_left (by simp [same])
        omega
    · -- an environment dependency without brackets is the only conjunct but for the source path
      push Not at environment
      obtain ⟨env, inside, alone, same, several⟩ := environment
      have alone : envFlag item = false := by simpa using alone
      obtain ⟨_, _, _, _, few⟩ := envFlag_eq_false.mp alone
      obtain rfl : envs = [env] := eq_singleton_of_mem inside (by simpa [written.edeps] using few)
      rw [alone]
      exact envLine_iff prependFlag pathExists alone (by simpa using same) several
  · -- so is an or-rule
    push Not at rules
    obtain ⟨rule, inside, alone, several⟩ := rules
    have alone : ruleFlag item = false := by simpa using alone
    obtain ⟨_, _, _, few, none⟩ := ruleFlag_eq_false.mp alone
    obtain rfl : envs = [] := by simpa [written.edeps] using none
    have only : item.wrule = [rule] := eq_singleton_of_mem inside few
    rw [alone]
    exact ruleLine_iff prependFlag pathExists written alone only several

/-- One of two packages, with the source of the item in a directory. -/
def eitherItem : Item := { src := "src".toList, wrule := [["a".toList, "b".toList]] }

theorem eitherItem_written : Written eitherItem [] where
  names dep member := by
    rcases List.mem_cons.mp member with rfl | member
    · exact ⟨⟨"a".toList, by decide, by decide⟩, rfl⟩
    · rw [List.mem_singleton.mp member]
      exact ⟨⟨"b".toList, by decide, by decide⟩, rfl⟩
  rules := by decide
  edeps := rfl

/-- With the path in place the line is the rule. -/
theorem eitherItem_present_meets :
    ∃ deps, dependsConjuncts false (fun _ => true) eitherItem = some deps ∧
      ∀ a, LineHolds deps a ↔ Meets false (fun _ => true) eitherItem [] a := by
  obtain ⟨deps, written, meaning⟩ :=
    dependsLine_iff false (fun _ => true) eitherItem [] eitherItem_written
  exact ⟨deps, written, meaning.mpr fun unbracketed => absurd unbracketed.1.2 (by decide)⟩

/-- Without it the line is `A || B && SRC_PATH_EXISTED`, which `A` alone makes true. -/
theorem eitherItem_missing_differs :
    ∃ deps a, dependsConjuncts false (fun _ => false) eitherItem = some deps ∧
      dependsExpr deps = some "A || B && SRC_PATH_EXISTED".toList ∧ LineHolds deps a ∧
      ¬ Meets false (fun _ => false) eitherItem [] a := by
  refine ⟨_, ⟨fun name => name = ['A'], fun _ => []⟩, rfl, by decide, ?_, fun meets => ?_⟩
  · intro text joined
    have same : some text = some "A || B && SRC_PATH_EXISTED".toList := joined.symm.trans (by decide)
    exact ⟨_, by rw [Option.some.inj same]; rfl, by decide⟩
  · exact absurd (meets.src (by decide)) (by decide)

end CBuild.Soundness.DependsLine
