import CBuild.Text.Basic

/-! # Kconfig expressions

The expressions of `depends on` lines and how a text is read as one: `!` binds more tightly than
`&&`, and `&&` more tightly than `||`. A scanner turns the characters into tokens, and a reader
with one frame for each open bracket turns the tokens into an expression.
-/

namespace CBuild.Kconfig

/-- A symbol, or a quoted text in which `$(NAME)` stands for an environment variable. -/
inductive Operand
  | symbol (name : Text)
  | quoted (content : Text)
deriving DecidableEq

inductive Expr
  | operand (o : Operand)
  | compare (same : Bool) (left right : Operand)
  | not (e : Expr)
  | and (left right : Expr)
  | or (left right : Expr)
deriving DecidableEq

/-- Which symbols are `y`, and the values of the environment variables. -/
structure Assignment where
  symbols : Text → Bool
  environment : Text → Text

/-- A quoted text that is a reference to a variable as a whole. -/
def reference? : Text → Option Text
  | '$' :: '(' :: rest => if rest.getLast? = some ')' then some rest.dropLast else none
  | _ => none

theorem reference?_variable (name : Text) : reference? ('$' :: '(' :: (name ++ [')'])) = some name := by
  rw [reference?, if_pos (by simp), List.dropLast_concat]

theorem reference?_of_not_mem {content : Text} (plain : '$' ∉ content) : reference? content = none := by
  unfold reference?
  split
  · exact absurd (List.mem_cons_self ..) plain
  · rfl

def Operand.value (a : Assignment) : Operand → Text
  | symbol name => if a.symbols name then ['y'] else ['n']
  | quoted content =>
    match reference? content with
    | some name => a.environment name
    | none => content

def Expr.eval (a : Assignment) : Expr → Bool
  | operand o => o.value a = ['y']
  | compare same left right => decide (left.value a = right.value a) == same
  | not e => !e.eval a
  | and left right => left.eval a && right.eval a
  | or left right => left.eval a || right.eval a

inductive Token
  | operand (o : Operand)
  | compare (same : Bool)
  | not
  | and
  | or
  | open
  | close
deriving DecidableEq

def symbolChar (c : Char) : Bool := c.isAlphanum || c = '_'

inductive Mode
  | blank
  | symbol (read : Text)
  | quoted (read : Text)
  | bang
  | ampersand
  | bar

/-- A character that begins something new. -/
def start (c : Char) : Option (List Token × Mode) :=
  if symbolChar c then some ([], .symbol [c])
  else match c with
    | ' ' => some ([], .blank)
    | '(' => some ([.open], .blank)
    | ')' => some ([.close], .blank)
    | '=' => some ([.compare true], .blank)
    | '!' => some ([], .bang)
    | '&' => some ([], .ampersand)
    | '|' => some ([], .bar)
    | '"' => some ([], .quoted [])
    | _ => none

def step : Mode → Char → Option (List Token × Mode)
  | .blank, c => start c
  | .symbol read, c =>
    if symbolChar c then some ([], .symbol (read ++ [c]))
    else do
      let (tokens, mode) ← start c
      some (.operand (.symbol read) :: tokens, mode)
  | .quoted read, c =>
    if c = '"' then some ([.operand (.quoted read)], .blank) else some ([], .quoted (read ++ [c]))
  | .bang, c =>
    if c = '=' then some ([.compare false], .blank)
    else do
      let (tokens, mode) ← start c
      some (.not :: tokens, mode)
  | .ampersand, c => if c = '&' then some ([.and], .blank) else none
  | .bar, c => if c = '|' then some ([.or], .blank) else none

def scan : Mode → Text → Option (List Token × Mode)
  | mode, [] => some ([], mode)
  | mode, c :: rest => do
    let (tokens, mode) ← step mode c
    let (later, mode) ← scan mode rest
    some (tokens ++ later, mode)

/-- The token that a mode holds back; none while something is incomplete. -/
def Mode.flush : Mode → Option (List Token)
  | .blank => some []
  | .symbol read => some [.operand (.symbol read)]
  | _ => none

def tokenize (text : Text) : Option (List Token) := do
  let (tokens, mode) ← scan .blank text
  let last ← mode.flush
  some (tokens ++ last)

/-- The alternatives and conjuncts read so far since a bracket was opened, and whether the next
operand is negated. -/
structure Frame where
  alternatives : Option Expr := none
  conjuncts : Option Expr := none
  negated : Bool := false

namespace Frame

def operand (frame : Frame) (e : Expr) : Frame :=
  let e := if frame.negated then .not e else e
  { frame with
    conjuncts := match frame.conjuncts with
      | none => e
      | some before => Expr.and before e
    negated := false }

def negate (frame : Frame) : Frame := { frame with negated := !frame.negated }

/-- The expression of a frame whose last operand has been read. -/
def value (frame : Frame) : Option Expr :=
  match frame.alternatives, frame.conjuncts with
  | none, conjuncts => conjuncts
  | some before, some e => some (.or before e)
  | some _, none => none

def alternative (frame : Frame) : Frame := { alternatives := frame.value }

end Frame

/-- The flag tells whether an operand is expected, or an operator. -/
def read : Bool → Frame → List Frame → List Token → Option Expr
  | true, top, outer, .operand a :: .compare same :: .operand b :: rest =>
    read false (top.operand (.compare same a b)) outer rest
  | true, top, outer, .operand a :: rest => read false (top.operand (.operand a)) outer rest
  | true, top, outer, .not :: rest => read true top.negate outer rest
  | true, top, outer, .open :: rest => read true {} (top :: outer) rest
  | false, top, outer, .and :: rest => read true top outer rest
  | false, top, outer, .or :: rest => read true top.alternative outer rest
  | false, top, next :: outer, .close :: rest => do
    let e ← top.value
    read false (next.operand e) outer rest
  | false, top, [], [] => top.value
  | _, _, _, _ => none

def readExpr (text : Text) : Option Expr := do
  let tokens ← tokenize text
  read true {} [] tokens

example : readExpr "A || B && !C".toList = some (.or (.operand (.symbol ['A']))
    (.and (.operand (.symbol ['B'])) (.not (.operand (.symbol ['C']))))) := by decide

end CBuild.Kconfig
