import CBuild.Model.GenBuildChain.CheckItem

/-! # Weak dependencies of recipes

The anonymous python function of `weakdep.bbclass`: it collects weak names from the tokens of
EXTRADEPS and appends those that the lines of `.config` enable to DEPENDS and RDEPENDS. Leading
markers and omitted alternatives are read as `__set_item_deps` reads them; symbols are built from
names as `escape_toupper` does. `none` is an error that the function raises.
-/

namespace CBuild.Model.Weakdep

open Text GenBuildChain

/-- The lists that parsing the tokens fills. -/
structure Weak where
  weakdeps : List Text := []
  weakrdeps : List Text := []
  ideps : List Text := []

def Weak.add (weak : Weak) (runtime : Bool) (deps : List Text) : Weak :=
  { weak with
    weakdeps := weak.weakdeps ++ deps
    weakrdeps := if runtime then weak.weakrdeps ++ deps else weak.weakrdeps }

/-- The alternatives of a selected or-token without the virtual ones, which begin with `*`. -/
def selectedNames : List Text → Option (List Text)
  | [] => some []
  | [] :: _ => none
  | (c :: rest) :: subdeps => do
    let names ← selectedNames subdeps
    some (if c = '*' then names else (c :: rest) :: names)

/-- The iteration of the first loop for a token that begins with `&` or `?`. -/
def addMarked (weak : Weak) (token : Text) : Option Weak := do
  let (ampNum, queNum, dep) := markers token
  let weak ←
    if (ampNum = 2 || ampNum = 1) && dep.contains '|' then do
      let names ← selectedNames (expandSelect dep).1
      some (weak.add (splitStr dep = ['|', '|']) names)
    else some weak
  if queNum = 2 then some (weak.add true [dep])
  else if queNum = 1 then some (weak.add false [dep])
  else some weak

/-- One iteration of the first loop. -/
def addDep (weak : Weak) (dep : Text) : Option Weak :=
  match dep with
  | [] => none
  | c :: _ =>
    if c = '&' || c = '?' then addMarked weak dep
    else if '|' ∈ dep then some (weak.add (splitStr dep = ['|', '|']) (expandWeak dep))
    else if '@' ∈ dep then some { weak with ideps := weak.ideps ++ [dep] }
    else some weak

def addDeps (weak : Weak) : List Text → Option Weak
  | [] => some weak
  | dep :: deps => do addDeps (← addDep weak dep) deps

/-- `re.match('<symbol>=y', line)` for a symbol without special characters. -/
def matchesLine (symbol line : Text) : Bool := (symbol ++ ['=', 'y']).isPrefixOf line

/-- The lines are read until the dependency and the condition have matched twice in all. -/
def matchesBoth (symbol condition : Text) : ℕ → List Text → Bool
  | _, [] => false
  | matched, line :: lines =>
    let matched := matched + (if matchesLine symbol line then 1 else 0)
    let matched := matched + (if matchesLine condition line then 1 else 0)
    matched = 2 || matchesBoth symbol condition matched lines

/-- What the function appends to DEPENDS and to RDEPENDS. -/
structure Append where
  appenddeps : List Text := []
  appendrdeps : List Text := []

def appendWeak (weak : Weak) (lines : List Text) : Append where
  appenddeps := weak.weakdeps.filter fun dep => lines.any (matchesLine (configSymbol dep))
  appendrdeps := weak.weakdeps.filter fun dep =>
    lines.any (matchesLine (configSymbol dep)) && dep ∈ weak.weakrdeps

/-- The third loop. -/
def appendIdeps (lines : List Text) (append : Append) : List Text → Option Append
  | [] => some append
  | idep :: ideps => do
    let (dep, condition) ← splitIdep idep
    let append :=
      if matchesBoth (configSymbol dep) condition 0 lines then
        { append with
          appenddeps := append.appenddeps ++ [dep]
          appendrdeps :=
            if ['@', '@'] <:+: idep then append.appendrdeps ++ [dep] else append.appendrdeps }
      else append
    appendIdeps lines append ideps

def weakdep (dotconfig : Option (List Text)) (extradeps : List Text) : Option Append := do
  let weak ← addDeps {} extradeps
  match dotconfig with
  | none => some {}
  | some lines => appendIdeps lines (appendWeak weak lines) weak.ideps

end CBuild.Model.Weakdep
