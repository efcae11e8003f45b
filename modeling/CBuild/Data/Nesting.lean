import Mathlib.Data.List.Basic
import Mathlib.Data.Nat.Notation

/-! # Nested brackets

Tokens that open and close brackets of several kinds, or do neither. A token may be forbidden inside some brackets.
The brackets that are open are a stack, the innermost first.
-/

namespace CBuild.Data.Nesting

inductive Role (κ : Type)
  | opens (kind : κ)
  | closes (kind : κ)
  | stays

section

variable {τ κ : Type} [DecidableEq κ] (role : τ → Role κ) (allowed : List κ → τ → Bool)

/-- One token; `none` when it is not allowed or closes no bracket of its kind. -/
def step (stack : List κ) (token : τ) : Option (List κ) :=
  if allowed stack token then
    match role token with
    | .opens kind => some (kind :: stack)
    | .closes kind => if stack.head? = some kind then some stack.tail else none
    | .stays => some stack
  else none

def scan : List κ → List τ → Option (List κ)
  | stack, [] => some stack
  | stack, token :: tokens => (step role allowed stack token).bind (scan · tokens)

variable {role allowed} {stack : List κ} {token : τ} {first second : List τ} {kind : κ}

@[simp] theorem scan_nil : scan role allowed stack [] = some stack := rfl

theorem scan_cons : scan role allowed stack (token :: first) =
    (step role allowed stack token).bind (scan role allowed · first) := rfl

theorem scan_append : scan role allowed stack (first ++ second) =
    (scan role allowed stack first).bind (scan role allowed · second) := by
  induction first generalizing stack with
  | nil => rfl
  | cons token first ih =>
    rw [List.cons_append, scan_cons, scan_cons, Option.bind_assoc]
    exact congrArg _ (funext fun _ => ih)

theorem step_opens (may : allowed stack token = true) (opens : role token = .opens kind) :
    step role allowed stack token = some (kind :: stack) := by
  rw [step, if_pos may, opens]

theorem step_stays (may : allowed stack token = true) (stays : role token = .stays) :
    step role allowed stack token = some stack := by
  rw [step, if_pos may, stays]

theorem step_forbidden (never : allowed stack token = false) : step role allowed stack token = none := by
  rw [step, if_neg (by rw [never]; exact Bool.false_ne_true)]

/-- Tokens that stay leave the stack alone. -/
theorem scan_stays (plain : ∀ token ∈ first, allowed stack token = true ∧ role token = .stays) :
    scan role allowed stack first = some stack := by
  induction first with
  | nil => rfl
  | cons token first ih =>
    obtain ⟨may, stays⟩ := plain token (List.mem_cons_self ..)
    rw [scan_cons, step_stays may stays, Option.bind_some]
    exact ih fun other member => plain other (List.mem_cons_of_mem _ member)

end

end CBuild.Data.Nesting
