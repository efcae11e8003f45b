import Mathlib.Data.List.Nodup
import Mathlib.Logic.Relation

/-! # Orders of a recursive make

A makefile is a list of rules. `make` makes the prerequisites of a target, in any order and several
at a time, before it runs the lines of the target's recipe one after the other. A line that calls
make starts an instance of its own on the same makefile and ends when that instance has made its
goal. An instance is named by the lines that are running above it.

`needs` lists what must be over before an event; an order is permitted when nothing in it comes
before what it needs. Circular prerequisites, which a make may drop, block here.
-/

namespace CBuild.Machine.Make

inductive Line (τ ε : Type*)
  | run (action : ε)
  | make (goal : τ)
deriving DecidableEq

/-- `targets: prereqs`, with the recipe when the rule has one. -/
structure Rule (τ ε : Type*) where
  targets : List τ
  prereqs : List τ := []
  recipe : Option (List (Line τ ε)) := none

/-- A running make: the lines above it, innermost first. -/
abbrev Instance (τ : Type*) := List (τ × ℕ)

inductive Event (τ : Type*)
  /-- the prerequisites are made and the recipe may start -/
  | ready (inst : Instance τ) (target : τ)
  | starts (inst : Instance τ) (target : τ) (line : ℕ)
  | ends (inst : Instance τ) (target : τ) (line : ℕ)
  | made (inst : Instance τ) (target : τ)
deriving DecidableEq

section Rules

variable {τ ε : Type*} [DecidableEq τ] (rules : List (Rule τ ε))

/-- The prerequisites of a target add up over the rules. -/
def prereqs (target : τ) : List τ :=
  (rules.filter (target ∈ ·.targets)).flatMap (·.prereqs)

/-- The last recipe that is given for a target replaces the others. -/
def recipe (target : τ) : List (Line τ ε) :=
  (((rules.filter (target ∈ ·.targets)).filterMap (·.recipe)).getLast?).getD []

/-- The line in which an instance runs has started. -/
def callers : Instance τ → List (Event τ)
  | [] => []
  | (target, line) :: inst => [.starts inst target line]

def needs : Event τ → List (Event τ)
  | .ready inst target => (prereqs rules target).map (.made inst) ++ callers inst
  | .starts inst target 0 => [.ready inst target]
  | .starts inst target (line + 1) => [.ends inst target line]
  | .ends inst target line => .starts inst target line ::
      match (recipe rules target)[line]? with
      | some (.make goal) => [.made ((target, line) :: inst) goal]
      | _ => []
  | .made inst target => .ready inst target ::
      (List.range (recipe rules target).length).map (.ends inst target)

/-- Nothing comes before what it needs. -/
def Permitted (order : List (Event τ)) : Prop :=
  ∀ before event after, order = before ++ event :: after → ∀ need ∈ needs rules event, need ∈ before

def PermittedAfter (seen : List (Event τ)) : List (Event τ) → Prop
  | [] => True
  | event :: order => (∀ need ∈ needs rules event, need ∈ seen) ∧ PermittedAfter (seen ++ [event]) order

theorem permittedAfter_iff (seen order : List (Event τ)) : PermittedAfter rules seen order ↔
    ∀ before event after, order = before ++ event :: after → ∀ need ∈ needs rules event, need ∈ seen ++ before := by
  induction order generalizing seen with
  | nil => simp [PermittedAfter]
  | cons first order ih =>
    rw [PermittedAfter, ih]
    constructor
    · rintro ⟨now, later⟩ before event after split
      cases before with
      | nil =>
        obtain ⟨rfl, rfl⟩ := List.cons.inj split
        simpa using now
      | cons head before =>
        obtain ⟨rfl, rest⟩ := List.cons.inj split
        simpa using later before event after rest
    · intro all
      refine ⟨fun need needed => by simpa using all [] first order rfl need needed, ?_⟩
      intro before event after split
      simpa using all (first :: before) event after (by rw [split]; rfl)

instance decidablePermittedAfter : ∀ seen order : List (Event τ), Decidable (PermittedAfter rules seen order)
  | _, [] => inferInstanceAs (Decidable True)
  | seen, event :: order =>
    have := decidablePermittedAfter (seen ++ [event]) order
    inferInstanceAs (Decidable (_ ∧ _))

instance (order : List (Event τ)) : Decidable (Permitted rules order) :=
  decidable_of_iff _ (permittedAfter_iff rules [] order)

end Rules

/-- Wherever the second event stands in the order, the first stands before it. -/
def Precedes {α : Type*} (order : List α) (first second : α) : Prop :=
  ∀ before after, order = before ++ second :: after → first ∈ before

theorem Precedes.trans {α : Type*} {order : List α} {first second third : α}
    (early : Precedes order first second) (late : Precedes order second third) :
    Precedes order first third := by
  intro before after split
  obtain ⟨start, rest, rfl⟩ := List.append_of_mem (late before after split)
  have inside := early start (rest ++ third :: after) (by simp [split])
  exact List.mem_append_left _ inside

section Orders

variable {τ ε : Type*} [DecidableEq τ] {rules : List (Rule τ ε)} {order : List (Event τ)}

theorem mem_prereqs {rule : Rule τ ε} (member : rule ∈ rules) {target : τ} (names : target ∈ rule.targets)
    {prereq : τ} (needed : prereq ∈ rule.prereqs) : prereq ∈ prereqs rules target :=
  List.mem_flatMap.mpr ⟨rule, List.mem_filter.mpr ⟨member, by simpa using names⟩, needed⟩

/-- A recipe that no other rule replaces is the recipe of the target. -/
theorem recipe_eq {rule : Rule τ ε} (member : rule ∈ rules) {target : τ} (names : target ∈ rule.targets)
    {lines : List (Line τ ε)} (given : rule.recipe = some lines)
    (only : ∀ other ∈ rules, target ∈ other.targets → ∀ lines', other.recipe = some lines' → lines' = lines) :
    recipe rules target = lines := by
  have here : lines ∈ (rules.filter (target ∈ ·.targets)).filterMap (·.recipe) :=
    List.mem_filterMap.mpr ⟨rule, List.mem_filter.mpr ⟨member, by simpa using names⟩, given⟩
  unfold recipe
  cases last : ((rules.filter (target ∈ ·.targets)).filterMap (·.recipe)).getLast? with
  | none => simp [List.getLast?_eq_none_iff.mp last] at here
  | some lines' =>
    obtain ⟨other, inside, same⟩ := List.mem_filterMap.mp (List.mem_of_getLast? last)
    obtain ⟨inside, names'⟩ := List.mem_filter.mp inside
    exact only other inside (by simpa using names') lines' same

namespace Permitted

variable (permitted : Permitted rules order)

include permitted

theorem precedes {need event : Event τ} (needed : need ∈ needs rules event) : Precedes order need event :=
  fun before after split => permitted before event after split need needed

theorem ready_made {inst : Instance τ} {target : τ} :
    Precedes order (.ready inst target) (.made inst target) :=
  permitted.precedes (by simp [needs])

/-- A made target has its prerequisites made before it was ready. -/
theorem prereq_made {inst : Instance τ} {target prereq : τ} (needed : prereq ∈ prereqs rules target) :
    Precedes order (.made inst prereq) (.ready inst target) :=
  permitted.precedes (by simp [needs, needed])

/-- Everything below a target is made before the target is ready. -/
theorem path_made {inst : Instance τ} {target below : τ}
    (path : Relation.TransGen (fun target prereq => prereq ∈ prereqs rules target) target below) :
    Precedes order (.made inst below) (.ready inst target) := by
  induction path with
  | single needed => exact permitted.prereq_made needed
  | tail _ needed ih => exact (permitted.prereq_made needed).trans (permitted.ready_made.trans ih)

/-- No line of a recipe starts before the target is ready. -/
theorem ready_starts {inst : Instance τ} {target : τ} (line : ℕ) :
    Precedes order (.ready inst target) (.starts inst target line) := by
  induction line with
  | zero => exact permitted.precedes (by simp [needs])
  | succ line ih =>
    have started : Precedes order (.starts inst target line) (.ends inst target line) :=
      permitted.precedes (by simp [needs])
    exact ih.trans (started.trans (permitted.precedes (by simp [needs])))

/-- The lines of a recipe run one after the other. -/
theorem ends_starts {inst : Instance τ} {target : τ} {first second : ℕ} (earlier : first < second) :
    Precedes order (.ends inst target first) (.starts inst target second) := by
  induction second with
  | zero => omega
  | succ second ih =>
    have next : Precedes order (.ends inst target second) (.starts inst target (second + 1)) :=
      permitted.precedes (by simp [needs])
    rcases Nat.lt_succ_iff_lt_or_eq.mp earlier with before | rfl
    · have started : Precedes order (.starts inst target second) (.ends inst target second) :=
        permitted.precedes (by simp [needs])
      exact (ih before).trans (started.trans next)
    · exact next

/-- A made target has ended every line of its recipe. -/
theorem ends_made {inst : Instance τ} {target : τ} {line : ℕ} (inside : line < (recipe rules target).length) :
    Precedes order (.ends inst target line) (.made inst target) :=
  permitted.precedes (by simp [needs, inside])

/-- A line that calls make ends after the instance it starts has made the goal. -/
theorem goal_made {inst : Instance τ} {target goal : τ} {line : ℕ}
    (calls : (recipe rules target)[line]? = some (.make goal)) :
    Precedes order (.made ((target, line) :: inst) goal) (.ends inst target line) :=
  permitted.precedes (by simp [needs, calls])

end Permitted

end Orders

end CBuild.Machine.Make
