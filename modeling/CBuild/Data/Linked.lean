import Mathlib.Data.List.Basic
import Mathlib.Logic.Function.Basic

/-! # Linked lists

A partial function gives the element behind each one. Elements that are linked lead from a start to an end; adding one
behind the last of them, and taking one out, changes the function at two places.
-/

namespace CBuild.Data

variable {α : Type}

/-- The elements are linked, from the start to the end. -/
def Linked (next : α → Option α) (start : α) : List α → α → Prop
  | [], finish => next start = some finish
  | x :: xs, finish => next start = some x ∧ Linked next x xs finish

def lastFrom (start : α) (xs : List α) : α := xs.getLast?.getD start

variable {next next' : α → Option α} {start finish x y : α} {xs before after : List α}

theorem lastFrom_cons (start x : α) (xs : List α) : lastFrom start (x :: xs) = lastFrom x xs := by
  unfold lastFrom
  cases xs with
  | nil => rfl
  | cons y xs => rw [List.getLast?_cons_cons, List.getLast?_cons]; rfl

theorem lastFrom_append_cons (start : α) (before : List α) (x : α) (after : List α) :
    lastFrom start (before ++ x :: after) = lastFrom x after := by
  unfold lastFrom
  rw [List.getLast?_append, List.getLast?_cons]
  rfl

theorem lastFrom_mem (start : α) (xs : List α) : lastFrom start xs ∈ start :: xs := by
  unfold lastFrom
  cases last : xs.getLast? with
  | none => exact List.mem_cons_self ..
  | some x => exact List.mem_cons_of_mem _ (List.mem_of_getLast? last)

/-- What is behind other elements does not matter. -/
theorem Linked.congr (same : ∀ x ∈ start :: xs, next' x = next x) (linked : Linked next start xs finish) :
    Linked next' start xs finish := by
  induction xs generalizing start with
  | nil => exact (same start (List.mem_cons_self ..)).trans linked
  | cons x xs ih =>
    exact ⟨(same start (List.mem_cons_self ..)).trans linked.1,
      ih (fun y member => same y (List.mem_cons_of_mem _ member)) linked.2⟩

theorem linked_append : Linked next start (before ++ x :: after) finish ↔
    Linked next start before x ∧ Linked next x after finish := by
  induction before generalizing start with
  | nil => rfl
  | cons y before ih =>
    rw [List.cons_append]
    change _ ∧ Linked next y (before ++ x :: after) finish ↔ (_ ∧ Linked next y before x) ∧ _
    rw [ih, and_assoc]

theorem Linked.last (linked : Linked next start xs finish) : next (lastFrom start xs) = some finish := by
  induction xs generalizing start with
  | nil => exact linked
  | cons x xs ih => rw [lastFrom_cons]; exact ih linked.2

theorem Linked.first (linked : Linked next start xs finish) : next start = some (xs.headD finish) := by
  cases xs with
  | nil => exact linked
  | cons x xs => exact linked.1

variable [DecidableEq α]

/-- The last element leads to another end. -/
theorem Linked.redirect (linked : Linked next start xs finish) (distinct : (start :: xs).Nodup) (other : α) :
    Linked (Function.update next (lastFrom start xs) (some other)) start xs other := by
  induction xs generalizing start with
  | nil => exact Function.update_self ..
  | cons x xs ih =>
    obtain ⟨fresh, distinct'⟩ := List.nodup_cons.mp distinct
    rw [lastFrom_cons]
    have apart : start ≠ lastFrom x xs := fun same => fresh (same ▸ lastFrom_mem x xs)
    exact ⟨(Function.update_of_ne apart ..).trans linked.1, ih linked.2 distinct'⟩

/-- A new element behind the last one. -/
theorem Linked.add (linked : Linked next start xs finish) (distinct : (start :: xs).Nodup) (fresh : x ∉ start :: xs) :
    Linked (Function.update (Function.update next x (some finish)) (lastFrom start xs) (some x)) start (xs ++ [x])
      finish := by
  have apart : x ≠ lastFrom start xs := fun same => fresh (same ▸ lastFrom_mem start xs)
  have before : Linked (Function.update next x (some finish)) start xs finish :=
    linked.congr fun y member => Function.update_of_ne (fun same : y = x => fresh (same ▸ member)) ..
  exact linked_append.mpr ⟨before.redirect distinct x, (Function.update_of_ne apart ..).trans (Function.update_self ..)⟩

/-- An element is taken out, and leads nowhere. -/
theorem Linked.remove (linked : Linked next start (before ++ x :: after) finish)
    (distinct : (start :: (before ++ x :: after)).Nodup) :
    Linked (Function.update (Function.update next (lastFrom start before) (next x)) x none) start (before ++ after)
      finish := by
  obtain ⟨first, rest⟩ := linked_append.mp linked
  have parts : (start :: before ++ x :: after).Nodup := distinct
  obtain ⟨distinct₁, distinct₂, apart⟩ := List.nodup_append.mp parts
  obtain ⟨fresh, -⟩ := List.nodup_cons.mp distinct₂
  have others (y : α) (member : y ∈ start :: before) : y ≠ x := fun same =>
    apart y member x (List.mem_cons_self ..) same
  rw [rest.first]
  have redirected : Linked (Function.update (Function.update next (lastFrom start before) (some (after.headD finish))) x none)
      start before (after.headD finish) :=
    (first.redirect distinct₁ _).congr fun y member => Function.update_of_ne (others y member) ..
  cases after with
  | nil => rwa [List.append_nil]
  | cons y after =>
    refine linked_append.mpr ⟨redirected, rest.2.congr fun z member => ?_⟩
    have apart' : z ≠ lastFrom start before := fun same =>
      apart _ (lastFrom_mem start before) z (List.mem_cons_of_mem _ member) same.symm
    have here : z ≠ x := fun same => fresh (same ▸ member)
    rw [Function.update_of_ne here, Function.update_of_ne apart']

end CBuild.Data
