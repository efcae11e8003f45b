import Mathlib.Data.List.Forall2
import Mathlib.Data.List.Basic

/-! # Lists

Facts about lists that the library lacks: a traversal that may fail relates the elements in order,
and a difference of lists subtracts the numbers of occurrences.
-/

namespace CBuild.Data

variable {α β : Type}

theorem mapM_eq_some_iff {f : α → Option β} {list : List α} {result : List β} :
    list.mapM f = some result ↔ List.Forall₂ (fun a b => f a = some b) list result := by
  induction list generalizing result with
  | nil => simp [eq_comm]
  | cons a list ih =>
    simp only [List.mapM_cons, bind, Option.bind_eq_some_iff, pure, Option.some.injEq,
      List.forall₂_cons_left_iff, ih]
    constructor
    · rintro ⟨b, here, rest, there, rfl⟩
      exact ⟨b, rest, here, there, rfl⟩
    · rintro ⟨b, rest, here, there, rfl⟩
      exact ⟨b, here, rest, there, rfl⟩

/-- The results of a traversal that succeeds are those of its elements. -/
theorem mem_of_mapM {f : α → Option β} {list : List α} {result : List β}
    (success : list.mapM f = some result) {b : β} : b ∈ result ↔ ∃ a ∈ list, f a = some b := by
  have related := mapM_eq_some_iff.mp success
  clear success
  induction related with
  | nil => simp
  | cons here _ ih => simp [ih, here, eq_comm]

/-- A traversal that succeeds does so at every element. -/
theorem exists_of_mapM {f : α → Option β} {list : List α} {result : List β}
    (success : list.mapM f = some result) {a : α} (member : a ∈ list) : ∃ b ∈ result, f a = some b := by
  have related := mapM_eq_some_iff.mp success
  clear success
  induction related with
  | nil => contradiction
  | cons here _ ih =>
    rcases List.mem_cons.mp member with rfl | member
    · exact ⟨_, List.mem_cons_self .., here⟩
    · obtain ⟨b, inside, found⟩ := ih member
      exact ⟨b, List.mem_cons_of_mem _ inside, found⟩

/-- A traversal succeeds when it does so at every element. -/
theorem mapM_some {f : α → Option β} {list : List α} (total : ∀ a ∈ list, ∃ b, f a = some b) :
    ∃ result, list.mapM f = some result := by
  induction list with
  | nil => exact ⟨[], rfl⟩
  | cons a list ih =>
    obtain ⟨b, here⟩ := total a (List.mem_cons_self ..)
    obtain ⟨rest, there⟩ := ih fun other member => total other (List.mem_cons_of_mem _ member)
    exact ⟨b :: rest, by simp [here, there]⟩

/-- Computations that may fail agree when their parts do. -/
theorem rel_bind {γ δ : Type} {first : α → β → Prop} {second : γ → δ → Prop} {a : Option α} {b : Option β}
    {f : α → Option γ} {g : β → Option δ} (start : Option.Rel first a b)
    (next : ∀ a b, first a b → Option.Rel second (f a) (g b)) : Option.Rel second (a.bind f) (b.bind g) := by
  cases start with
  | none => exact .none
  | some here => exact next _ _ here

theorem rel_bind_some {γ : Type} {first : α → β → Prop} {second : γ → β → Prop} {a : Option α} {b : Option β}
    {f : α → γ} (start : Option.Rel first a b) (next : ∀ a b, first a b → second (f a) b) :
    Option.Rel second (a.bind fun a => some (f a)) b := by
  cases start with
  | none => exact .none
  | some here => exact .some (next _ _ here)

theorem rel_mapM {γ : Type} {related : β → γ → Prop} {f : α → Option β} {g : α → Option γ}
    (each : ∀ a, Option.Rel related (f a) (g a)) (list : List α) :
    Option.Rel (List.Forall₂ related) (list.mapM f) (list.mapM g) := by
  induction list with
  | nil => exact .some .nil
  | cons a list ih =>
    rw [List.mapM_cons, List.mapM_cons]
    exact rel_bind (each a) fun b c here => rel_bind ih fun bs cs there => .some (.cons here there)

theorem eq_singleton_of_mem {a : α} {list : List α} (member : a ∈ list) (few : list.length ≤ 1) :
    list = [a] := by
  match list, few with
  | [b], _ => rw [List.mem_singleton.mp member]

/-- A nonempty list has a last element. -/
theorem exists_append_singleton {list : List α} (nonempty : list ≠ []) :
    ∃ init last, list = init ++ [last] :=
  ⟨list.dropLast, list.getLast nonempty, (List.dropLast_append_getLast nonempty).symm⟩

theorem isEmpty_append (first second : List α) :
    (first ++ second).isEmpty = (first.isEmpty && second.isEmpty) := by
  cases first <;> rfl

theorem append_eq_iff {first first' second second' : List α} (same : first.length = first'.length) :
    first ++ second = first' ++ second' ↔ first = first' ∧ second = second' :=
  ⟨fun equal => List.append_inj equal same, fun ⟨left, right⟩ => by rw [left, right]⟩

theorem count_diff [BEq α] [LawfulBEq α] (a : α) (first second : List α) :
    (first.diff second).count a = first.count a - second.count a := by
  induction second generalizing first with
  | nil => simp
  | cons b second ih =>
    rw [List.diff_cons, ih, List.count_erase, List.count_cons]
    split <;> omega

/-- Related sublists in order are related sublists of the whole. -/
theorem sublistForall₂_append {related : α → β → Prop} {first second : List α} {first' second' : List β}
    (before : List.SublistForall₂ related first first') (after : List.SublistForall₂ related second second') :
    List.SublistForall₂ related (first ++ second) (first' ++ second') := by
  obtain ⟨_, firstRelated, firstSublist⟩ := List.sublistForall₂_iff.mp before
  obtain ⟨_, secondRelated, secondSublist⟩ := List.sublistForall₂_iff.mp after
  exact List.sublistForall₂_iff.mpr
    ⟨_, List.rel_append firstRelated secondRelated, firstSublist.append secondSublist⟩

/-- In a list of pairs with distinct keys, each key is looked up. -/
theorem lookup_of_nodup {κ : Type} [BEq κ] [LawfulBEq κ] {list : List (κ × β)} {key : κ} {value : β}
    (distinct : (list.map Prod.fst).Nodup) (member : (key, value) ∈ list) : list.lookup key = some value := by
  induction list with
  | nil => contradiction
  | cons pair list ih =>
    obtain ⟨fresh, rest⟩ := List.nodup_cons.mp distinct
    rcases List.mem_cons.mp member with rfl | member
    · simp
    · have other : (key == pair.1) = false := by
        rw [beq_eq_false_iff_ne]
        rintro rfl
        exact fresh (List.mem_map.mpr ⟨_, member, rfl⟩)
      rw [List.lookup_cons, other]
      exact ih rest member

end CBuild.Data
