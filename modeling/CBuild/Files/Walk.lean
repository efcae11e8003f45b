import CBuild.Data.List
import Mathlib.Data.List.Nodup

/-! # Walking a tree of directories

A walk comes to a directory before what is below it, and goes on into the children that are chosen for the directory.
It comes to exactly the directories that chosen names lead to, each once.
-/

namespace CBuild.Files

variable {Name : Type} (children : List Name → List Name)

/-- The directories that are visited from a place, with fuel for the depth. -/
def walk : ℕ → List Name → Option (List (List Name))
  | 0, _ => none
  | fuel + 1, place => do
    let below ← (children place).mapM fun name => walk fuel (place ++ [name])
    some (place :: below.flatten)

/-- Each of the names is chosen where the names before it lead. -/
def Chosen (place : List Name) : List Name → Prop
  | [] => True
  | name :: names => name ∈ children place ∧ Chosen (place ++ [name]) names

variable {children} {fuel : ℕ} {place : List Name} {result : List (List Name)}

theorem chosen_append {first second : List Name} :
    Chosen children place (first ++ second) ↔ Chosen children place first ∧ Chosen children (place ++ first) second := by
  induction first generalizing place with
  | nil => simp [Chosen]
  | cons name first ih => rw [List.cons_append, Chosen, ih, Chosen, and_assoc, List.append_assoc, List.singleton_append]

theorem mem_walk (run : walk children fuel place = some result) {visited : List Name} :
    visited ∈ result ↔ ∃ names, visited = place ++ names ∧ Chosen children place names := by
  induction fuel generalizing place result with
  | zero => cases run
  | succ fuel ih =>
    obtain ⟨below, subs, same⟩ := Option.bind_eq_some_iff.mp run
    obtain rfl := Option.some.inj same
    rw [List.mem_cons, List.mem_flatten]
    constructor
    · rintro (rfl | ⟨sub, member, inside⟩)
      · exact ⟨[], (List.append_nil _).symm, trivial⟩
      · obtain ⟨name, child, here⟩ := (Data.mem_of_mapM subs).mp member
        obtain ⟨names, rfl, chosen⟩ := (ih here).mp inside
        exact ⟨name :: names, by rw [List.append_assoc, List.singleton_append], child, chosen⟩
    · rintro ⟨names, rfl, chosen⟩
      cases names with
      | nil => exact .inl (List.append_nil _)
      | cons name names =>
        obtain ⟨child, chosen⟩ := chosen
        obtain ⟨sub, member, here⟩ := Data.exists_of_mapM subs child
        refine .inr ⟨sub, member, (ih here).mpr ⟨names, ?_, chosen⟩⟩
        rw [List.append_assoc, List.singleton_append]

private theorem exists_of_related {α β : Type} {related : α → β → Prop} {first : List α} {second : List β}
    (all : List.Forall₂ related first second) {b : β} (member : b ∈ second) : ∃ a ∈ first, related a b := by
  induction all with
  | nil => contradiction
  | cons here _ ih =>
    rcases List.mem_cons.mp member with rfl | later
    · exact ⟨_, List.mem_cons_self .., here⟩
    · obtain ⟨a, inside, found⟩ := ih later
      exact ⟨a, List.mem_cons_of_mem _ inside, found⟩

theorem nodup_walk (distinct : ∀ place, (children place).Nodup) (run : walk children fuel place = some result) :
    result.Nodup := by
  induction fuel generalizing place result with
  | zero => cases run
  | succ fuel ih =>
    obtain ⟨below, subs, same⟩ := Option.bind_eq_some_iff.mp run
    obtain rfl := Option.some.inj same
    have related := Data.mapM_eq_some_iff.mp subs
    have under {sub : List (List Name)} {name : Name} (here : walk children fuel (place ++ [name]) = some sub)
        {visited : List Name} (member : visited ∈ sub) : ∃ names, visited = place ++ name :: names := by
      obtain ⟨names, rfl, -⟩ := (mem_walk here).mp member
      exact ⟨names, by rw [List.append_assoc, List.singleton_append]⟩
    refine List.nodup_cons.mpr ⟨fun member => ?_, List.nodup_flatten.mpr ⟨fun sub member => ?_, ?_⟩⟩
    · obtain ⟨sub, inside, again⟩ := List.mem_flatten.mp member
      obtain ⟨name, -, here⟩ := (Data.mem_of_mapM subs).mp inside
      obtain ⟨names, longer⟩ := under here again
      have lengths := congrArg List.length longer
      simp at lengths
    · obtain ⟨name, -, here⟩ := (Data.mem_of_mapM subs).mp member
      exact ih here
    · have apart := distinct place
      clear subs run same
      generalize children place = names at related apart
      induction related with
      | nil => exact .nil
      | @cons name sub names below here later next =>
        rw [List.nodup_cons] at apart
        refine .cons (fun other member visited inside inside' => ?_) (next apart.2)
        obtain ⟨name', member', here'⟩ := exists_of_related later member
        obtain ⟨rest, same⟩ := under here inside
        obtain ⟨rest', same'⟩ := under here' inside'
        have equal : name :: rest = name' :: rest' := List.append_cancel_left (same.symm.trans same')
        exact apart.1 ((List.cons.inj equal).1 ▸ member')

/-- The walk ends when the chains of chosen names are short. -/
theorem walk_ends {bound : ℕ} (deep : ∀ names, Chosen children place names → names.length < bound) (enough : bound ≤ fuel) :
    ∃ result, walk children fuel place = some result := by
  induction fuel generalizing bound place with
  | zero => exact absurd (deep [] trivial) (by simp; omega)
  | succ fuel ih =>
    have all : ∀ name ∈ children place, ∃ sub, walk children fuel (place ++ [name]) = some sub := by
      intro name member
      have shorter : ∀ names, Chosen children (place ++ [name]) names → names.length < bound - 1 := by
        intro names chosen
        have length := deep (name :: names) ⟨member, chosen⟩
        rw [List.length_cons] at length
        omega
      exact ih shorter (by omega)
    obtain ⟨below, subs⟩ := Data.mapM_some all
    exact ⟨place :: below.flatten, by rw [walk, subs]; rfl⟩

end CBuild.Files
