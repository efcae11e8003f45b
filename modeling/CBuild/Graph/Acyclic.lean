import Mathlib.Data.Fintype.Card
import Mathlib.Data.Set.Finite.List
import Mathlib.Logic.Relation

/-! # Induction on finite graphs without cycles

In a graph whose vertices are listed and none of which is on a cycle, a property holds of every
vertex once it passes from the successors of a vertex to the vertex.
-/

namespace CBuild.Graph

variable {α : Type*} {edge : α → α → Prop}

/-- Induction from the successors to a vertex. -/
theorem acyclic_induction {vertices : List α}
    (acyclic : ∀ a ∈ vertices, ¬ Relation.TransGen edge a a) {P : α → Prop}
    (step : ∀ a ∈ vertices, (∀ b ∈ vertices, edge a b → P b) → P a) : ∀ a ∈ vertices, P a := by
  let below (b a : {a // a ∈ vertices}) : Prop := Relation.TransGen edge a.1 b.1
  have finite : Finite {a // a ∈ vertices} := vertices.finite_toSet
  have trans : IsTrans _ below := ⟨fun _ _ _ first second => second.trans first⟩
  have irrefl : Std.Irrefl below := ⟨fun a => acyclic a.1 a.2⟩
  have wellFounded : WellFounded below := Finite.wellFounded_of_trans_of_irrefl below
  intro a member
  exact wellFounded.induction (C := fun a => P a.1) ⟨a, member⟩ fun a ih =>
    step a.1 a.2 fun b inside here => ih ⟨b, inside⟩ (.single here)

end CBuild.Graph
