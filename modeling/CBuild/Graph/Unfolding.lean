import CBuild.Data.List
import CBuild.Graph.Acyclic
import Mathlib.Data.List.Count
import Mathlib.Data.List.Nodup

/-! # Unfolding a graph

A traversal without marks goes from each vertex into all its successors, again whenever it comes to the vertex. It
ends and comes to every vertex at most once exactly when the vertices that it reaches form a forest with the starts
as roots.
-/

namespace CBuild.Graph

open CBuild.Data

variable {α : Type} (next : α → List α)

/-- A vertex, and what its successors unfold to, in order; `none` when the fuel runs out. -/
def unfold : ℕ → α → Option (List α)
  | 0, _ => none
  | fuel + 1, a => do
    let below ← (next a).mapM (unfold fuel)
    some (a :: below.flatten)

/-- What the starts unfold to, one after the other. -/
def unfoldAll (fuel : ℕ) (starts : List α) : Option (List α) := do
  let parts ← starts.mapM (unfold next fuel)
  some parts.flatten

def Reached (starts : List α) (a : α) : Prop :=
  ∃ start ∈ starts, Relation.ReflTransGen (fun a b => b ∈ next a) start a

/-- Every vertex that is reached is a start, once, or a successor, once, of one vertex that is reached. -/
structure Forest (starts : List α) : Prop where
  distinct : starts.Nodup
  roots : ∀ a, Reached next starts a → ∀ b ∈ next a, b ∉ starts
  successors : ∀ a, Reached next starts a → (next a).Nodup
  parent : ∀ a b c, Reached next starts a → Reached next starts b → c ∈ next a → c ∈ next b → a = b

variable {next} {starts : List α} {fuel : ℕ} {a b : α} {list : List α}

theorem Reached.of_start (member : a ∈ starts) : Reached next starts a := ⟨a, member, .refl⟩

theorem Reached.step (reached : Reached next starts a) (member : b ∈ next a) : Reached next starts b := by
  obtain ⟨start, inside, path⟩ := reached
  exact ⟨start, inside, path.tail member⟩

theorem Reached.trans (reached : Reached next starts a)
    (path : Relation.ReflTransGen (fun a b => b ∈ next a) a b) : Reached next starts b := by
  obtain ⟨start, inside, first⟩ := reached
  exact ⟨start, inside, first.trans path⟩

/-- Where each of some vertices unfolds to itself and the successors of what it unfolds to, so do all. -/
theorem perm_flatten {parts : List (List α)}
    (each : List.Forall₂ (fun a part => List.Perm part (a :: part.flatMap next)) starts parts) :
    parts.flatten.Perm (starts ++ parts.flatten.flatMap next) := by
  induction each with
  | nil => exact .refl _
  | @cons a part starts parts here _ ih =>
    rw [List.flatten_cons, List.flatMap_append, List.cons_append]
    refine (here.append ih).trans ?_
    rw [List.cons_append]
    refine .cons a ?_
    rw [← List.append_assoc, ← List.append_assoc]
    exact List.perm_append_comm.append_right _

/-- What is unfolded is the vertex, and the successors of what is unfolded. -/
theorem unfold_perm (run : unfold next fuel a = some list) : list.Perm (a :: list.flatMap next) := by
  induction fuel generalizing a list with
  | zero => cases run
  | succ fuel ih =>
    obtain ⟨below, each, same⟩ := Option.bind_eq_some_iff.mp run
    cases same
    have parts := (mapM_eq_some_iff.mp each).imp fun b part here => ih here
    exact .cons a (perm_flatten parts)

theorem unfoldAll_perm (run : unfoldAll next fuel starts = some list) :
    list.Perm (starts ++ list.flatMap next) := by
  obtain ⟨parts, each, same⟩ := Option.bind_eq_some_iff.mp run
  cases same
  exact perm_flatten ((mapM_eq_some_iff.mp each).imp fun a part here => unfold_perm here)

theorem mem_of_reached (perm : list.Perm (starts ++ list.flatMap next)) (reached : Reached next starts a) :
    a ∈ list := by
  obtain ⟨start, inside, path⟩ := reached
  induction path with
  | refl => exact perm.mem_iff.mpr (List.mem_append_left _ inside)
  | @tail b c _ step ih =>
    exact perm.mem_iff.mpr (List.mem_append_right _ (List.mem_flatMap.mpr ⟨b, ih, step⟩))

/-- What is unfolded without repetition is a forest. -/
theorem forest_of_nodup (perm : list.Perm (starts ++ list.flatMap next)) (nodup : list.Nodup) :
    Forest next starts := by
  obtain ⟨distinct, flat, apart⟩ := List.nodup_append.mp (perm.nodup_iff.mp nodup)
  obtain ⟨each, pairs⟩ := List.nodup_flatMap.mp flat
  refine ⟨distinct, fun a reached b member inside => ?_, fun a reached => each a (mem_of_reached perm reached), ?_⟩
  · exact apart b inside b (List.mem_flatMap.mpr ⟨a, mem_of_reached perm reached, member⟩) rfl
  · intro a b c reachedA reachedB inA inB
    by_contra differ
    have symm : Std.Symm (Function.onFun List.Disjoint next) := ⟨fun _ _ disjoint => disjoint.symm⟩
    have disjoint := pairs.forall (mem_of_reached perm reachedA) (mem_of_reached perm reachedB) differ
    exact disjoint inA inB

namespace Forest

/-- No vertex of a forest is on a cycle. -/
theorem no_cycle (forest : Forest next starts) (reached : Reached next starts a) :
    ¬ Relation.TransGen (fun a b => b ∈ next a) a a := by
  obtain ⟨start, inside, path⟩ := reached
  induction path with
  | refl =>
    intro cycle
    obtain ⟨last, toLast, step⟩ := Relation.TransGen.tail'_iff.mp cycle
    exact forest.roots last (Reached.trans (.of_start inside) toLast) start step inside
  | @tail b c path step ih =>
    intro cycle
    obtain ⟨last, toLast, back⟩ := Relation.TransGen.tail'_iff.mp cycle
    -- the vertex before `c` on the cycle is the one before it on the path
    have reachedB : Reached next starts b := ⟨start, inside, path⟩
    obtain rfl := forest.parent last b c ((reachedB.step step).trans toLast) reachedB back step
    exact ih (.head' step toLast)

variable [DecidableEq α]

/-- Every vertex of a forest is unfolded once. -/
theorem count_eq_one (forest : Forest next starts) (perm : list.Perm (starts ++ list.flatMap next))
    (sound : ∀ b ∈ list, Reached next starts b) (reached : Reached next starts a) : list.count a = 1 := by
  obtain ⟨start, inside, path⟩ := reached
  induction path with
  | refl =>
    have none : start ∉ list.flatMap next := by
      intro member
      obtain ⟨b, inList, step⟩ := List.mem_flatMap.mp member
      exact forest.roots b (sound b inList) start step inside
    rw [perm.count_eq, List.count_append, List.count_eq_zero_of_not_mem none,
      List.count_eq_one_of_mem forest.distinct inside]
  | @tail b c path step ih =>
    have reached : Reached next starts b := ⟨start, inside, path⟩
    have notStart : c ∉ starts := forest.roots b reached c step
    rw [perm.count_eq, List.count_append, List.count_eq_zero_of_not_mem notStart, Nat.zero_add, ← ih]
    clear perm ih
    induction list with
    | nil => rfl
    | cons d list ih =>
      rw [List.flatMap_cons, List.count_append, ih fun e member => sound e (List.mem_cons_of_mem _ member),
        List.count_cons, Nat.add_comm]
      congr 1
      split
      · next same =>
        obtain rfl := eq_of_beq same
        exact List.count_eq_one_of_mem (forest.successors d reached) step
      · next differs =>
        refine List.count_eq_zero_of_not_mem fun member => differs (beq_iff_eq.mpr ?_)
        exact forest.parent d b c (sound d (List.mem_cons_self ..)) reached member step

end Forest

theorem unfold_mono {more : ℕ} (run : unfold next fuel a = some list) (le : fuel ≤ more) :
    unfold next more a = some list := by
  induction fuel generalizing a list more with
  | zero => cases run
  | succ fuel ih =>
    cases more with
    | zero => omega
    | succ more =>
      obtain ⟨below, each, same⟩ := Option.bind_eq_some_iff.mp run
      have later := (mapM_eq_some_iff.mp each).imp fun b part here => ih here (Nat.le_of_succ_le_succ le)
      exact Option.bind_eq_some_iff.mpr ⟨below, mapM_eq_some_iff.mpr later, same⟩

theorem unfoldAll_mono {more : ℕ} (run : unfoldAll next fuel starts = some list) (le : fuel ≤ more) :
    unfoldAll next more starts = some list := by
  obtain ⟨parts, each, same⟩ := Option.bind_eq_some_iff.mp run
  have later := (mapM_eq_some_iff.mp each).imp fun a part here => unfold_mono here le
  exact Option.bind_eq_some_iff.mpr ⟨parts, mapM_eq_some_iff.mpr later, same⟩

/-- From a vertex that is its own successor there is no end. -/
theorem unfold_loop (loop : a ∈ next a) (fuel : ℕ) : unfold next fuel a = none := by
  induction fuel with
  | zero => rfl
  | succ fuel ih =>
    refine Option.eq_none_iff_forall_ne_some.mpr fun list run => ?_
    obtain ⟨below, each, -⟩ := Option.bind_eq_some_iff.mp run
    obtain ⟨part, -, here⟩ := exists_of_mapM each loop
    rw [ih] at here
    cases here

/-- Fuel for each of finitely many vertices is fuel for all. -/
theorem exists_fuel {vertices : List α} (each : ∀ a ∈ vertices, ∃ fuel list, unfold next fuel a = some list) :
    ∃ fuel, ∀ a ∈ vertices, ∃ list, unfold next fuel a = some list := by
  induction vertices with
  | nil => exact ⟨0, by simp⟩
  | cons a vertices ih =>
    obtain ⟨first, list, here⟩ := each a (List.mem_cons_self ..)
    obtain ⟨rest, others⟩ := ih fun b member => each b (List.mem_cons_of_mem _ member)
    refine ⟨max first rest, fun b member => ?_⟩
    rcases List.mem_cons.mp member with rfl | member
    · exact ⟨list, unfold_mono here (Nat.le_max_left ..)⟩
    · obtain ⟨list, there⟩ := others b member
      exact ⟨list, unfold_mono there (Nat.le_max_right ..)⟩

theorem unfold_ends (forest : Forest next starts) {vertices : List α}
    (listed : ∀ a, Reached next starts a → a ∈ vertices) (reached : Reached next starts a) :
    ∃ fuel list, unfold next fuel a = some list := by
  classical
  have finite : ∀ a, a ∈ vertices.filter (Reached next starts ·) ↔ Reached next starts a := by
    intro a
    simpa using listed a
  refine @acyclic_induction _ (fun a b => b ∈ next a) (vertices.filter (Reached next starts ·))
    (fun a member => forest.no_cycle ((finite a).mp member)) (fun a => ∃ fuel list, unfold next fuel a = some list)
    (fun a member ih => ?_) a ((finite a).mpr reached)
  have reached := (finite a).mp member
  obtain ⟨fuel, each⟩ := exists_fuel fun b step => ih b ((finite b).mpr (reached.step step)) step
  obtain ⟨below, run⟩ := mapM_some each
  exact ⟨fuel + 1, a :: below.flatten, by rw [unfold, run]; rfl⟩

theorem reached_of_mem_unfold (run : unfold next fuel a = some list) (reached : Reached next starts a) :
    ∀ b ∈ list, Reached next starts b := by
  induction fuel generalizing a list with
  | zero => cases run
  | succ fuel ih =>
    obtain ⟨below, each, same⟩ := Option.bind_eq_some_iff.mp run
    cases same
    intro b member
    rcases List.mem_cons.mp member with rfl | member
    · exact reached
    · obtain ⟨part, inside, inPart⟩ := List.mem_flatten.mp member
      obtain ⟨c, step, here⟩ := (mem_of_mapM each).mp inside
      exact ih here (reached.step step) b inPart

/-- The traversal ends without repetition exactly on a forest. -/
theorem unfoldAll_nodup_iff {vertices : List α} (listed : ∀ a, Reached next starts a → a ∈ vertices) :
    (∃ fuel list, unfoldAll next fuel starts = some list ∧ list.Nodup) ↔ Forest next starts := by
  classical
  constructor
  · rintro ⟨fuel, list, run, nodup⟩
    exact forest_of_nodup (unfoldAll_perm run) nodup
  · intro forest
    obtain ⟨fuel, each⟩ := exists_fuel fun a member => unfold_ends forest listed (.of_start member)
    obtain ⟨parts, run⟩ := mapM_some each
    have all : unfoldAll next fuel starts = some parts.flatten := by
      rw [unfoldAll, run]
      rfl
    refine ⟨fuel, parts.flatten, all, List.nodup_iff_count_le_one.mpr fun a => ?_⟩
    have sound : ∀ b ∈ parts.flatten, Reached next starts b := by
      intro b member
      obtain ⟨part, inside, inPart⟩ := List.mem_flatten.mp member
      obtain ⟨start, isStart, here⟩ := (mem_of_mapM run).mp inside
      exact reached_of_mem_unfold here (.of_start isStart) b inPart
    by_cases member : a ∈ parts.flatten
    · exact (forest.count_eq_one (unfoldAll_perm all) sound (sound a member)).le
    · exact (List.count_eq_zero_of_not_mem member).le.trans (Nat.zero_le 1)

end CBuild.Graph
