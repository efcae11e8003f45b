import Mathlib.Data.List.Basic
import Mathlib.Logic.Relation

/-! # Depth-first search

A search visits a vertex that is allowed and not yet visited, marks it, and visits its successors in
order. The graph may have cycles and the successors may be any vertices: with more fuel than there
are allowed vertices the search ends, and from nothing visited it finds exactly the vertices that
are reachable through allowed ones.
-/

namespace CBuild.Graph

variable {α : Type*} (successors : α → List α) (allowed : List α)

/-- Visit a vertex and what is reachable from it, after those that are seen; `none` when the fuel
runs out. -/
def visit [DecidableEq α] : ℕ → α → List α → Option (List α)
  | 0, _, _ => none
  | fuel + 1, a, seen =>
    if a ∈ allowed ∧ a ∉ seen then
      (successors a).foldlM (fun seen b => visit fuel b seen) (a :: seen)
    else some seen

def Step (a b : α) : Prop := b ∈ successors a ∧ b ∈ allowed

/-- What visiting the sources in order adds to the vertices that were seen. -/
structure Visited (sources seen result : List α) : Prop where
  kept : ∀ b ∈ seen, b ∈ result
  source : ∀ a ∈ sources, a ∈ allowed → a ∈ result
  sound : ∀ b ∈ result, b ∈ seen ∨
    ∃ a ∈ sources, a ∈ allowed ∧ Relation.ReflTransGen (Step successors allowed) a b
  closed : ∀ b ∈ result, b ∉ seen → ∀ c, Step successors allowed b c → c ∈ result

variable {successors allowed}

namespace Visited

theorem none (seen : List α) : Visited successors allowed [] seen seen where
  kept _ member := member
  source _ member := absurd member (by simp)
  sound _ member := .inl member
  closed _ member fresh := absurd member fresh

/-- Visits of sources one after the other. -/
theorem cons {a : α} {sources seen middle result : List α}
    (first : Visited successors allowed [a] seen middle)
    (rest : Visited successors allowed sources middle result) :
    Visited successors allowed (a :: sources) seen result where
  kept b member := rest.kept b (first.kept b member)
  source b member here := by
    rcases List.mem_cons.mp member with rfl | member
    · exact rest.kept _ (first.source _ (List.mem_singleton_self _) here)
    · exact rest.source b member here
  sound b member := by
    rcases rest.sound b member with old | ⟨c, inside, here, path⟩
    · refine (first.sound b old).imp_right fun ⟨c, inside, here, path⟩ => ⟨c, ?_, here, path⟩
      exact List.mem_singleton.mp inside ▸ List.mem_cons_self ..
    · exact .inr ⟨c, List.mem_cons_of_mem _ inside, here, path⟩
  closed b member fresh c step := by
    by_cases old : b ∈ middle
    · exact rest.kept c (first.closed b old fresh c step)
    · exact rest.closed b member old c step

/-- A vertex is visited once its successors are. -/
theorem enter {a : α} {seen result : List α} (here : a ∈ allowed)
    (next : Visited successors allowed (successors a) (a :: seen) result) :
    Visited successors allowed [a] seen result where
  kept b member := next.kept b (List.mem_cons_of_mem _ member)
  source b member _ := next.kept b (List.mem_singleton.mp member ▸ List.mem_cons_self ..)
  sound b member := by
    rcases next.sound b member with old | ⟨c, edge, inside, path⟩
    · rcases List.mem_cons.mp old with rfl | old
      · exact .inr ⟨b, List.mem_singleton_self _, here, .refl⟩
      · exact .inl old
    · exact .inr ⟨a, List.mem_singleton_self _, here, .head ⟨edge, inside⟩ path⟩
  closed b member fresh c step := by
    by_cases same : b = a
    · subst same
      exact next.source c step.1 step.2
    · exact next.closed b member (by simp [same, fresh]) c step

/-- A vertex that is not allowed, or seen already, adds nothing. -/
theorem skip {a : α} {seen : List α} (pass : ¬ (a ∈ allowed ∧ a ∉ seen)) :
    Visited successors allowed [a] seen seen where
  kept _ member := member
  source b member here := by
    rw [List.mem_singleton.mp member] at here ⊢
    exact not_not.mp fun fresh => pass ⟨here, fresh⟩
  sound _ member := .inl member
  closed _ member fresh := absurd member fresh

/-- The order of the vertices that were seen does not matter. -/
theorem of_mem_iff {sources seen seen' result : List α} (same : ∀ b, b ∈ seen ↔ b ∈ seen')
    (visited : Visited successors allowed sources seen result) : Visited successors allowed sources seen' result where
  kept b member := visited.kept b ((same b).mpr member)
  source := visited.source
  sound b member := (visited.sound b member).imp_left (same b).mp
  closed b member fresh := visited.closed b member (mt (same b).mp fresh)

end Visited

variable [DecidableEq α]

def unseen (allowed seen : List α) : ℕ := (allowed.filter (· ∉ seen)).length

theorem unseen_le {seen result : List α} (kept : ∀ b ∈ seen, b ∈ result) :
    unseen allowed result ≤ unseen allowed seen := by
  refine List.Sublist.length_le (List.monotone_filter_right allowed fun b fresh => ?_)
  simp only [decide_eq_true_eq] at fresh ⊢
  exact fun member => fresh (kept b member)

theorem unseen_cons_lt {a : α} {seen : List α} (here : a ∈ allowed) (fresh : a ∉ seen) :
    unseen allowed (a :: seen) < unseen allowed seen := by
  have kept : allowed.filter (· ∉ a :: seen) = (allowed.filter (· ∉ seen)).filter (· ≠ a) := by
    rw [List.filter_filter]
    exact List.filter_congr fun b _ => by simp
  unfold unseen
  rw [kept, List.length_filter_lt_length_iff_exists]
  exact ⟨a, List.mem_filter.mpr ⟨here, by simpa using fresh⟩, by simp⟩

theorem unseen_le_length (seen : List α) : unseen allowed seen ≤ allowed.length :=
  List.length_filter_le ..

/-- With more fuel than unseen vertices, the search ends and visits what it should. -/
theorem visit_visited {fuel : ℕ} (a : α) {seen : List α} (enough : unseen allowed seen < fuel) :
    ∃ result, visit successors allowed fuel a seen = some result ∧
      Visited successors allowed [a] seen result := by
  induction fuel generalizing a seen with
  | zero => omega
  | succ fuel ih =>
    have fold (sources seen : List α) (enough : unseen allowed seen < fuel) :
        ∃ result, sources.foldlM (fun seen b => visit successors allowed fuel b seen) seen = some result ∧
          Visited successors allowed sources seen result := by
      induction sources generalizing seen with
      | nil => exact ⟨seen, rfl, .none seen⟩
      | cons b sources next =>
        obtain ⟨middle, here, first⟩ := ih b enough
        obtain ⟨result, there, rest⟩ := next middle (Nat.lt_of_le_of_lt (unseen_le first.kept) enough)
        exact ⟨result, by rw [List.foldlM_cons, here]; exact there, first.cons rest⟩
    rw [visit]
    split
    · next here =>
      have fewer := unseen_cons_lt here.1 here.2
      obtain ⟨result, run, next⟩ := fold (successors a) (a :: seen) (by omega)
      exact ⟨result, run, next.enter here.1⟩
    · next pass => exact ⟨seen, rfl, .skip pass⟩

/-- A search that ended does the same with more fuel. -/
theorem visit_succ {fuel : ℕ} {a : α} {seen result : List α}
    (run : visit successors allowed fuel a seen = some result) :
    visit successors allowed (fuel + 1) a seen = some result := by
  induction fuel generalizing a seen result with
  | zero => cases run
  | succ fuel ih =>
    have fold (sources seen : List α)
        (run : sources.foldlM (fun seen b => visit successors allowed fuel b seen) seen = some result) :
        sources.foldlM (fun seen b => visit successors allowed (fuel + 1) b seen) seen = some result := by
      induction sources generalizing seen with
      | nil => exact run
      | cons b sources next =>
        rw [List.foldlM_cons] at run ⊢
        obtain ⟨middle, here, rest⟩ := Option.bind_eq_some_iff.mp run
        exact Option.bind_eq_some_iff.mpr ⟨middle, ih here, next middle rest⟩
    rw [visit] at run ⊢
    split at run
    · next here => rw [if_pos here]; exact fold _ _ run
    · next pass => rw [if_neg pass]; exact run

/-- On every graph the search ends, with the same result for every sufficient fuel. -/
theorem visit_ends (successors : α → List α) (allowed : List α) (a : α) (seen : List α) :
    ∃ result, ∀ fuel, allowed.length < fuel → visit successors allowed fuel a seen = some result := by
  have bound : unseen allowed seen ≤ allowed.length := unseen_le_length seen
  obtain ⟨result, run, _⟩ :=
    @visit_visited _ successors _ _ (allowed.length + 1) a _ (Nat.lt_succ_of_le bound)
  refine ⟨result, fun fuel enough => ?_⟩
  induction enough with
  | refl => exact run
  | step _ ih => exact visit_succ ih

/-- From nothing seen, the search finds what is reachable through allowed vertices. -/
theorem mem_visit {fuel : ℕ} (enough : allowed.length < fuel) {a : α} {result : List α}
    (run : visit successors allowed fuel a [] = some result) (b : α) :
    b ∈ result ↔ a ∈ allowed ∧ Relation.ReflTransGen (Step successors allowed) a b := by
  obtain ⟨result', same, visited⟩ := @visit_visited _ successors _ _ _ a _
    (Nat.lt_of_le_of_lt (unseen_le_length []) enough)
  cases run.symm.trans same
  constructor
  · intro member
    rcases visited.sound b member with old | ⟨c, inside, here, path⟩
    · contradiction
    · rw [List.mem_singleton.mp inside] at here path
      exact ⟨here, path⟩
  · rintro ⟨here, path⟩
    induction path with
    | refl => exact visited.source a (List.mem_singleton_self _) here
    | tail _ step ih => exact visited.closed _ ih (by simp) _ step

end CBuild.Graph
