import Mathlib.Data.List.Perm.Basic
import Mathlib.Data.Nat.Notation

/-! # Release in rounds

The vertices that are ready are released together, round after round. Late vertices wait until
no other vertex is ready, and then no longer. Readiness may only grow with the vertices that are released.
-/

namespace CBuild.Graph

variable {α : Type*} (ready : Bool → List α → α → Bool)

/-- `patient` while late vertices wait. The verdict is whether all are released; `none` when the fuel runs
out. -/
def release : ℕ → Bool → List α → List α → Option (Bool × List α)
  | 0, _, _, _ => none
  | fuel + 1, patient, pending, done =>
    if pending.isEmpty then some (true, done)
    else if (pending.filter (ready patient done)).isEmpty then
      if patient then release fuel false pending done else some (false, done)
    else release fuel patient (pending.filter (!ready patient done ·)) (done ++ pending.filter (ready patient done))

/-- The rounds end: each releases a vertex, but for the one that ends the patience. -/
theorem release_ends {fuel : ℕ} {patient : Bool} {pending done : List α}
    (enough : pending.length + (if patient then 1 else 0) < fuel) :
    ∃ result, release ready fuel patient pending done = some result := by
  induction fuel generalizing patient pending done with
  | zero => omega
  | succ fuel ih =>
    unfold release
    split_ifs with empty stuck hopeful
    · exact ⟨_, rfl⟩
    · subst hopeful
      refine ih ?_
      simp only [if_true] at enough
      simp only [Bool.false_eq_true, if_false]
      omega
    · exact ⟨_, rfl⟩
    · refine ih ?_
      have split := List.length_eq_length_filter_add (l := pending) (ready patient done)
      have released : 0 < (pending.filter (ready patient done)).length := by
        rw [List.length_pos_iff]
        exact fun none => stuck (by rw [none]; rfl)
      omega

section Outcome

variable (complete : List α → α → Prop) (late : α → Prop) (vertices : List α)

/-- The vertices in the order of their release: each was complete when its turn came, and before the late
ones all others were released that could be. -/
structure Released (order : List α) : Prop where
  inside : ∀ a ∈ order, a ∈ vertices
  sorted : ∀ first a rest, order = first ++ a :: rest → complete first a
  early : ∃ early, early <+: order ∧ (∀ a ∈ early, ¬ late a) ∧
    ∀ a ∈ vertices, a ∉ early → ¬ late a → ¬ complete early a

variable {complete late vertices}

/-- What the rounds keep. -/
structure Rounds (complete : List α → α → Prop) (late : α → Prop) (vertices : List α) (patient : Bool)
    (pending done : List α) : Prop where
  perm : (done ++ pending).Perm vertices
  sorted : ∀ first a rest, done = first ++ a :: rest → complete first a
  waiting : patient = true → ∀ a ∈ done, ¬ late a
  early : patient = false → ∃ early, early <+: done ∧ (∀ a ∈ early, ¬ late a) ∧
    ∀ a ∈ vertices, a ∉ early → ¬ late a → ¬ complete early a

variable {ready} {patient : Bool} {pending done : List α}

namespace Rounds

variable (grows : ∀ first second a, first ⊆ second → complete first a → complete second a)
  (ready_iff : ∀ patient done a, (done ++ [a]).Subperm vertices →
    (ready patient done a = true ↔ complete done a ∧ (patient = true → ¬ late a)))
  (rounds : Rounds complete late vertices patient pending done)

include rounds

theorem subperm {a : α} (member : a ∈ pending) : (done ++ [a]).Subperm vertices :=
  ((List.subperm_append_left done).mpr (List.singleton_subperm_iff.mpr member)).trans rounds.perm.subperm

include ready_iff

theorem not_ready (none : (pending.filter (ready patient done)).isEmpty = true) {a : α} (member : a ∈ vertices)
    (fresh : a ∉ done) : ¬ (complete done a ∧ (patient = true → ¬ late a)) := by
  have waits : a ∈ pending := (List.mem_append.mp (rounds.perm.mem_iff.mpr member)).resolve_left fresh
  rw [← ready_iff patient done a (rounds.subperm waits)]
  exact List.filter_eq_nil_iff.mp (List.isEmpty_iff.mp none) a waits

/-- The round that ends the patience. -/
theorem hurry (hopeful : patient = true) (none : (pending.filter (ready patient done)).isEmpty = true) :
    Rounds complete late vertices false pending done where
  perm := rounds.perm
  sorted := rounds.sorted
  waiting := nofun
  early _ := ⟨done, List.prefix_refl done, rounds.waiting hopeful, fun _ member fresh soon complete =>
    rounds.not_ready ready_iff none member fresh ⟨complete, fun _ => soon⟩⟩

include grows

/-- One round. -/
theorem next : Rounds complete late vertices patient (pending.filter (!ready patient done ·))
    (done ++ pending.filter (ready patient done)) where
  perm := by
    rw [List.append_assoc]
    exact ((List.filter_append_perm (ready patient done) pending).append_left done).trans rounds.perm
  sorted first a rest same := by
    have turn : a ∈ done ++ pending.filter (ready patient done) := by
      rw [same]
      exact List.mem_append_right _ (List.mem_cons_self ..)
    rcases List.append_eq_append_iff.mp same with ⟨more, rfl, there⟩ | ⟨more, rfl, there⟩
    · have now : a ∈ pending.filter (ready patient done) := by
        rw [there]
        exact List.mem_append_right _ (List.mem_cons_self ..)
      obtain ⟨waits, here⟩ := List.mem_filter.mp now
      exact grows done _ a (List.subset_append_left ..)
        ((ready_iff patient done a (rounds.subperm waits)).mp here).1
    · cases more with
      | nil =>
        have now : a ∈ pending.filter (ready patient (first ++ [])) := by
          rw [List.nil_append] at there
          rw [← there]
          exact List.mem_cons_self ..
        obtain ⟨waits, here⟩ := List.mem_filter.mp now
        exact grows _ _ a (by simp) ((ready_iff patient _ a (rounds.subperm waits)).mp here).1
      | cons other more =>
        cases there
        exact rounds.sorted first a more rfl
  waiting hopeful a member := by
    rcases List.mem_append.mp member with old | now
    · exact rounds.waiting hopeful a old
    · obtain ⟨waits, here⟩ := List.mem_filter.mp now
      exact ((ready_iff patient done a (rounds.subperm waits)).mp here).2 hopeful
  early hurried := by
    obtain ⟨early, before, soon, none⟩ := rounds.early hurried
    exact ⟨early, before.trans (List.prefix_append ..), soon, none⟩

end Rounds

/-- What the rounds lead to. -/
theorem release_released {fuel : ℕ} {verdict : Bool} {order : List α} (distinct : vertices.Nodup)
    (grows : ∀ first second a, first ⊆ second → complete first a → complete second a)
    (ready_iff : ∀ patient done a, (done ++ [a]).Subperm vertices →
      (ready patient done a = true ↔ complete done a ∧ (patient = true → ¬ late a)))
    (rounds : Rounds complete late vertices patient pending done)
    (result : release ready fuel patient pending done = some (verdict, order)) :
    Released complete late vertices order ∧ (verdict = true → order.Perm vertices) ∧
      (verdict = false → (∃ a ∈ vertices, a ∉ order) ∧ ∀ a ∈ vertices, a ∉ order → ¬ complete order a) := by
  induction fuel generalizing patient pending done with
  | zero => cases result
  | succ fuel ih =>
    unfold release at result
    split_ifs at result with empty stuck hopeful
    · cases result
      have none : pending = [] := List.isEmpty_iff.mp empty
      subst none
      have all : order.Perm vertices := by simpa using rounds.perm
      refine ⟨⟨fun a member => all.mem_iff.mp member, rounds.sorted, ?_⟩, fun _ => all, nofun⟩
      cases patient with
      | true =>
        exact ⟨order, List.prefix_refl order, rounds.waiting rfl, fun a member fresh =>
          absurd (all.mem_iff.mpr member) fresh⟩
      | false => exact rounds.early rfl
    · exact ih (rounds.hurry ready_iff hopeful stuck) result
    · cases result
      have hurried : patient = false := by simpa using hopeful
      subst hurried
      refine ⟨⟨fun a member => rounds.perm.mem_iff.mp (List.mem_append_left _ member), rounds.sorted,
        rounds.early rfl⟩, nofun, fun _ => ⟨?_, fun a member fresh complete =>
        rounds.not_ready ready_iff stuck member fresh ⟨complete, nofun⟩⟩⟩
      obtain ⟨a, rest, rfl⟩ := List.exists_cons_of_ne_nil (fun none => empty (List.isEmpty_iff.mpr none))
      refine ⟨a, rounds.perm.mem_iff.mp (List.mem_append_right _ (List.mem_cons_self ..)), fun member => ?_⟩
      have apart := rounds.perm.nodup_iff.mpr distinct
      exact (List.nodup_append.mp apart).2.2 a member a (List.mem_cons_self ..) rfl
    · exact ih (rounds.next grows ready_iff) result

end Outcome

end CBuild.Graph
