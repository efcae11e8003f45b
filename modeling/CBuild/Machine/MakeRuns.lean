import CBuild.Machine.Make
import Mathlib.Data.List.Induction

/-! # Runs of a recursive make

A state is what has happened so far, and a step adds an event whose needs have happened. A run can always go on until
a goal is made when nothing that the goal waits for waits without end.
-/

namespace CBuild.Machine.Make

variable {τ ε : Type*} [DecidableEq τ] {rules : List (Rule τ ε)} {seen after : List (Event τ)} {event : Event τ}
  {inst : Instance τ} {target other : τ}

/-- One event more, that has not happened yet. -/
def Step (rules : List (Rule τ ε)) (seen after : List (Event τ)) : Prop :=
  ∃ event, event ∉ seen ∧ (∀ need ∈ needs rules event, need ∈ seen) ∧ after = seen ++ [event]

/-- Any number of events more. -/
def Goes (rules : List (Rule τ ε)) : List (Event τ) → List (Event τ) → Prop := Relation.ReflTransGen (Step rules)

theorem Goes.refl : Goes rules seen seen := Relation.ReflTransGen.refl

theorem Goes.trans {middle : List (Event τ)} (first : Goes rules seen middle) (second : Goes rules middle after) :
    Goes rules seen after := Relation.ReflTransGen.trans first second

theorem Goes.isPrefix (goes : Goes rules seen after) : seen <+: after := by
  induction goes with
  | refl => exact List.prefix_refl seen
  | tail _ step ih =>
    obtain ⟨last, _, _, rfl⟩ := step
    exact ih.trans (List.prefix_append ..)

/-- What has happened stays. -/
theorem Goes.kept (goes : Goes rules seen after) : ∀ event ∈ seen, event ∈ after :=
  fun _ member => goes.isPrefix.subset member

/-- The states of the runs are the permitted orders without repetitions. -/
theorem goes_iff {order : List (Event τ)} : Goes rules [] order ↔ Permitted rules order ∧ order.Nodup := by
  constructor
  · intro goes
    induction goes with
    | refl => exact ⟨fun before event after split => absurd split (by simp), .nil⟩
    | @tail middle last _ step ih =>
      obtain ⟨event, fresh, ready, rfl⟩ := step
      refine ⟨fun before other after split need needed => ?_, ?_⟩
      · rcases List.eq_nil_or_concat' after with rfl | ⟨after, final, rfl⟩
        · obtain ⟨rfl, same⟩ := List.append_inj' split rfl
          obtain rfl := List.head_eq_of_cons_eq same
          exact ready need needed
        · rw [← List.cons_append, ← List.append_assoc] at split
          obtain ⟨split, -⟩ := List.append_inj' split rfl
          exact ih.1 before other after split need needed
      · exact List.nodup_append.mpr ⟨ih.2, List.nodup_singleton _,
          fun first inside second here same => fresh (List.mem_singleton.mp here ▸ same ▸ inside)⟩
  · rintro ⟨permitted, distinct⟩
    induction order using List.reverseRecOn with
    | nil => exact .refl
    | append_singleton order event ih =>
      have before : Permitted rules order := fun before other after split =>
        permitted before other (after ++ [event]) (by rw [split, List.append_assoc, List.cons_append])
      refine .tail (ih before (List.nodup_append.mp distinct).1) ⟨event, fun member => ?_,
        permitted order event [] rfl, rfl⟩
      exact (List.nodup_append.mp distinct).2.2 event member event (List.mem_singleton_self _) rfl

/-- An event happens once its needs have. -/
theorem happens (ready : ∀ need ∈ needs rules event, need ∈ seen) : ∃ after, Goes rules seen after ∧ event ∈ after := by
  by_cases member : event ∈ seen
  · exact ⟨seen, .refl, member⟩
  · exact ⟨seen ++ [event], .single ⟨event, member, ready, rfl⟩, List.mem_append_right _ (List.mem_singleton_self _)⟩

/-- What a target waits for: a prerequisite, or the goal of an instance that its recipe starts. -/
def Waits (rules : List (Rule τ ε)) (target other : τ) : Prop :=
  other ∈ prereqs rules target ∨ Line.make other ∈ recipe rules target

theorem needs_ends_make {line : ℕ} {goal : τ} (calls : (recipe rules target)[line]? = some (.make goal)) :
    needs rules (.ends inst target line) = [.starts inst target line, .made ((target, line) :: inst) goal] := by
  rw [needs, calls]

theorem needs_ends_run {line : ℕ} (plain : ∀ goal, (recipe rules target)[line]? ≠ some (.make goal)) :
    needs rules (.ends inst target line) = [.starts inst target line] := by
  rw [needs]
  cases found : (recipe rules target)[line]? with
  | none => rfl
  | some action =>
    cases action with
    | run action => rfl
    | make goal => exact absurd found (plain goal)

/-- A rule says so. -/
theorem Waits.rule (waits : Waits rules target other) : ∃ rule ∈ rules, target ∈ rule.targets ∧
    (other ∈ rule.prereqs ∨ ∃ lines, rule.recipe = some lines ∧ Line.make other ∈ lines) := by
  rcases waits with needed | calls
  · obtain ⟨rule, inside, needed⟩ := List.mem_flatMap.mp needed
    obtain ⟨inside, names⟩ := List.mem_filter.mp inside
    exact ⟨rule, inside, by simpa using names, .inl needed⟩
  · unfold recipe at calls
    cases last : ((rules.filter (target ∈ ·.targets)).filterMap (·.recipe)).getLast? with
    | none =>
      rw [last] at calls
      exact absurd calls List.not_mem_nil
    | some lines =>
      rw [last] at calls
      obtain ⟨rule, inside, given⟩ := List.mem_filterMap.mp (List.mem_of_getLast? last)
      obtain ⟨inside, names⟩ := List.mem_filter.mp inside
      exact ⟨rule, inside, by simpa using names, .inr ⟨lines, given, calls⟩⟩

/-- All of a list can be made, one after the other. -/
theorem all_made {targets : List τ}
    (each : ∀ target ∈ targets, ∀ seen, (∀ event ∈ callers inst, event ∈ seen) →
      ∃ after, Goes rules seen after ∧ .made inst target ∈ after)
    (called : ∀ event ∈ callers inst, event ∈ seen) :
    ∃ after, Goes rules seen after ∧ ∀ target ∈ targets, .made inst target ∈ after := by
  induction targets generalizing seen with
  | nil => exact ⟨seen, .refl, fun _ member => absurd member List.not_mem_nil⟩
  | cons target targets ih =>
    obtain ⟨middle, first, here⟩ := each target (List.mem_cons_self ..) seen called
    obtain ⟨after, second, others⟩ :=
      @ih middle (fun other member => each other (List.mem_cons_of_mem _ member)) fun event member => first.kept event (called event member)
    exact ⟨after, first.trans second, List.forall_mem_cons.mpr ⟨second.kept _ here, others⟩⟩

/-- The lines of a recipe end one after the other. -/
theorem lines_end (goals : ∀ goal, Line.make goal ∈ recipe rules target → ∀ inst seen,
      (∀ event ∈ callers inst, event ∈ seen) → ∃ after, Goes rules seen after ∧ .made inst goal ∈ after)
    (ready : .ready inst target ∈ seen) (count : ℕ) :
    ∃ after, Goes rules seen after ∧ ∀ line < count, .ends inst target line ∈ after := by
  induction count with
  | zero => exact ⟨seen, .refl, fun line less => absurd less (Nat.not_lt_zero _)⟩
  | succ count ih =>
    obtain ⟨middle, first, ended⟩ := ih
    have startable : ∀ need ∈ needs rules (.starts inst target count), need ∈ middle := by
      cases count with
      | zero => exact fun need member => List.mem_singleton.mp member ▸ first.kept _ ready
      | succ count => exact fun need member => List.mem_singleton.mp member ▸ ended count (Nat.lt_succ_self _)
    obtain ⟨started, second, here⟩ := happens startable
    obtain ⟨called, third, finished⟩ : ∃ called, Goes rules started called ∧
        ∀ need ∈ needs rules (.ends inst target count), need ∈ called := by
      by_cases calls : ∃ goal, (recipe rules target)[count]? = some (.make goal)
      · obtain ⟨goal, line⟩ := calls
        obtain ⟨called, goes, made⟩ := goals goal (List.mem_of_getElem? line) ((target, count) :: inst) started
          fun event member => List.mem_singleton.mp member ▸ here
        rw [needs_ends_make line]
        exact ⟨called, goes, List.forall_mem_cons.mpr ⟨goes.kept _ here, List.forall_mem_singleton.mpr made⟩⟩
      · rw [needs_ends_run fun goal line => calls ⟨goal, line⟩]
        exact ⟨started, .refl, List.forall_mem_singleton.mpr here⟩
    obtain ⟨after, fourth, ends⟩ := happens finished
    have rest := third.trans fourth
    refine ⟨after, first.trans (second.trans rest), fun line less => ?_⟩
    rcases Nat.lt_succ_iff_lt_or_eq.mp less with earlier | rfl
    · exact (second.trans rest).kept _ (ended line earlier)
    · exact ends

/-- Every run can go on until a goal is made, if nothing that the goal waits for waits without end. -/
theorem goes_made (acc : Acc (fun other target => Waits rules target other) target)
    (called : ∀ event ∈ callers inst, event ∈ seen) : ∃ after, Goes rules seen after ∧ .made inst target ∈ after := by
  induction acc generalizing inst seen with
  | intro target _ ih =>
    obtain ⟨prepared, first, prerequisites⟩ := @all_made τ ε _ rules seen inst (prereqs rules target)
      (fun other member seen called => ih other (.inl member) called) called
    obtain ⟨begun, second, ready⟩ := @happens τ ε _ rules prepared (.ready inst target) (by
      intro need member
      rcases List.mem_append.mp member with made | caller
      · obtain ⟨other, inside, rfl⟩ := List.mem_map.mp made
        exact prerequisites other inside
      · exact first.kept _ (called need caller))
    obtain ⟨ran, third, ended⟩ := lines_end (fun goal member inst seen called => ih goal (.inr member) called) ready
      (recipe rules target).length
    obtain ⟨after, fourth, made⟩ := @happens τ ε _ rules ran (.made inst target) (by
      intro need member
      rcases List.mem_cons.mp member with rfl | listed
      · exact third.kept _ ready
      · obtain ⟨line, inside, rfl⟩ := List.mem_map.mp listed
        exact ended line (List.mem_range.mp inside))
    exact ⟨after, first.trans (second.trans (third.trans fourth)), made⟩

end CBuild.Machine.Make
