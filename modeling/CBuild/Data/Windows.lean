import Mathlib.Data.PEquiv

/-! # Replacing the values of some places

A window replaces the values that it expects at finitely many places, and can be taken back where it finds the
new ones. Two windows of which neither changes what both touch commute.
-/

namespace CBuild.Data

/-- The values before and after at some places; where they are the same, the window only looks. -/
structure Window (Place Value : Type*) where
  places : List Place
  old : Place → Value
  new : Place → Value

namespace Window

variable {Place Value : Type*} [DecidableEq Place] [DecidableEq Value] (window other : Window Place Value)
  {values written : Place → Value} {x : Place}

def put (inside outside : Place → Value) : Place → Value := fun x =>
  if x ∈ window.places then inside x else outside x

omit [DecidableEq Value] in
theorem put_of_mem (inside outside : Place → Value) (member : x ∈ window.places) :
    window.put inside outside x = inside x := if_pos member

omit [DecidableEq Value] in
theorem put_of_not_mem (inside outside : Place → Value) (away : x ∉ window.places) :
    window.put inside outside x = outside x := if_neg away

omit [DecidableEq Value] in
/-- Putting the values back where they were found. -/
theorem put_eq_iff {inside outside result : Place → Value} : window.put inside outside = result ↔
    (∀ x ∈ window.places, result x = inside x) ∧ ∀ x ∉ window.places, result x = outside x := by
  constructor
  · rintro rfl
    exact ⟨fun x member => window.put_of_mem inside outside member,
      fun x away => window.put_of_not_mem inside outside away⟩
  · rintro ⟨mems, aways⟩
    funext x
    by_cases member : x ∈ window.places
    · rw [window.put_of_mem _ _ member, mems x member]
    · rw [window.put_of_not_mem _ _ member, aways x member]

/-- The window as a partial bijection of what all places hold. -/
def write : (Place → Value) ≃. (Place → Value) where
  toFun values := if ∀ x ∈ window.places, values x = window.old x then some (window.put window.new values) else none
  invFun values := if ∀ x ∈ window.places, values x = window.new x then some (window.put window.old values) else none
  inv values written := by
    simp only [Option.ite_none_right_eq_some, Option.some.injEq, window.put_eq_iff]
    constructor
    · rintro ⟨news, olds, outside⟩
      exact ⟨olds, news, fun x away => (outside x away).symm⟩
    · rintro ⟨olds, news, outside⟩
      exact ⟨news, olds, fun x away => (outside x away).symm⟩

theorem write_eq_some_iff : window.write values = some written ↔
    (∀ x ∈ window.places, values x = window.old x) ∧ window.put window.new values = written :=
  Option.ite_none_right_eq_some.trans (and_congr_right fun _ => Option.some_inj)

theorem symm_eq_some_iff : window.write.symm written = some values ↔
    (∀ x ∈ window.places, written x = window.new x) ∧ window.put window.old written = values :=
  Option.ite_none_right_eq_some.trans (and_congr_right fun _ => Option.some_inj)

theorem symm_eq_none_iff : window.write.symm written = none ↔ ∃ x ∈ window.places, written x ≠ window.new x := by
  have found : window.write.symm written = none ↔ ¬ ∀ x ∈ window.places, written x = window.new x := by
    change (if _ then some _ else none) = none ↔ _
    rw [ite_eq_right_iff]
    exact imp_congr_right fun _ => iff_of_false (Option.some_ne_none _) id
  rw [found]
  push Not
  rfl

/-- Neither window changes what both touch. -/
def Apart : Prop := ∀ x ∈ window.places, x ∈ other.places → window.old x = window.new x ∧ other.old x = other.new x

variable {window other}

omit [DecidableEq Place] [DecidableEq Value] in
theorem Apart.symm (apart : window.Apart other) : other.Apart window :=
  fun x inside member => (apart x member inside).symm

/-- Windows apart can be written in the other order. -/
theorem Apart.swap (apart : window.Apart other) {middle : Place → Value} (first : window.write values = some middle)
    (second : other.write middle = some written) :
    ∃ between, other.write values = some between ∧ window.write between = some written := by
  obtain ⟨olds, rfl⟩ := window.write_eq_some_iff.mp first
  obtain ⟨olds', rfl⟩ := other.write_eq_some_iff.mp second
  have kept (x : Place) (member : x ∈ window.places) (inside : x ∈ other.places) :
      window.new x = values x ∧ other.new x = values x := by
    obtain ⟨same, same'⟩ := apart x member inside
    have here := olds' x inside
    rw [window.put_of_mem _ _ member, ← same, same'] at here
    exact ⟨same.symm.trans (olds x member).symm, here.symm.trans (olds x member).symm⟩
  refine ⟨_, other.write_eq_some_iff.mpr ⟨fun x inside => ?_, rfl⟩,
    window.write_eq_some_iff.mpr ⟨fun x member => ?_, window.put_eq_iff.mpr ⟨fun x member => ?_, fun x away => ?_⟩⟩⟩
  · by_cases member : x ∈ window.places
    · rw [(apart x member inside).2, (kept x member inside).2]
    · rw [← olds' x inside, window.put_of_not_mem _ _ member]
  · by_cases inside : x ∈ other.places
    · rw [other.put_of_mem _ _ inside, (kept x member inside).2, olds x member]
    · rw [other.put_of_not_mem _ _ inside, olds x member]
  · by_cases inside : x ∈ other.places
    · rw [other.put_of_mem _ _ inside, (kept x member inside).1, (kept x member inside).2]
    · rw [other.put_of_not_mem _ _ inside, window.put_of_mem _ _ member]
  · by_cases inside : x ∈ other.places
    · rw [other.put_of_mem _ _ inside, other.put_of_mem _ _ inside]
    · rw [other.put_of_not_mem _ _ inside, other.put_of_not_mem _ _ inside, window.put_of_not_mem _ _ away]

theorem Apart.commute (apart : window.Apart other) :
    window.write.trans other.write = other.write.trans window.write := by
  refine PEquiv.ext fun values => Option.ext fun written => ?_
  rw [PEquiv.trans_eq_some, PEquiv.trans_eq_some]
  constructor
  · rintro ⟨middle, first, second⟩
    exact apart.swap first second
  · rintro ⟨middle, first, second⟩
    exact apart.symm.swap first second

end Window

end CBuild.Data
