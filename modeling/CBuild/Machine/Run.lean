import Mathlib.Data.List.Basic

/-! # Runs of a total step function

A machine is a step function on states; an event carries everything its environment decides, so
a run is the left fold of its events. `Guarded` says that each event of a run is allowed in the
state where it is taken. An invariant that allowed steps preserve holds after every guarded run,
and a map of machines carries runs to runs.
-/

namespace CBuild.Machine

variable {σ τ ε : Type*}

def run (step : σ → ε → σ) : σ → List ε → σ
  | s, [] => s
  | s, e :: es => run step (step s e) es

/-- Every event of the run is allowed in the state where it is taken. -/
def Guarded (step : σ → ε → σ) (allowed : σ → ε → Prop) : σ → List ε → Prop
  | _, [] => True
  | s, e :: es => allowed s e ∧ Guarded step allowed (step s e) es

@[simp] theorem run_nil (step : σ → ε → σ) (s : σ) : run step s [] = s := rfl

@[simp] theorem run_cons (step : σ → ε → σ) (s : σ) (e : ε) (es : List ε) :
    run step s (e :: es) = run step (step s e) es := rfl

/-- Runs compose at the state they share. -/
theorem run_append (step : σ → ε → σ) (s : σ) (first second : List ε) :
    run step s (first ++ second) = run step (run step s first) second := by
  induction first generalizing s with
  | nil => rfl
  | cons e es ih => exact ih (step s e)

theorem guarded_append (step : σ → ε → σ) (allowed : σ → ε → Prop) (s : σ)
    (first second : List ε) :
    Guarded step allowed s (first ++ second) ↔
      Guarded step allowed s first ∧ Guarded step allowed (run step s first) second := by
  induction first generalizing s with
  | nil => simp [Guarded]
  | cons e es ih => simp only [List.cons_append, Guarded, ih, run_cons, and_assoc]

/-- Two conditions on the events of a run are one. -/
theorem guarded_and {step : σ → ε → σ} {first second : σ → ε → Prop} {s : σ} {es : List ε} :
    Guarded step (fun s e => first s e ∧ second s e) s es ↔
      Guarded step first s es ∧ Guarded step second s es := by
  induction es generalizing s with
  | nil => exact (and_iff_left trivial).symm
  | cons e es ih => simp only [Guarded, ih, and_and_and_comm]

/-- Two conditions that agree in the states of an invariant, under a third one, guard the same runs. -/
theorem guarded_congr {step : σ → ε → σ} {first second third : σ → ε → Prop} {Inv : σ → Prop}
    (preserved : ∀ s e, Inv s → third s e → second s e → Inv (step s e))
    (agree : ∀ s e, Inv s → third s e → (first s e ↔ second s e)) {s : σ} {es : List ε} (initial : Inv s)
    (guarded : Guarded step third s es) : Guarded step first s es ↔ Guarded step second s es := by
  induction es generalizing s with
  | nil => exact Iff.rfl
  | cons e es ih =>
    refine (and_congr_left' (agree s e initial guarded.1)).trans (and_congr_right fun here => ?_)
    exact ih (preserved s e initial guarded.1 here) guarded.2

/-- Events that are allowed in every state make a guarded run. -/
theorem guarded_of_forall {step : σ → ε → σ} {allowed : ε → Prop} (s : σ) {es : List ε}
    (each : ∀ e ∈ es, allowed e) : Guarded step (fun _ e => allowed e) s es := by
  induction es generalizing s with
  | nil => trivial
  | cons e es ih => exact ⟨each e (List.mem_cons_self ..), ih _ fun e' member => each e' (List.mem_cons_of_mem _ member)⟩

/-- An invariant of allowed steps is an invariant of guarded runs. -/
theorem Guarded.invariant {step : σ → ε → σ} {allowed : σ → ε → Prop} {Inv : σ → Prop}
    (preserved : ∀ s e, Inv s → allowed s e → Inv (step s e)) {s : σ} {es : List ε}
    (guarded : Guarded step allowed s es) (initial : Inv s) : Inv (run step s es) := by
  induction es generalizing s with
  | nil => exact initial
  | cons e es ih => exact ih guarded.2 (preserved s e initial guarded.1)

/-- Where, in the states of an invariant, a step is allowed exactly when the state after it is good, a run
is guarded exactly when all the states that it reaches are good. -/
theorem guarded_iff_good {step : σ → ε → σ} {allowed : σ → ε → Prop} {Inv Good : σ → Prop}
    (preserved : ∀ s e, Inv s → allowed s e → Inv (step s e))
    (exact : ∀ s e, Inv s → (allowed s e ↔ Good (step s e))) {s : σ} (initial : Inv s) (good : Good s)
    (es : List ε) :
    (∀ first, first <+: es → Good (run step s first)) ↔ Guarded step allowed s es := by
  induction es generalizing s with
  | nil => exact iff_of_true (fun first empty => by rwa [List.prefix_nil.mp empty]) trivial
  | cons e es ih =>
    constructor
    · intro each
      have head : allowed s e := (exact s e initial).mpr (each [e] (by simp))
      have next : Good (step s e) := (exact s e initial).mp head
      refine ⟨head, (ih (preserved s e initial head) next).mp fun first front => ?_⟩
      exact each (e :: first) (List.cons_prefix_cons.mpr ⟨rfl, front⟩)
    · rintro ⟨head, rest⟩ first front
      have next : Good (step s e) := (exact s e initial).mp head
      obtain rfl | ⟨tail, rfl, shorter⟩ := List.prefix_cons_iff.mp front
      · exact good
      · exact (ih (preserved s e initial head) next).mpr rest tail shorter

/-- Where a state that is not good is never left, a run is guarded exactly when it ends in a good state. -/
theorem guarded_iff_final {step : σ → ε → σ} {allowed : σ → ε → Prop} {Good : σ → Prop}
    (exact : ∀ s e, Good s → (allowed s e ↔ Good (step s e))) (lasting : ∀ s e, Good (step s e) → Good s)
    {s : σ} (good : Good s) (es : List ε) : Good (run step s es) ↔ Guarded step allowed s es := by
  have earlier (s : σ) (es : List ε) (final : Good (run step s es)) : Good s := by
    induction es generalizing s with
    | nil => exact final
    | cons e es ih => exact lasting s e (ih (step s e) final)
  induction es generalizing s with
  | nil => exact iff_of_true good trivial
  | cons e es ih =>
    constructor
    · intro final
      have next : Good (step s e) := earlier (step s e) es final
      exact ⟨(exact s e good).mpr next, (ih next).mp final⟩
    · rintro ⟨head, rest⟩
      exact (ih ((exact s e good).mp head)).mpr rest

/-- A map that commutes with every step commutes with every run. -/
theorem run_map {step : σ → ε → σ} {step' : τ → ε → τ} (f : σ → τ)
    (commutes : ∀ s e, f (step s e) = step' (f s) e) (s : σ) (es : List ε) :
    f (run step s es) = run step' (f s) es := by
  induction es generalizing s with
  | nil => rfl
  | cons e es ih => rw [run_cons, run_cons, ih, commutes]

/-- A machine whose events are some of another's runs as that one does. -/
theorem run_events (step : σ → ε → σ) (f : τ → ε) (s : σ) (es : List τ) :
    run step s (es.map f) = run (fun s e => step s (f e)) s es := by
  induction es generalizing s with
  | nil => rfl
  | cons e es ih => exact ih (step s (f e))

end CBuild.Machine
