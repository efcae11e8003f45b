import CBuild.Text.Basic

/-! # Patterns with stars

A pattern of the shell with no other special character than `*`. A literal part matches itself and a star any text.
-/

namespace CBuild.Text

abbrev Glob := List (Option Char)

namespace Glob

def literal (text : Text) : Glob := text.map some

def star : Glob := [none]

def fits : Glob → Text → Bool
  | [], text => text = []
  | some c :: glob, d :: text => c = d && fits glob text
  | some _ :: _, [] => false
  | none :: glob, text => text.tails.any (fits glob)

variable {glob : Glob} {part text : Text}

theorem fits_literal_append : (fits (literal part ++ glob) text) = true ↔
    ∃ rest, text = part ++ rest ∧ fits glob rest = true := by
  induction part generalizing text with
  | nil => simp [literal]
  | cons c part ih =>
    cases text with
    | nil => simp [literal, fits]
    | cons d text =>
      have tail := @ih text
      simp only [literal] at tail
      simp only [literal, List.map_cons, List.cons_append, fits, Bool.and_eq_true, decide_eq_true_eq, tail,
        List.cons.injEq]
      constructor
      · rintro ⟨rfl, rest, rfl, here⟩
        exact ⟨rest, ⟨rfl, rfl⟩, here⟩
      · rintro ⟨rest, ⟨rfl, rfl⟩, here⟩
        exact ⟨rfl, rest, rfl, here⟩

theorem fits_star_append : fits (star ++ glob) text = true ↔
    ∃ first rest, text = first ++ rest ∧ fits glob rest = true := by
  simp only [star, List.singleton_append, fits, List.any_eq_true, List.mem_tails]
  constructor
  · rintro ⟨rest, ⟨first, rfl⟩, here⟩
    exact ⟨first, rest, rfl, here⟩
  · rintro ⟨first, rest, rfl, here⟩
    exact ⟨rest, List.suffix_append first rest, here⟩

theorem fits_literal : fits (literal part) text = true ↔ text = part := by
  rw [← List.append_nil (literal part), fits_literal_append]
  simp [fits]

end Glob

end CBuild.Text
