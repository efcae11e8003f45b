import CBuild.Text.Basic

/-! # Paths

The parts of the path library that the build chain uses, on texts: `split`, `join` and `dirname`
only look at slashes. A path lies within another one when the other is equal to it or continues
in it with a slash.
-/

namespace CBuild.Text

/-- `os.path.split`: slashes that end the head are dropped, unless it has nothing else. -/
def splitPath (path : Text) : Text × Text :=
  let tail := (path.reverse.takeWhile (· ≠ '/')).reverse
  let head := path.take (path.length - tail.length)
  let stripped := (head.reverse.dropWhile (· = '/')).reverse
  (if stripped = [] then head else stripped, tail)

def dirname (path : Text) : Text := (splitPath path).1

def joinPath (first second : Text) : Text :=
  if second.head? = some '/' then second
  else if first = [] ∨ first.getLast? = some '/' then first ++ second
  else first ++ '/' :: second

/-- The inner path is the outer one, or goes on after it with a slash. -/
def within (inner outer : Text) : Bool :=
  outer.isPrefixOf inner && (inner.length = outer.length || inner[outer.length]? = some '/')

theorem within_iff {inner outer : Text} :
    within inner outer = true ↔ inner = outer ∨ ∃ rest, inner = outer ++ '/' :: rest := by
  simp only [within, Bool.and_eq_true, List.isPrefixOf_iff_prefix, Bool.or_eq_true, decide_eq_true_eq]
  constructor
  · rintro ⟨⟨rest, rfl⟩, same | slash⟩
    · exact .inl (by simpa using same)
    · obtain ⟨tail, rfl⟩ : ∃ tail, rest = '/' :: tail := by
        cases rest with
        | nil => simp at slash
        | cons c tail => exact ⟨tail, by simpa using slash⟩
      exact .inr ⟨tail, rfl⟩
  · rintro (rfl | ⟨rest, rfl⟩)
    · exact ⟨List.prefix_refl _, .inl rfl⟩
    · exact ⟨List.prefix_append .., .inr (by simp)⟩

theorem within_trans {inner middle outer : Text} (first : within inner middle = true)
    (second : within middle outer = true) : within inner outer = true := by
  rw [within_iff] at first second ⊢
  rcases first with rfl | ⟨rest, rfl⟩
  · exact second
  · rcases second with rfl | ⟨more, rfl⟩
    · exact .inr ⟨rest, rfl⟩
    · exact .inr ⟨more ++ '/' :: rest, by simp⟩

end CBuild.Text
