import CBuild.Text.Basic

/-! # Editing the lines of a text

`sed` on a text that need not be one of lines: what follows the last line break stays as it is. A group `(.*)` takes
as much of a line as it can.
-/

namespace CBuild.Text

private def afterFrom (last : Text) : Text → Text → Text
  | _, [] => []
  | line, c :: rest =>
    if c = '\n' then if line = last then rest else afterFrom last [] rest else afterFrom last (line ++ [c]) rest

/-- `1,/^last$/d`: the first line and those up to the next one that is `last` are left out. -/
def deleteThrough (last text : Text) : Text := afterFrom last [] ((text.dropWhile (· ≠ '\n')).drop 1)

private def substituteFrom (old new : Text) : Text → Text → Text
  | line, [] => if line = old then new else line
  | line, c :: rest =>
    if c = '\n' then (if line = old then new else line) ++ '\n' :: substituteFrom old new [] rest
    else substituteFrom old new (line ++ [c]) rest

/-- `s/^old$/new/`: the lines that are `old`, which is not empty, become `new`. -/
def substituteLine (old new text : Text) : Text := substituteFrom old new [] text

variable {last old new line text part : Text} {lines : List Text}

private theorem afterFrom_part (plain : '\n' ∉ part) (line text : Text) :
    afterFrom last line (part ++ '\n' :: text) = if line ++ part = last then text else afterFrom last [] text := by
  induction part generalizing line with
  | nil => rw [List.nil_append, afterFrom, if_pos rfl, List.append_nil]
  | cons c part ih =>
    have other : c ≠ '\n' := fun same => plain (same ▸ List.mem_cons_self ..)
    rw [List.cons_append, afterFrom, if_neg other, ih fun member => plain (List.mem_cons_of_mem _ member),
      List.append_assoc, List.singleton_append]

private theorem afterFrom_unlines (plain : ∀ line ∈ lines, '\n' ∉ line) (absent : last ∉ lines) (text : Text) :
    afterFrom last [] (unlines lines ++ text) = afterFrom last [] text := by
  induction lines with
  | nil => rfl
  | cons line lines ih =>
    have different : line ≠ last := fun same => absent (same ▸ List.mem_cons_self ..)
    rw [unlines_cons, List.append_assoc, List.cons_append, afterFrom_part (plain line (List.mem_cons_self ..)),
      List.nil_append, if_neg different]
    exact ih (fun other member => plain other (List.mem_cons_of_mem _ member))
      fun member => absent (List.mem_cons_of_mem _ member)

/-- What follows the lines stays, whatever it is. -/
theorem deleteThrough_unlines (plain : ∀ other ∈ line :: (lines ++ [last]), '\n' ∉ other) (absent : last ∉ lines)
    (text : Text) : deleteThrough last (unlines (line :: (lines ++ [last])) ++ text) = text := by
  have here : ∀ c ∈ line, decide (c ≠ '\n') = true := fun c member =>
    decide_eq_true fun same => plain line (List.mem_cons_self ..) (same ▸ member)
  have between : ∀ other ∈ lines, '\n' ∉ other := fun other member =>
    plain other (List.mem_cons_of_mem _ (List.mem_append_left _ member))
  have ending : '\n' ∉ last :=
    plain last (List.mem_cons_of_mem _ (List.mem_append_right _ (List.mem_singleton_self last)))
  have first : ((unlines (line :: (lines ++ [last])) ++ text).dropWhile (· ≠ '\n')).drop 1 =
      unlines lines ++ (last ++ '\n' :: text) := by
    rw [unlines_cons, unlines_append, unlines_cons last, List.append_assoc,
      List.dropWhile_append_of_pos here]
    simp [unlines]
  rw [deleteThrough, first, afterFrom_unlines between absent, afterFrom_part ending, List.nil_append, if_pos rfl]

private theorem substituteFrom_part (plain : '\n' ∉ part) (line text : Text) :
    substituteFrom old new line (part ++ '\n' :: text) =
      (if line ++ part = old then new else line ++ part) ++ '\n' :: substituteFrom old new [] text := by
  induction part generalizing line with
  | nil => rw [List.nil_append, substituteFrom, if_pos rfl, List.append_nil]
  | cons c part ih =>
    have other : c ≠ '\n' := fun same => plain (same ▸ List.mem_cons_self ..)
    rw [List.cons_append, substituteFrom, if_neg other, ih fun member => plain (List.mem_cons_of_mem _ member),
      List.append_assoc, List.singleton_append]

/-- Line by line. -/
theorem substituteLine_unlines (nonempty : old ≠ []) (plain : ∀ line ∈ lines, '\n' ∉ line) :
    substituteLine old new (unlines lines) = unlines (lines.map fun line => if line = old then new else line) := by
  unfold substituteLine
  induction lines with
  | nil => exact if_neg (Ne.symm nonempty)
  | cons line lines ih =>
    rw [unlines_cons, substituteFrom_part (plain line (List.mem_cons_self ..)), List.nil_append,
      ih fun other member => plain other (List.mem_cons_of_mem _ member), List.map_cons, unlines_cons]

/-- What a greedy `(.*)` takes before the pattern. -/
def beforeLast (pattern : Text) : Text → Option Text
  | [] => if pattern = [] then some [] else none
  | c :: rest =>
    match beforeLast pattern rest with
    | some group => some (c :: group)
    | none => if pattern <+: c :: rest then some [] else none

variable {c : Char} {pattern rest group : Text}

theorem beforeLast_of_absent (absent : c ∉ text) : beforeLast (c :: pattern) text = none := by
  induction text with
  | nil => rfl
  | cons d text ih =>
    rw [List.mem_cons, not_or] at absent
    rw [beforeLast, ih absent.2, if_neg]
    exact fun here => absent.1 (List.cons_prefix_cons.mp here).1

/-- The last occurrence of the pattern is the one after which its first character is not found. -/
theorem beforeLast_append (once : c ∉ pattern ++ rest) (group : Text) :
    beforeLast (c :: pattern) (group ++ c :: (pattern ++ rest)) = some group := by
  induction group with
  | nil =>
    rw [List.nil_append, beforeLast, beforeLast_of_absent once, if_pos]
    exact List.prefix_append (c :: pattern) rest
  | cons d group ih => rw [List.cons_append, beforeLast, ih]

theorem beforeLast_char (absent : c ∉ rest) (group : Text) : beforeLast [c] (group ++ c :: rest) = some group :=
  @beforeLast_append c [] rest absent group

theorem prefix_of_beforeLast (found : beforeLast pattern text = some group) : group ++ pattern <+: text := by
  induction text generalizing group with
  | nil =>
    rw [beforeLast, Option.ite_none_right_eq_some] at found
    obtain ⟨rfl, same⟩ := found
    cases same
    exact List.prefix_refl []
  | cons c text ih =>
    rw [beforeLast] at found
    split at found
    · next tail here =>
      cases found
      exact (List.prefix_cons_inj c).mpr (ih here)
    · rw [Option.ite_none_right_eq_some] at found
      obtain ⟨start, same⟩ := found
      cases same
      exact start

end CBuild.Text
