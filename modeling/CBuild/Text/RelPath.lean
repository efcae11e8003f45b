import CBuild.Text.Path

/-! # Normal paths

A path is read character by character: the directory that its finished names lead to, and the name that is being read.
Where it leads is what `os.path.normpath` computes for an absolute path. `relpath` goes up from one directory and down
to another place.
-/

namespace CBuild.Text

/-- From a directory, by its names from the root, to a name in it. -/
def enter (dirs : List Text) (name : Text) : List Text :=
  if name = [] ∨ name = ['.'] then dirs else if name = "..".toList then dirs.dropLast else dirs ++ [name]

/-- The directory that has been reached, and the name that is being read. -/
def readChar (reached : List Text × Text) (c : Char) : List Text × Text :=
  if c = '/' then (enter reached.1 reached.2, []) else (reached.1, reached.2 ++ [c])

def readPath (reached : List Text × Text) (path : Text) : List Text × Text := path.foldl readChar reached

/-- Where a path leads at its end. -/
def arrive (reached : List Text × Text) : List Text := enter reached.1 reached.2

def normNames (path : Text) : List Text := arrive (readPath ([], []) path)

/-- The names on the way from a directory to a place. -/
def relNames (path start : List Text) : List Text :=
  let i := ((start.zip path).takeWhile fun both => both.1 = both.2).length
  List.replicate (start.length - i) "..".toList ++ path.drop i

def relpath (path start : Text) : Text :=
  let relList := relNames (normNames path) (normNames start)
  if relList = [] then ['.'] else ['/'].intercalate relList

theorem dirname_begins (path : Text) : dirname path <+: path := by
  have stripped (head : Text) : (head.reverse.dropWhile (· = '/')).reverse <+: head := by
    rw [← List.reverse_suffix, List.reverse_reverse]
    exact List.dropWhile_suffix _
  rw [dirname, splitPath]
  split
  · exact List.take_prefix ..
  · exact (stripped _).trans (List.take_prefix ..)

/-- The directory of an absolute path is absolute. -/
theorem dirname_absolute {path : Text} (absolute : path.head? = some '/') : (dirname path).head? = some '/' := by
  have nonempty : dirname path ≠ [] := by
    rw [dirname, splitPath]
    split
    · intro empty
      have slash : '/' ∈ path := List.mem_of_mem_head? absolute
      have all : path.reverse.takeWhile (· ≠ '/') = path.reverse := by
        refine (List.takeWhile_prefix _).eq_of_length_le ?_
        rcases List.take_eq_nil_iff.mp empty with none | rfl
        · simpa [Nat.sub_eq_zero_iff_le] using none
        · cases slash
      have other := List.takeWhile_eq_self_iff.mp all '/' (List.mem_reverse.mpr slash)
      simp at other
    · next some => exact some
  obtain ⟨rest, split⟩ := dirname_begins path
  cases dir : dirname path with
  | nil => exact absurd dir nonempty
  | cons c dir' =>
    rw [dir] at split
    rw [← split] at absolute
    exact absolute

variable {dirs : List Text} {name : Text}

theorem readPath_append (reached : List Text × Text) (first second : Text) :
    readPath reached (first ++ second) = readPath (readPath reached first) second := List.foldl_append

theorem readPath_cons (reached : List Text × Text) (c : Char) (path : Text) :
    readPath reached (c :: path) = readPath (readChar reached c) path := rfl

theorem readPath_slash (reached : List Text × Text) (path : Text) :
    readPath reached ('/' :: path) = readPath (arrive reached, []) path := rfl

/-- A text without slashes belongs to the name that is being read. -/
theorem readPath_plain {text : Text} (plain : '/' ∉ text) : readPath (dirs, name) text = (dirs, name ++ text) := by
  induction text generalizing name with
  | nil => simp [readPath]
  | cons c text ih =>
    have here : c ≠ '/' := fun slash => plain (slash ▸ List.mem_cons_self ..)
    rw [readPath_cons, readChar, if_neg here, ih fun slash => plain (List.mem_cons_of_mem _ slash), List.append_assoc]
    rfl

/-- The names on a normal path. -/
def ProperName (name : Text) : Prop := name ≠ [] ∧ name ≠ ['.'] ∧ name ≠ "..".toList

theorem enter_proper (proper : ProperName name) : enter dirs name = dirs ++ [name] := by
  rw [enter, if_neg (by simp [proper.1, proper.2.1]), if_neg proper.2.2]

theorem enter_up : enter dirs "..".toList = dirs.dropLast := rfl

theorem enter_cases (dirs : List Text) (name : Text) :
    enter dirs name = dirs ∨ enter dirs name = dirs.dropLast ∨ ProperName name ∧ enter dirs name = dirs ++ [name] := by
  by_cases here : name = [] ∨ name = ['.']
  · exact .inl (if_pos here)
  · obtain ⟨nonempty, dot⟩ := not_or.mp here
    by_cases up : name = "..".toList
    · exact .inr (.inl (up ▸ rfl))
    · exact .inr (.inr ⟨⟨nonempty, dot, up⟩, enter_proper ⟨nonempty, dot, up⟩⟩)

/-- Names that are proper and have no slash. -/
def NormalNames (dirs : List Text) : Prop := ∀ name ∈ dirs, ProperName name ∧ '/' ∉ name

theorem enter_normal (normal : NormalNames dirs) (plain : '/' ∉ name) : NormalNames (enter dirs name) := by
  rcases enter_cases dirs name with same | up | ⟨proper, down⟩
  · rwa [same]
  · rw [up]
    exact fun other member => normal other (List.mem_of_mem_dropLast member)
  · rw [down]
    exact fun other member => (List.mem_append.mp member).elim (normal other) fun last => by
      rw [List.mem_singleton.mp last]
      exact ⟨proper, plain⟩

theorem readPath_normal {path : Text} (normal : NormalNames dirs) (plain : '/' ∉ name) :
    NormalNames (readPath (dirs, name) path).1 ∧ '/' ∉ (readPath (dirs, name) path).2 := by
  induction path generalizing dirs name with
  | nil => exact ⟨normal, plain⟩
  | cons c path ih =>
    rw [readPath_cons, readChar]
    split
    · exact ih (enter_normal normal plain) (List.not_mem_nil)
    · next other => exact ih normal (by simp [plain, Ne.symm other])

theorem normNames_normal (path : Text) : NormalNames (normNames path) := by
  have nothing : NormalNames [] := nofun
  obtain ⟨normal, plain⟩ := @readPath_normal [] [] path nothing List.not_mem_nil
  exact enter_normal normal plain

/-- The names of a relative path are entered one after the other; the last one is read. -/
theorem readPath_intercalate {names : List Text} (plain : ∀ name ∈ names, '/' ∉ name) (last : Text) (ending : '/' ∉ last) :
    readPath (dirs, []) (['/'].intercalate (names ++ [last])) = (names.foldl enter dirs, last) := by
  induction names generalizing dirs with
  | nil => simpa [List.intercalate] using @readPath_plain dirs [] _ ending
  | cons name names ih =>
    obtain ⟨here, rest⟩ := List.forall_mem_cons.mp plain
    have split : ['/'].intercalate ((name :: names) ++ [last]) =
        name ++ '/' :: ['/'].intercalate (names ++ [last]) := by
      cases names <;> simp [List.intercalate]
    rw [split, readPath_append, readPath_plain here, readPath_slash, List.foldl_cons]
    exact ih rest

theorem foldl_enter_proper {names : List Text} (proper : ∀ name ∈ names, ProperName name) :
    names.foldl enter dirs = dirs ++ names := by
  induction names generalizing dirs with
  | nil => simp
  | cons name names ih =>
    obtain ⟨here, rest⟩ := List.forall_mem_cons.mp proper
    rw [List.foldl_cons, enter_proper here, ih rest, List.append_assoc]
    rfl

theorem foldl_enter_up (n : ℕ) : (List.replicate n "..".toList).foldl enter dirs = dirs.take (dirs.length - n) := by
  induction n generalizing dirs with
  | zero => simp
  | succ n ih =>
    rw [List.replicate_succ, List.foldl_cons, enter_up, ih, List.dropLast_eq_take, List.take_take, List.length_take]
    congr 1
    omega

/-- The parts of both paths that agree. -/
theorem take_common (start path : List Text) :
    let i := ((start.zip path).takeWhile fun both => both.1 = both.2).length
    i ≤ start.length ∧ start.take i = path.take i := by
  induction start generalizing path with
  | nil => simp
  | cons name start ih =>
    cases path with
    | nil => simp
    | cons name' path =>
      rw [List.zip_cons_cons, List.takeWhile_cons]
      obtain ⟨short, same⟩ := ih path
      split
      · next equal =>
        obtain rfl : name = name' := of_decide_eq_true equal
        exact ⟨Nat.succ_le_succ short, by simpa using same⟩
      · simp

theorem foldl_relNames {path start : List Text} (normal : NormalNames path) :
    (relNames path start).foldl enter start = path := by
  obtain ⟨short, same⟩ := take_common start path
  generalize common : ((start.zip path).takeWhile fun both => both.1 = both.2).length = i at short same
  rw [relNames, common, List.foldl_append, foldl_enter_up,
    foldl_enter_proper fun name member => (normal name (List.mem_of_mem_drop member)).1,
    Nat.sub_sub_self short, same, List.take_append_drop]

theorem relNames_plain {path start : List Text} (normal : NormalNames path) :
    ∀ name ∈ relNames path start, '/' ∉ name := by
  intro name member
  rcases List.mem_append.mp member with up | down
  · rw [List.eq_of_mem_replicate up]
    decide
  · exact (normal name (List.mem_of_mem_drop down)).2

/-- A relative path leads from its start to its end. -/
theorem arrive_relpath (path start : Text) :
    arrive (readPath (normNames start, []) (relpath path start)) = normNames path := by
  have leads := @foldl_relNames _ (normNames start) (normNames_normal path)
  have plain := @relNames_plain _ (normNames start) (normNames_normal path)
  rw [relpath]
  split
  · next empty =>
    rw [empty] at leads
    exact leads
  · next nonempty =>
    generalize relNames (normNames path) (normNames start) = names at leads plain nonempty
    obtain ⟨names, last, rfl⟩ := (List.eq_nil_or_concat names).resolve_left nonempty
    rw [List.concat_eq_append] at leads plain ⊢
    rw [readPath_intercalate (fun name member => plain name (by simp [member])) last (plain last (by simp)), ← leads]
    simp [arrive]

/-- A relative path, after the path of its start. -/
theorem normNames_relpath (path start : Text) : normNames (start ++ '/' :: relpath path start) = normNames path := by
  rw [normNames, readPath_append, readPath_slash]
  exact arrive_relpath path start

theorem readPath_chars {P : Char → Prop} {path : Text} (chars : ∀ c ∈ path, P c) (above : ∀ dir ∈ dirs, ∀ c ∈ dir, P c)
    (read : ∀ c ∈ name, P c) : (∀ dir ∈ (readPath (dirs, name) path).1, ∀ c ∈ dir, P c) ∧
      ∀ c ∈ (readPath (dirs, name) path).2, P c := by
  induction path generalizing dirs name with
  | nil => exact ⟨above, read⟩
  | cons c path ih =>
    obtain ⟨here, later⟩ := List.forall_mem_cons.mp chars
    rw [readPath_cons, readChar]
    split
    · refine ih later (fun dir member => ?_) (fun _ member => absurd member List.not_mem_nil)
      rcases enter_cases dirs name with same | up | ⟨_, down⟩
      · exact above dir (same ▸ member)
      · exact above dir (List.mem_of_mem_dropLast (up ▸ member))
      · exact (List.mem_append.mp (down ▸ member)).elim (above dir) fun last => List.mem_singleton.mp last ▸ read
    · exact ih later above fun d member => (List.mem_append.mp member).elim (read d) fun last =>
        List.mem_singleton.mp last ▸ here

theorem normNames_chars {P : Char → Prop} {path : Text} (chars : ∀ c ∈ path, P c) :
    ∀ name ∈ normNames path, ∀ c ∈ name, P c := by
  have slashed : ∀ c ∈ path ++ ['/'], P c ∨ c = '/' := by
    intro c member
    exact (List.mem_append.mp member).imp (chars c) List.mem_singleton.mp
  have names := (@readPath_chars [] [] _ _ slashed (fun _ member => absurd member List.not_mem_nil)
    (fun _ member => absurd member List.not_mem_nil)).1
  rw [readPath_append] at names
  intro name member c inside
  refine (names name member c inside).resolve_right fun slash => ?_
  exact (normNames_normal path name member).2 (slash ▸ inside)

/-- The characters of a relative path are those of the path, dots and slashes. -/
theorem relpath_chars {P : Char → Prop} {path : Text} (start : Text) (dot : P '.') (slash : P '/')
    (chars : ∀ c ∈ path, P c) : ∀ c ∈ relpath path start, P c := by
  have inNames : ∀ name ∈ relNames (normNames path) (normNames start), ∀ c ∈ name, P c := by
    intro name member c inside
    rcases List.mem_append.mp member with up | down
    · rw [List.eq_of_mem_replicate up] at inside
      obtain rfl : c = '.' := by simpa using inside
      exact dot
    · exact normNames_chars chars name (List.mem_of_mem_drop down) c inside
  rw [relpath]
  split
  · exact List.forall_mem_singleton.mpr dot
  · generalize relNames (normNames path) (normNames start) = names at inNames
    clear chars
    induction names with
    | nil => exact fun _ member => absurd member List.not_mem_nil
    | cons name names ih =>
      obtain ⟨here, later⟩ := List.forall_mem_cons.mp inNames
      cases names with
      | nil => simpa [List.intercalate] using here
      | cons next names =>
        have split : ['/'].intercalate (name :: next :: names) = name ++ '/' :: ['/'].intercalate (next :: names) := by
          simp [List.intercalate]
        rw [split]
        intro c member
        rcases List.mem_append.mp member with first | rest
        · exact here c first
        · exact (List.mem_cons.mp rest).elim (fun same => same ▸ slash) (ih later c)

theorem enter_forward (forward : ¬ "..".toList <:+: name) : ∃ more, ∀ dirs, enter dirs name = dirs ++ more := by
  by_cases proper : ProperName name
  · exact ⟨[name], fun dirs => enter_proper proper⟩
  · refine ⟨[], fun dirs => ?_⟩
    rw [List.append_nil]
    have dots : name ≠ "..".toList := fun same => forward (same ▸ List.infix_refl _)
    refine if_pos ?_
    by_contra neither
    obtain ⟨nonempty, dot⟩ := not_or.mp neither
    exact proper ⟨nonempty, dot, dots⟩

/-- A text without two dots in a row adds the same names everywhere. -/
theorem arrive_forward {text : Text} (forward : ¬ "..".toList <:+: name ++ text) :
    ∃ more, ∀ dirs, arrive (readPath (dirs, name) text) = dirs ++ more := by
  induction text generalizing name with
  | nil => exact enter_forward (by simpa using forward)
  | cons c text ih =>
    by_cases slash : c = '/'
    · subst slash
      obtain ⟨first, here⟩ := enter_forward fun inside => forward (inside.trans (List.prefix_append ..).isInfix)
      obtain ⟨second, later⟩ := @ih [] fun inside => forward <| inside.trans <|
        (List.suffix_append (name ++ ['/']) text).isInfix.trans (by simp)
      refine ⟨first ++ second, fun dirs => ?_⟩
      rw [readPath_slash, later, arrive, here, List.append_assoc]
    · obtain ⟨more, later⟩ := @ih (name ++ [c]) (by simpa using forward)
      exact ⟨more, fun dirs => by rw [readPath_cons, readChar, if_neg slash, later]⟩

/-- A character that is neither a slash nor a dot makes a new name. -/
theorem arrive_named {c : Char} {text : Text} (slash : c ≠ '/') (dot : c ≠ '.')
    (forward : ¬ "..".toList <:+: c :: text) : ∃ first more, ∀ dirs name,
      arrive (readPath (dirs, name) (c :: text)) = dirs ++ (name ++ first) :: more := by
  have proper (name first : Text) : ProperName (name ++ c :: first) := by
    have inside : c ∈ name ++ c :: first := by simp
    refine ⟨by simp, fun same => ?_, fun same => ?_⟩
    · exact dot (List.mem_singleton.mp (same ▸ inside))
    · exact dot (by simpa [same] using inside)
  have plain : '/' ∉ c :: text.takeWhile (· ≠ '/') := by
    rw [List.mem_cons, not_or]
    exact ⟨slash.symm, fun member => by simpa using List.mem_takeWhile_imp member⟩
  have split : c :: text = (c :: text.takeWhile (· ≠ '/')) ++ text.dropWhile (· ≠ '/') := by
    rw [List.cons_append, List.takeWhile_append_dropWhile]
  refine ⟨c :: text.takeWhile (· ≠ '/'), ?_⟩
  cases rest : text.dropWhile (· ≠ '/') with
  | nil =>
    rw [rest, List.append_nil] at split
    refine ⟨[], fun dirs name => ?_⟩
    rw [split, readPath_plain plain]
    exact enter_proper (proper name _)
  | cons d rest' =>
    obtain rfl : d = '/' := by
      have nonempty : text.dropWhile (· ≠ '/') ≠ [] := by rw [rest]; exact List.cons_ne_nil d rest'
      have ends := List.head_dropWhile_not (· ≠ '/') nonempty
      simp only [rest, List.head_cons] at ends
      simpa using ends
    rw [rest] at split
    obtain ⟨more, later⟩ := @arrive_forward [] rest' fun inside => forward <| by
      rw [split]
      exact inside.trans ((List.suffix_cons '/' rest').trans (List.suffix_append ..)).isInfix
    refine ⟨more, fun dirs name => ?_⟩
    rw [split, readPath_append, readPath_plain plain, readPath_slash, later, arrive, enter_proper (proper name _)]
    simp

/-- Where a path leads after a new name tells where it came from. -/
theorem arrive_injective {c : Char} {text : Text} (slash : c ≠ '/') (dot : c ≠ '.')
    (forward : ¬ "..".toList <:+: c :: text) {first second : List Text × Text}
    (same : arrive (readPath first (c :: text)) = arrive (readPath second (c :: text))) : first = second := by
  obtain ⟨new, more, leads⟩ := arrive_named slash dot forward
  obtain ⟨dirs, name⟩ := first
  obtain ⟨dirs', name'⟩ := second
  rw [leads, leads] at same
  obtain ⟨rfl, names⟩ := List.append_inj' same rfl
  rw [List.append_cancel_right (List.cons.inj names).1]

end CBuild.Text
