import CBuild.Model.ProcessCache.Checksum
import Mathlib.Data.List.Perm.Basic

/-! # What the cache key determines

The key is a digest of a sorted pool: one field for each selected file, for the source and for
each dependency, with paths and origins dropped, followed by what `echo` prints of the append string. With an
injective md5 the key determines the pool as a multiset and that line, once both sides have one or neither has; it
does not determine which file carries which content, nor what it is called.
-/

namespace CBuild.Soundness.CacheKey

open CBuild.Model.ProcessCache

variable (md5 : Text → Key) (fnmatch : Text → Text → Bool)

def sourceField : Source → Option (List Key)
  | .unset => some []
  | .archive _ content => some [md5 content]
  | .git head => some [head]
  | .svn revision => some [revision]
  | .unsupported => none

/-- What a state contributes to the key besides its append string: the digests of the selected
files' contents, the source, and the dependencies. `none` where the script exits. -/
def pool (s : InputState) : Option (List Key) := do
  let source ← sourceField md5 s.source
  let extra ← extraFiles fnmatch s.tree s.items
  some (source ++ s.depends ++ extra.map fun file => md5 file.2)

variable {md5 fnmatch}

theorem firstField_key (key : Key) : firstField key.text = key.text := by
  have word : ∀ c ∈ key.text, decide (c ≠ ' ') = true := by
    intro c member
    simpa using (key.unbroken c member).1
  simpa [firstField] using @List.takeWhile_append_of_pos _ _ _ [] word

/-- `cut -d ' ' -f 1` keeps the digest and drops the path. -/
theorem firstField_md5sumLine (file : Text × Text) :
    firstField (md5sumLine md5 file) = (md5 file.2).text := by
  have word : ∀ c ∈ (md5 file.2).text, decide (c ≠ ' ') = true := by
    intro c member
    simpa using ((md5 file.2).unbroken c member).1
  rw [firstField, md5sumLine, List.append_assoc, List.takeWhile_append_of_pos word]
  simp

theorem sourceLines_fields (source : Source) :
    (sourceLines md5 source).map (List.map firstField) =
      (sourceField md5 source).map (List.map Key.text) := by
  cases source <;> simp [sourceLines, sourceField, firstField_key, firstField_md5sumLine]

/-- The lines of `checktmp2`: the date of a standing force file and the pool, sorted, and the append line. -/
def keyLines (md5 : Text → Key) (fnmatch : Text → Text → Bool) (s : InputState) (force : Option Key) : Option (List Text) :=
  (pool md5 fnmatch s).map fun keys =>
    ((force.toList ++ keys).map Key.text).insertionSort (· ≤ ·) ++ appendLine s

/-- The first fields of `checktmp1` are the date of the force file and the pool. -/
theorem checktmp1_fields (s : InputState) (force : Option Key) :
    (checktmp1 md5 fnmatch s force).map (List.map firstField) =
      (pool md5 fnmatch s).map fun keys => (force.toList ++ keys).map Key.text := by
  have fields := @sourceLines_fields md5 s.source
  cases lines : sourceLines md5 s.source with
  | none =>
    rw [lines, Option.map_none, eq_comm, Option.map_eq_none_iff] at fields
    simp [checktmp1, pool, lines, fields]
  | some source =>
    rw [lines, Option.map_some, eq_comm, Option.map_eq_some_iff] at fields
    obtain ⟨keys, found, same⟩ := fields
    cases selected : extraFiles fnmatch s.tree s.items with
    | none => simp [checktmp1, pool, lines, found, selected]
    | some extra =>
      simp [checktmp1, pool, lines, found, selected, same, Function.comp_def, firstField_key,
        firstField_md5sumLine]

/-- The checksum file is written exactly when the pool can be read, and digests the lines. -/
theorem getChecksum_eq (s : InputState) (force : Option Key) :
    getChecksum md5 fnmatch s force = (keyLines md5 fnmatch s force).map (md5 ∘ Text.unlines) := by
  have fields := @checktmp1_fields md5 fnmatch s force
  unfold getChecksum keyLines
  cases lines : checktmp1 md5 fnmatch s force with
  | none =>
    rw [lines, Option.map_none, eq_comm, Option.map_eq_none_iff] at fields
    simp [fields]
  | some written =>
    rw [lines, Option.map_some, eq_comm, Option.map_eq_some_iff] at fields
    obtain ⟨keys, found, same⟩ := fields
    rw [found, Option.map_some, same]
    rfl

theorem sorted_eq_iff_perm (first second : List Text) :
    first.insertionSort (· ≤ ·) = second.insertionSort (· ≤ ·) ↔ first.Perm second := by
  constructor
  · intro same
    exact (first.perm_insertionSort _).symm.trans (same ▸ second.perm_insertionSort _)
  · intro perm
    exact List.Perm.eq_of_pairwise (fun _ _ _ _ => le_antisymm) (List.pairwise_insertionSort _ _)
      (List.pairwise_insertionSort _ _)
      ((first.perm_insertionSort _).trans (perm.trans (second.perm_insertionSort _).symm))

theorem Key.text_injective : Function.Injective Key.text := by
  rintro ⟨first, _⟩ ⟨second, _⟩ same
  cases same
  rfl

theorem appendLine_unbroken (s : InputState) : ∀ line ∈ appendLine s, '\n' ∉ line := by
  intro line member
  unfold appendLine echo at member
  split_ifs at member
  · cases member
  · cases member
  · rw [List.mem_singleton.mp member]
    exact List.not_mem_nil
  · exact List.mem_singleton.mp member ▸ s.oneLine

/-- The lines of `checktmp2` contain no line break, so its text determines them. -/
theorem keyLines_unbroken {s : InputState} {force : Option Key} {lines : List Text}
    (read : keyLines md5 fnmatch s force = some lines) : ∀ line ∈ lines, '\n' ∉ line := by
  obtain ⟨keys, -, rfl⟩ := Option.map_eq_some_iff.mp read
  intro line member
  rcases List.mem_append.mp member with pooled | appended
  · obtain ⟨key, _, rfl⟩ := List.mem_map.mp ((List.mem_insertionSort _).mp pooled)
    exact fun broken => (key.unbroken _ broken).2 rfl
  · exact appendLine_unbroken s line appended

/-- With an injective md5 the checksum determines the lines of `checktmp2`. -/
theorem keyLines_of_getChecksum (injective : Function.Injective md5) {s t : InputState} {force force' : Option Key}
    {key : Key} (first : getChecksum md5 fnmatch s force = some key)
    (second : getChecksum md5 fnmatch t force' = some key) :
    keyLines md5 fnmatch s force = keyLines md5 fnmatch t force' := by
  rw [getChecksum_eq, Option.map_eq_some_iff] at first second
  obtain ⟨lines, read, digest⟩ := first
  obtain ⟨lines', read', digest'⟩ := second
  rw [read, read', Text.unlines_injective (keyLines_unbroken read) (keyLines_unbroken read')
    (injective (digest.trans digest'.symm))]

/-- The append string is no option of `echo`. -/
def Plain (s : InputState) : Prop := echoOption s.appends = false

theorem appendLine_plain {s : InputState} (plain : Plain s) :
    appendLine s = if s.appends = [] then [] else [s.appends] := by
  rw [appendLine, echo, if_neg (Bool.eq_false_iff.mp plain)]

theorem appendLine_eq_iff {s t : InputState} (plain : Plain s) (plain' : Plain t) :
    appendLine s = appendLine t ↔ s.appends = t.appends := by
  rw [appendLine_plain plain, appendLine_plain plain']
  by_cases none : s.appends = [] <;> by_cases none' : t.appends = []
  · rw [if_pos none, if_pos none', none, none']
    exact iff_of_true rfl rfl
  · rw [if_pos none, if_neg none', none]
    exact iff_of_false (List.cons_ne_nil _ _).symm (Ne.symm none')
  · rw [if_neg none, if_pos none', none']
    exact iff_of_false (List.cons_ne_nil _ _) none
  · rw [if_neg none, if_neg none', List.cons.injEq]
    exact and_iff_left rfl

theorem appendLine_short (s : InputState) : appendLine s = [] ∨ ∃ line, appendLine s = [line] := by
  unfold appendLine echo
  split_ifs
  · exact .inl rfl
  · exact .inl rfl
  · exact .inr ⟨[], rfl⟩
  · exact .inr ⟨s.appends, rfl⟩

theorem appendLine_length {s t : InputState} (both : appendLine s = [] ↔ appendLine t = []) :
    (appendLine s).length = (appendLine t).length := by
  rcases appendLine_short s with none | ⟨line, one⟩
  · rw [none, both.mp none]
  · rcases appendLine_short t with none' | ⟨line', one'⟩
    · rw [none', both.mpr none']
    · rw [one, one', List.length_singleton, List.length_singleton]

theorem keyLines_of_pool {s : InputState} {keys : List Key} (readable : pool md5 fnmatch s = some keys) :
    keyLines md5 fnmatch s none = some ((keys.map Key.text).insertionSort (· ≤ ·) ++ appendLine s) := by
  rw [keyLines, readable]
  rfl

/-- Equal pools and append lines give equal checksums, whatever md5 is. -/
theorem getChecksum_eq_of_perm {s t : InputState} {first second : List Key}
    (readable : pool md5 fnmatch s = some first) (readable' : pool md5 fnmatch t = some second)
    (perm : first.Perm second) (appended : appendLine s = appendLine t) :
    getChecksum md5 fnmatch s none = getChecksum md5 fnmatch t none := by
  rw [getChecksum_eq, getChecksum_eq, keyLines_of_pool readable, keyLines_of_pool readable',
    (sorted_eq_iff_perm _ _).mpr (perm.map Key.text), appended]

/-- Only the contents of the selected files enter the pool, not their paths. -/
theorem pool_perm_of_contents {s t : InputState} {files files' : List (Text × Text)}
    {first second : List Key} (readable : pool md5 fnmatch s = some first)
    (readable' : pool md5 fnmatch t = some second)
    (selected : extraFiles fnmatch s.tree s.items = some files)
    (selected' : extraFiles fnmatch t.tree t.items = some files')
    (contents : (files.map Prod.snd).Perm (files'.map Prod.snd)) (source : s.source = t.source)
    (depends : s.depends = t.depends) : first.Perm second := by
  unfold pool at readable readable'
  rw [selected, source, depends] at readable
  rw [selected'] at readable'
  cases fields : sourceField md5 t.source with
  | none => simp [fields] at readable
  | some keys =>
    simp only [fields, bind, Option.bind_some, Option.some.injEq] at readable readable'
    subst readable readable'
    have digests := contents.map md5
    rw [List.map_map, List.map_map] at digests
    exact List.Perm.append_left _ digests

/-- Take md5 as injective. Two input states get the same checksum exactly when their sorted pools
followed by their append lines are the same lines; when both states have an append line, or
neither has, exactly when these lines are equal and the pools are equal as multisets. An append string that is no
option of `echo` is its own line. So renaming selected files or exchanging their contents keeps the checksum. -/
theorem getChecksum_eq_iff_pool (md5 : Text → Key) (fnmatch : Text → Text → Bool)
    (injective : Function.Injective md5) (s t : InputState) (first second : List Key)
    (readable : pool md5 fnmatch s = some first) (readable' : pool md5 fnmatch t = some second) :
    (getChecksum md5 fnmatch s none = getChecksum md5 fnmatch t none ↔
      (first.map Key.text).insertionSort (· ≤ ·) ++ appendLine s =
        (second.map Key.text).insertionSort (· ≤ ·) ++ appendLine t) ∧
    ((appendLine s = [] ↔ appendLine t = []) →
      (getChecksum md5 fnmatch s none = getChecksum md5 fnmatch t none ↔
        first.Perm second ∧ appendLine s = appendLine t)) ∧
    (Plain s → Plain t → (appendLine s = appendLine t ↔ s.appends = t.appends)) ∧
    (∀ files files', extraFiles fnmatch s.tree s.items = some files →
      extraFiles fnmatch t.tree t.items = some files' →
      (files.map Prod.snd).Perm (files'.map Prod.snd) → s.source = t.source →
      s.depends = t.depends → s.appends = t.appends →
      getChecksum md5 fnmatch s none = getChecksum md5 fnmatch t none) := by
  have read := keyLines_of_pool readable
  have read' := keyLines_of_pool readable'
  have lines : getChecksum md5 fnmatch s none = getChecksum md5 fnmatch t none ↔
      (first.map Key.text).insertionSort (· ≤ ·) ++ appendLine s =
        (second.map Key.text).insertionSort (· ≤ ·) ++ appendLine t := by
    constructor
    · intro same
      have written : getChecksum md5 fnmatch s none = _ := (getChecksum_eq s none).trans (congrArg _ read)
      have equal := keyLines_of_getChecksum injective written (same ▸ written)
      exact Option.some.inj (read.symm.trans (equal.trans read'))
    · intro same
      rw [getChecksum_eq, getChecksum_eq, read, read', same]
  refine ⟨lines, fun both => ?_, fun plain plain' => appendLine_eq_iff plain plain', ?_⟩
  · constructor
    · intro same
      obtain ⟨pools, appended⟩ := List.append_inj' (lines.mp same) (appendLine_length both)
      exact ⟨(List.map_perm_map_iff Key.text_injective).mp ((sorted_eq_iff_perm _ _).mp pools), appended⟩
    · rintro ⟨perm, appended⟩
      exact getChecksum_eq_of_perm readable readable' perm appended
  · intro files files' selected selected' contents source depends appended
    exact getChecksum_eq_of_perm readable readable'
      (pool_perm_of_contents readable readable' selected selected' contents source depends)
      (by rw [appendLine, appendLine, appended])

/-- Keeps every character but escapes the blank, the line break and the backslash. -/
def escapeChar (c : Char) : Text :=
  if c = ' ' then ['\\', 's'] else if c = '\n' then ['\\', 'n'] else if c = '\\' then ['\\', '\\'] else [c]

def unescape : Text → Text
  | '\\' :: 's' :: rest => ' ' :: unescape rest
  | '\\' :: 'n' :: rest => '\n' :: unescape rest
  | '\\' :: '\\' :: rest => '\\' :: unescape rest
  | c :: rest => c :: unescape rest
  | [] => []

theorem unescape_flatMap (text : Text) : unescape (text.flatMap escapeChar) = text := by
  induction text with
  | nil => rfl
  | cons c rest ih =>
    rw [List.flatMap_cons]
    by_cases blank : c = ' '
    · subst blank
      exact congrArg (' ' :: ·) ih
    · by_cases newline : c = '\n'
      · subst newline
        exact congrArg ('\n' :: ·) ih
      · by_cases backslash : c = '\\'
        · subst backslash
          exact congrArg ('\\' :: ·) ih
        · rw [escapeChar, if_neg blank, if_neg newline, if_neg backslash, List.singleton_append,
            unescape, ih]
          all_goals simp [backslash]

def escapeDigest (text : Text) : Key where
  text := text.flatMap escapeChar
  unbroken := by
    intro c member
    obtain ⟨d, _, inside⟩ := List.mem_flatMap.mp member
    unfold escapeChar at inside
    split_ifs at inside with blank newline
    · rcases List.mem_pair.mp inside with rfl | rfl <;> decide
    · rcases List.mem_pair.mp inside with rfl | rfl <;> decide
    · rcases List.mem_pair.mp inside with rfl | rfl <;> decide
    · exact List.mem_singleton.mp inside ▸ ⟨blank, newline⟩

theorem escapeDigest_injective : Function.Injective escapeDigest := by
  intro first second same
  rw [← unescape_flatMap first, ← unescape_flatMap second]
  exact congrArg (fun key => unescape key.text) same

/-- A package that checksums the directory `src`, with two files in it. -/
def twoFiles (path path' content content' : String) : InputState where
  tree := [("src".toList, .dir), (path.toList, .file content.toList), (path'.toList, .file content'.toList)]
  items := ["src".toList]
  source := .unset
  depends := []
  appends := []
  oneLine := by simp

theorem twoFiles_pool :
    pool escapeDigest (fun _ _ => false) (twoFiles "src/a.c" "src/b.c" "x" "y") =
        some [⟨['x'], by decide⟩, ⟨['y'], by decide⟩] ∧
      pool escapeDigest (fun _ _ => false) (twoFiles "src/a.c" "src/b.c" "y" "x") =
        some [⟨['y'], by decide⟩, ⟨['x'], by decide⟩] ∧
      pool escapeDigest (fun _ _ => false) (twoFiles "src/a.c" "src/new.c" "x" "y") =
        some [⟨['x'], by decide⟩, ⟨['y'], by decide⟩] := by
  decide

/-- Distinct contents that change places are an equal multiset of digests. -/
theorem twoFiles_same_pool :
    (getChecksum escapeDigest (fun _ _ => false) (twoFiles "src/a.c" "src/b.c" "x" "y") none =
      getChecksum escapeDigest (fun _ _ => false) (twoFiles "src/a.c" "src/b.c" "y" "x") none ↔
        [(⟨['x'], by decide⟩ : Key), ⟨['y'], by decide⟩].Perm [⟨['y'], by decide⟩, ⟨['x'], by decide⟩] ∧
          appendLine (twoFiles "src/a.c" "src/b.c" "x" "y") = appendLine (twoFiles "src/a.c" "src/b.c" "y" "x")) :=
  (getChecksum_eq_iff_pool escapeDigest (fun _ _ => false) escapeDigest_injective _ _ _ _
    twoFiles_pool.1 twoFiles_pool.2.1).2.1 Iff.rfl

/-- Exchanging the contents of two checksummed files, or renaming one of them, keeps the key. -/
theorem twoFiles_collide :
    (extraFiles (fun _ _ => false) (twoFiles "src/a.c" "src/b.c" "x" "y").tree ["src".toList] ≠
        extraFiles (fun _ _ => false) (twoFiles "src/a.c" "src/b.c" "y" "x").tree ["src".toList] ∧
      getChecksum escapeDigest (fun _ _ => false) (twoFiles "src/a.c" "src/b.c" "x" "y") none =
        getChecksum escapeDigest (fun _ _ => false) (twoFiles "src/a.c" "src/b.c" "y" "x") none) ∧
    (extraFiles (fun _ _ => false) (twoFiles "src/a.c" "src/b.c" "x" "y").tree ["src".toList] ≠
        extraFiles (fun _ _ => false) (twoFiles "src/a.c" "src/new.c" "x" "y").tree ["src".toList] ∧
      getChecksum escapeDigest (fun _ _ => false) (twoFiles "src/a.c" "src/b.c" "x" "y") none =
        getChecksum escapeDigest (fun _ _ => false) (twoFiles "src/a.c" "src/new.c" "x" "y") none) := by
  refine ⟨⟨by decide, ?_⟩, by decide, ?_⟩
  · exact getChecksum_eq_of_perm twoFiles_pool.1 twoFiles_pool.2.1 (List.Perm.swap ..) rfl
  · exact getChecksum_eq_of_perm twoFiles_pool.1 twoFiles_pool.2.2 (List.Perm.refl _) rfl

end CBuild.Soundness.CacheKey
