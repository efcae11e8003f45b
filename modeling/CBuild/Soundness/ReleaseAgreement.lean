import CBuild.Soundness.SysrootAgreement

/-! # Released system roots

`release_sysroot` copies some directories as a whole, with whatever lies in them. The plain walk
`release_sysroot_with_check` leaves out hidden names, archives and the directories of development
files at every depth.
-/

namespace CBuild.Soundness.ReleaseAgreement

open CBuild.Text CBuild.Files CBuild.Model.ProcessSysroot
open CBuild.Soundness.SysrootAgreement (pathText)

/-- The plain walk passes over the entry `v` of the directory `s`. -/
def Skipped (s : Text) (v : FileName) : Kind Content → Prop
  | .leaf _ => v.hidden = true ∨ isArchive v = true
  | .directory => v.hidden = true ∨ leavesOut s v = true

/-- The path leads to or through an entry that the plain walk passes over. -/
def LeftOut (s : Text) (entries : Sysroot) (path : List FileName) : Prop :=
  ∃ before v after kind, path = before ++ v :: after ∧ entries.get (before ++ [v]) = some kind ∧
    Skipped (pathText s before) v kind

/-- No archive, and no directory of development files. -/
def Released (v : FileName) : Kind Content → Prop
  | .leaf _ => isArchive v = false
  | .directory => v.text ∉ ["include".toList, "pkgconfig".toList, "aclocal".toList, "cmake".toList]

/-- The release and the plain walk copy the same paths, none of them with a name for development. -/
structure Agree (s : Text) (entries : Sysroot) : Prop where
  same : ∀ path, (releaseSysroot s entries).get path = (releaseSysrootWithCheck s entries).get path
  clean : ∀ before (v : FileName) kind, (releaseSysroot s entries).get (before ++ [v]) = some kind →
    Released v kind

/-- In the directories that are copied as a whole, the plain walk passes over nothing but hidden names directly
in them. -/
def Plain (src s : Text) (entries : Sysroot) : Prop :=
  ∀ before v (first : FileName) after, ¬ LeftOut s entries (before ++ [v]) →
    copiesWhole src (pathText s before) v = true → first.hidden = false →
    (entries.get (before ++ v :: first :: after)).isSome = true →
    ¬ LeftOut s entries (before ++ v :: first :: after)

variable {src s : Text} {entries sub : Sysroot} {v : FileName} {path : List FileName} {content : Content}

theorem leftOut_dir (found : entries.find v = some (.dir sub)) :
    LeftOut s entries (v :: path) ↔ (v.hidden = true ∨ leavesOut s v = true) ∨ LeftOut (below s v) sub path := by
  constructor
  · rintro ⟨before, w, after, kind, same, there, skipped⟩
    cases before with
    | nil =>
      cases same
      rw [List.nil_append, Directory.get_of_dir found, Directory.get_nil] at there
      cases there
      exact .inl skipped
    | cons head before =>
      cases same
      rw [List.cons_append, Directory.get_of_dir found] at there
      exact .inr ⟨before, w, after, kind, rfl, there, skipped⟩
  · rintro (skipped | ⟨before, w, after, kind, rfl, there, skipped⟩)
    · exact ⟨[], v, path, .directory, rfl, by rw [List.nil_append, Directory.get_of_dir found, Directory.get_nil],
        skipped⟩
    · exact ⟨v :: before, w, after, kind, rfl, by rw [List.cons_append, Directory.get_of_dir found, there], skipped⟩

theorem leftOut_leaf (found : entries.find v = some (.leaf content)) :
    LeftOut s entries [v] ↔ v.hidden = true ∨ isArchive v = true := by
  constructor
  · rintro ⟨before, w, after, kind, same, there, skipped⟩
    cases before with
    | nil =>
      cases same
      rw [List.nil_append, Directory.get_of_leaf found, if_pos rfl] at there
      cases there
      exact skipped
    | cons head before => simp at same
  · intro skipped
    exact ⟨[], v, [], .leaf content, rfl, by rw [List.nil_append, Directory.get_of_leaf found, if_pos rfl], skipped⟩

theorem names_withCheck : (releaseSysrootWithCheck s entries).names ⊆ entries.names := by
  induction entries generalizing s with
  | nil => exact fun _ member => member
  | leaf w content rest ih =>
    rw [releaseSysrootWithCheck]
    split
    · exact List.subset_cons_of_subset _ ih
    · exact List.cons_subset_cons _ ih
  | dir w sub rest _ ih =>
    rw [releaseSysrootWithCheck]
    split
    · exact List.subset_cons_of_subset _ ih
    · exact List.cons_subset_cons _ ih

theorem names_withoutCheck : (releaseSysrootWithoutCheck src s entries).names ⊆ entries.names := by
  induction entries generalizing s with
  | nil => exact fun _ member => member
  | leaf w content rest ih =>
    rw [releaseSysrootWithoutCheck]
    split
    · exact List.subset_cons_of_subset _ ih
    · exact List.cons_subset_cons _ ih
  | dir w sub rest _ ih =>
    rw [releaseSysrootWithoutCheck]
    split_ifs
    · exact List.subset_cons_of_subset _ ih
    · exact List.cons_subset_cons _ ih
    · exact List.cons_subset_cons _ ih

/-- What the plain walk makes of an entry. -/
def checked (s : Text) (v : FileName) : Entry FileName Content → Option (Entry FileName Content)
  | .leaf content => if v.hidden || isArchive v then none else some (.leaf content)
  | .dir sub =>
    if v.hidden || leavesOut s v then none else some (.dir (releaseSysrootWithCheck (below s v) sub))

/-- What the release makes of an entry. -/
def released (src s : Text) (v : FileName) : Entry FileName Content → Option (Entry FileName Content)
  | .leaf content => if v.hidden || isArchive v then none else some (.leaf content)
  | .dir sub =>
    if v.hidden || leavesOut s v then none
    else if copiesWhole src s v then some (.dir (sub.restrict (!·.hidden)))
    else some (.dir (releaseSysrootWithoutCheck src (below s v) sub))

theorem find_withCheck (distinct : entries.Distinct) (v : FileName) :
    (releaseSysrootWithCheck s entries).find v = (entries.find v).bind (checked s v) := by
  induction entries with
  | nil => rfl
  | leaf w content rest ih =>
    rw [releaseSysrootWithCheck, Directory.find]
    by_cases same : v = w
    · subst same
      have absent : (releaseSysrootWithCheck s rest).find v = none :=
        Directory.find_of_not_mem fun member => distinct.1 (names_withCheck member)
      cases skipped : v.hidden || isArchive v <;> simp [Directory.find, checked, skipped, absent]
    · cases skipped : w.hidden || isArchive w <;> simp [Directory.find, same, ih distinct.2]
  | dir w sub rest _ ih =>
    rw [releaseSysrootWithCheck, Directory.find]
    by_cases same : v = w
    · subst same
      have absent : (releaseSysrootWithCheck s rest).find v = none :=
        Directory.find_of_not_mem fun member => distinct.1 (names_withCheck member)
      cases skipped : v.hidden || leavesOut s v <;> simp [Directory.find, checked, skipped, absent]
    · cases skipped : w.hidden || leavesOut s w <;> simp [Directory.find, same, ih distinct.2.2]

theorem find_withoutCheck (distinct : entries.Distinct) (v : FileName) :
    (releaseSysrootWithoutCheck src s entries).find v = (entries.find v).bind (released src s v) := by
  induction entries with
  | nil => rfl
  | leaf w content rest ih =>
    rw [releaseSysrootWithoutCheck, Directory.find]
    by_cases same : v = w
    · subst same
      have absent : (releaseSysrootWithoutCheck src s rest).find v = none :=
        Directory.find_of_not_mem fun member => distinct.1 (names_withoutCheck member)
      cases skipped : v.hidden || isArchive v <;> simp [Directory.find, released, skipped, absent]
    · cases skipped : w.hidden || isArchive w <;> simp [Directory.find, same, ih distinct.2]
  | dir w sub rest _ ih =>
    rw [releaseSysrootWithoutCheck, Directory.find]
    by_cases same : v = w
    · subst same
      have absent : (releaseSysrootWithoutCheck src s rest).find v = none :=
        Directory.find_of_not_mem fun member => distinct.1 (names_withoutCheck member)
      cases skipped : v.hidden || leavesOut s v <;> cases whole : copiesWhole src s v <;>
        simp [Directory.find, released, skipped, whole, absent]
    · cases skipped : w.hidden || leavesOut s w <;> cases whole : copiesWhole src s w <;>
        simp [Directory.find, same, ih distinct.2.2]

/-- The plain walk copies exactly what it does not pass over. -/
theorem get_withCheck (distinct : entries.Distinct) :
    (LeftOut s entries path → (releaseSysrootWithCheck s entries).get path = none) ∧
      (¬ LeftOut s entries path → (releaseSysrootWithCheck s entries).get path = entries.get path) := by
  induction path generalizing s entries with
  | nil =>
    refine ⟨fun ⟨before, v, after, kind, same, _⟩ => ?_, fun _ => by rw [Directory.get_nil, Directory.get_nil]⟩
    simp at same
  | cons v path ih =>
    have target := find_withCheck (s := s) distinct v
    cases found : entries.find v with
    | none =>
      rw [found] at target
      rw [Directory.get_of_none target, Directory.get_of_none found]
      exact ⟨fun _ => rfl, fun _ => rfl⟩
    | some entry =>
      rw [found, Option.bind_some] at target
      cases entry with
      | leaf content =>
        rw [Directory.get_of_leaf found]
        by_cases skipped : v.hidden = true ∨ isArchive v = true
        · rw [checked, if_pos (by simpa using skipped)] at target
          rw [Directory.get_of_none target]
          refine ⟨fun _ => rfl, fun kept => ?_⟩
          rw [if_neg]
          rintro rfl
          exact kept ((leftOut_leaf found).mpr skipped)
        · rw [checked, if_neg (by simpa using skipped)] at target
          rw [Directory.get_of_leaf target]
          refine ⟨fun left => ?_, fun _ => rfl⟩
          rw [if_neg]
          rintro rfl
          exact skipped ((leftOut_leaf found).mp left)
      | dir sub =>
        rw [leftOut_dir found, Directory.get_of_dir found]
        by_cases skipped : v.hidden = true ∨ leavesOut s v = true
        · rw [checked, if_pos (by simpa using skipped)] at target
          rw [Directory.get_of_none target]
          exact ⟨fun _ => rfl, fun kept => absurd (Or.inl skipped) kept⟩
        · rw [checked, if_neg (by simpa using skipped)] at target
          obtain ⟨left, kept⟩ := ih (s := below s v) (Directory.distinct_below distinct found)
          rw [Directory.get_of_dir target, or_iff_right skipped]
          exact ⟨left, kept⟩

/-- What the plain walk copies has no name for development. -/
theorem withCheck_clean (distinct : entries.Distinct) {before : List FileName} {kind : Kind Content}
    (copied : (releaseSysrootWithCheck s entries).get (before ++ [v]) = some kind) : Released v kind := by
  have kept : ¬ LeftOut s entries (before ++ [v]) := fun left => by
    rw [(get_withCheck distinct).1 left] at copied
    cases copied
  rw [(get_withCheck distinct).2 kept] at copied
  have notSkipped : ¬ Skipped (pathText s before) v kind := fun skipped =>
    kept ⟨before, v, [], kind, rfl, copied, skipped⟩
  cases kind with
  | leaf content => exact eq_false_of_ne_true fun archive => notSkipped (Or.inr archive)
  | directory => exact fun member => notSkipped (Or.inr (if_pos member))

/-- A directory copied as a whole has what is shown in it. -/
theorem get_whole {first : FileName} (shown : first.hidden = false) :
    (sub.restrict (!·.hidden)).get (first :: path) = sub.get (first :: path) :=
  Directory.get_congr (by simp [Directory.find_restrict, shown])

theorem get_whole_hidden {first : FileName} (hidden : first.hidden = true) :
    (sub.restrict (!·.hidden)).get (first :: path) = none :=
  Directory.get_of_none (by simp [Directory.find_restrict, hidden])

/-- A path that leads through an entry leads through a directory. -/
theorem find_of_get {first : FileName} (present : (entries.get (v :: first :: path)).isSome = true) :
    ∃ sub, entries.find v = some (.dir sub) ∧ entries.get (v :: first :: path) = sub.get (first :: path) := by
  cases found : entries.find v with
  | none => simp [Directory.get_of_none found] at present
  | some entry =>
    cases entry with
    | leaf content => simp [Directory.get_of_leaf found] at present
    | dir sub => exact ⟨sub, rfl, Directory.get_of_dir found⟩

/-- A path that begins with a hidden name is left out. -/
theorem leftOut_hidden {first : FileName} (hidden : first.hidden = true)
    (present : (entries.get (first :: path)).isSome = true) (other : List FileName) :
    LeftOut s entries (first :: other) := by
  cases found : entries.find first with
  | none => simp [Directory.get_of_none found] at present
  | some entry =>
    cases entry with
    | leaf content =>
      exact ⟨[], first, other, .leaf content, rfl, by rw [List.nil_append, Directory.get_of_leaf found, if_pos rfl],
        .inl hidden⟩
    | dir sub => exact (leftOut_dir found).mpr (.inl (.inl hidden))

/-- A path that is shown below a directory that the release copies is copied, whatever the plain walk does. -/
theorem get_withoutCheck_whole (distinct : entries.Distinct) {before : List FileName} {first : FileName}
    {after : List FileName} (kept : ¬ LeftOut s entries (before ++ [v]))
    (whole : copiesWhole src (pathText s before) v = true) (shown : first.hidden = false)
    (present : (entries.get (before ++ v :: first :: after)).isSome = true) :
    (releaseSysrootWithoutCheck src s entries).get (before ++ v :: first :: after) =
      entries.get (before ++ v :: first :: after) := by
  induction before generalizing s entries with
  | nil =>
    obtain ⟨sub, found, through⟩ := find_of_get present
    have target : (releaseSysrootWithoutCheck src s entries).find v = _ := find_withoutCheck distinct v
    have notSkipped : ¬ (v.hidden = true ∨ leavesOut s v = true) := fun skipped =>
      kept ((leftOut_dir found).mpr (Or.inl skipped))
    have here : copiesWhole src s v = true := whole
    rw [found, Option.bind_some, released, if_neg (by simpa using notSkipped), if_pos here] at target
    rw [List.nil_append, through, Directory.get_of_dir target, get_whole shown]
  | cons w before ih =>
    obtain ⟨next, rest, next_eq⟩ : ∃ next rest, before ++ v :: first :: after = next :: rest := by
      cases before <;> simp
    rw [List.cons_append, next_eq] at present ⊢
    obtain ⟨sub, found, through⟩ := find_of_get present
    have target : (releaseSysrootWithoutCheck src s entries).find w = _ := find_withoutCheck distinct w
    obtain ⟨notSkipped, keptBelow⟩ := not_or.mp (mt (leftOut_dir found).mpr kept)
    rw [found, Option.bind_some, released, if_neg (by simpa using notSkipped)] at target
    rw [through]
    by_cases here : copiesWhole src s w = true
    · rw [if_pos here] at target
      rw [Directory.get_of_dir target, get_whole]
      rw [through] at present
      by_contra hidden
      have left (other : List FileName) := leftOut_hidden (s := below s w) (eq_true_of_ne_false hidden) present other
      cases before with
      | nil =>
        cases next_eq
        exact keptBelow (left [])
      | cons head before =>
        cases next_eq
        exact keptBelow (left (before ++ [v]))
    · rw [if_neg here] at target
      rw [Directory.get_of_dir target, ← next_eq]
      refine ih (Directory.distinct_below distinct found) keptBelow whole ?_
      rw [next_eq, ← through]
      exact present

/-- A plain directory that the release copies as a whole has below it what the plain walk copies. -/
theorem get_whole_plain (found : entries.find v = some (.dir sub)) (distinct : entries.Distinct)
    (plain : Plain src s entries) (kept : ¬ LeftOut s entries [v]) (whole : copiesWhole src s v = true) :
    (sub.restrict (!·.hidden)).get path = (releaseSysrootWithCheck (below s v) sub).get path := by
  cases path with
  | nil => rw [Directory.get_nil, Directory.get_nil]
  | cons first after =>
    obtain ⟨left, copied⟩ := @get_withCheck (below s v) sub (first :: after) (Directory.distinct_below distinct found)
    cases present : sub.get (first :: after) with
    | none =>
      have gone : (sub.restrict (!·.hidden)).get (first :: after) = none := by
        cases hidden : first.hidden with
        | true => exact get_whole_hidden hidden
        | false => rw [get_whole hidden, present]
      rw [gone]
      by_cases out : LeftOut (below s v) sub (first :: after)
      · rw [left out]
      · rw [copied out, present]
    | some kind =>
      cases hidden : first.hidden with
      | true => rw [get_whole_hidden hidden, left (leftOut_hidden hidden (by rw [present]; rfl) after)]
      | false =>
        have through : entries.get (v :: first :: after) = some kind := by
          rw [Directory.get_of_dir found, present]
        have all := plain [] v first after kept whole hidden (by rw [List.nil_append, through]; rfl)
        rw [get_whole hidden, copied (not_or.mp (mt (leftOut_dir found).mpr all)).2]

/-- A directory that is walked into is plain where the walk starts plain. -/
theorem Plain.below (plain : Plain src s entries) (found : entries.find v = some (.dir sub))
    (shown : ¬ (v.hidden = true ∨ leavesOut s v = true)) : Plain src (below s v) sub := by
  intro before w first after kept inner hidden present
  have all := plain (v :: before) w first after
    (fun left => kept (((leftOut_dir found).mp left).resolve_left shown)) inner hidden
    (by rw [List.cons_append, Directory.get_of_dir found]; exact present)
  exact (not_or.mp (mt (leftOut_dir found).mpr all)).2

/-- Where the directories copied as a whole are plain, the release copies what the plain walk copies. -/
theorem get_withoutCheck_plain (distinct : entries.Distinct) (plain : Plain src s entries) :
    (releaseSysrootWithoutCheck src s entries).get path = (releaseSysrootWithCheck s entries).get path := by
  induction path generalizing s entries with
  | nil => rw [Directory.get_nil, Directory.get_nil]
  | cons v path ih =>
    have target : (releaseSysrootWithoutCheck src s entries).find v = _ := find_withoutCheck distinct v
    have checkedTarget := find_withCheck (s := s) distinct v
    cases found : entries.find v with
    | none =>
      rw [found] at target checkedTarget
      rw [Directory.get_of_none target, Directory.get_of_none checkedTarget]
    | some entry =>
      cases entry with
      | leaf content =>
        rw [found] at target checkedTarget
        exact Directory.get_congr (target.trans checkedTarget.symm)
      | dir sub =>
        by_cases skipped : v.hidden = true ∨ leavesOut s v = true
        · rw [found, Option.bind_some, released, if_pos (by simpa using skipped)] at target
          rw [found, Option.bind_some, checked, if_pos (by simpa using skipped)] at checkedTarget
          rw [Directory.get_of_none target, Directory.get_of_none checkedTarget]
        rw [found, Option.bind_some, released, if_neg (by simpa using skipped)] at target
        rw [found, Option.bind_some, checked, if_neg (by simpa using skipped)] at checkedTarget
        rw [Directory.get_of_dir checkedTarget]
        by_cases whole : copiesWhole src s v = true
        · have kept : ¬ LeftOut s entries [v] := fun left => by
            rcases (leftOut_dir found).mp left with here | ⟨_, _, _, _, same, _⟩
            · exact skipped here
            · simp at same
          rw [if_pos whole] at target
          rw [Directory.get_of_dir target]
          exact get_whole_plain found distinct plain kept whole
        · rw [if_neg whole] at target
          rw [Directory.get_of_dir target]
          exact ih (Directory.distinct_below distinct found) (plain.below found skipped)

/-- The release copies the paths of the plain walk exactly when the plain walk passes over nothing but hidden names
directly in the directories that the release copies as a whole. -/
theorem releases_agree_iff (src : Text) (entries : Sysroot) (distinct : entries.Distinct) :
    Agree src entries ↔ Plain src src entries := by
  constructor
  · intro agree before v first after kept whole shown present left
    have same := agree.same (before ++ v :: first :: after)
    rw [releaseSysroot, get_withoutCheck_whole distinct kept whole shown present, (get_withCheck distinct).1 left] at same
    rw [same] at present
    cases present
  · intro plain
    have same (path : List FileName) : (releaseSysroot src entries).get path =
        (releaseSysrootWithCheck src entries).get path := get_withoutCheck_plain distinct plain
    exact ⟨same, fun before v kind copied => withCheck_clean distinct (same _ ▸ copied)⟩

def libexecName : FileName := ⟨"libexec".toList, by decide, by decide, by decide⟩

def shName : FileName := ⟨"sh".toList, by decide, by decide, by decide⟩

def pluginName : FileName := ⟨"plugin.la".toList, by decide, by decide, by decide⟩

def programInside : Sysroot := .dir libexecName (.leaf shName (.file [10]) .nil) .nil

def archiveInside : Sysroot := .dir libexecName (.leaf pluginName (.file [10]) .nil) .nil

theorem programInside_agree : Agree "image".toList programInside := by
  have distinct : programInside.Distinct := ⟨by decide, ⟨by decide, trivial⟩, trivial⟩
  refine (releases_agree_iff "image".toList programInside distinct).mpr fun before v first after _ _ _ present => ?_
  obtain ⟨next, rest, same⟩ : ∃ next rest, before ++ v :: first :: after = libexecName :: next :: rest := by
    cases before with
    | nil =>
      obtain ⟨sub, found, _⟩ := find_of_get present
      by_cases name : v = libexecName
      · exact ⟨first, after, by rw [name]; rfl⟩
      · simp [programInside, Directory.find, name] at found
    | cons head before =>
      obtain ⟨next, rest, same⟩ : ∃ next rest, before ++ v :: first :: after = next :: rest := by
        cases before <;> simp
      rw [List.cons_append, same] at present ⊢
      obtain ⟨sub, found, _⟩ := find_of_get present
      by_cases name : head = libexecName
      · exact ⟨next, rest, by rw [name]⟩
      · simp [programInside, Directory.find, name] at found
  have found : programInside.find libexecName = some (.dir (.leaf shName (.file [10]) .nil)) := rfl
  rw [same, Directory.get_of_dir found] at present
  by_cases name : next = shName
  · subst name
    have leaf : Directory.find (.leaf shName (Content.file [10]) .nil) shName = some (.leaf (Content.file [10])) := rfl
    rw [Directory.get_of_leaf leaf] at present
    cases rest with
    | nil =>
      rw [same, leftOut_dir found, leftOut_leaf leaf]
      decide
    | cons _ _ => cases present
  · simp [Directory.get, Directory.find, name] at present

/-- The release copies the archive, which the plain walk leaves out. -/
theorem archiveInside_copied : ¬ Agree "image".toList archiveInside := fun agree =>
  absurd (agree.same [libexecName, pluginName]) (by decide)

end CBuild.Soundness.ReleaseAgreement
