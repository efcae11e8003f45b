import CBuild.Model.ProcessSysroot

/-! # Linked and copied system roots

Both ways leave out hidden names at the top. Below, `ls` still leaves them out and `cp` copies them, but for the
directories that are linked by copying them.
-/

namespace CBuild.Soundness.SysrootAgreement

open CBuild.Text CBuild.Files CBuild.Model.ProcessSysroot

/-- The text of a directory below another. -/
def pathText (s : Text) (path : List FileName) : Text := path.foldl below s

/-- The path goes through a documentation directory, or leads to it. -/
def Documented (s : Text) (entries : Sysroot) (path : List FileName) : Prop :=
  ∃ before v after, path = before ++ v :: after ∧ entries.get (before ++ [v]) = some .directory ∧
    passesOver (pathText s before) v = true

/-- The path goes through a directory of terminal descriptions. -/
def InTerminfo (s : Text) (path : List FileName) : Prop :=
  ∃ before v after, path = before ++ v :: after ∧ after ≠ [] ∧ copies (pathText s before) v = true

/-- Linking and copying give the same, but for the documentation. -/
def Agree (s : Text) (entries : Sysroot) : Prop :=
  ∀ path, ¬ Documented s entries path → (linkSysroot s entries).get path = (installSysroot entries).get path

/-- What is hidden, but not below a hidden name at the top, is documentation or a terminal description. -/
def HiddenKept (s : Text) (entries : Sysroot) : Prop :=
  ∀ first before (v : FileName), first.hidden = false → v.hidden = true →
    (entries.get (first :: before ++ [v])).isSome = true →
      Documented s entries (first :: before ++ [v]) ∨ InTerminfo s (first :: before ++ [v])

variable {s : Text} {entries sub : Sysroot} {v : FileName} {path : List FileName}

theorem documented_cons (found : entries.find v = some (.dir sub)) :
    Documented s entries (v :: path) ↔ passesOver s v = true ∨ Documented (below s v) sub path := by
  constructor
  · rintro ⟨before, w, after, same, there, skipped⟩
    cases before with
    | nil =>
      cases same
      exact .inl skipped
    | cons head before =>
      cases same
      rw [List.cons_append, Directory.get_of_dir found] at there
      exact .inr ⟨before, w, after, rfl, there, skipped⟩
  · rintro (skipped | ⟨before, w, after, rfl, there, skipped⟩)
    · exact ⟨[], v, path, rfl, by rw [List.nil_append, Directory.get_of_dir found, Directory.get_nil], skipped⟩
    · exact ⟨v :: before, w, after, rfl, by rw [List.cons_append, Directory.get_of_dir found, there], skipped⟩

theorem inTerminfo_cons : InTerminfo s (v :: path) ↔
    (path ≠ [] ∧ copies s v = true) ∨ InTerminfo (below s v) path := by
  constructor
  · rintro ⟨before, w, after, same, more, copied⟩
    cases before with
    | nil =>
      cases same
      exact .inl ⟨more, copied⟩
    | cons head before =>
      cases same
      exact .inr ⟨before, w, after, rfl, more, copied⟩
  · rintro (⟨more, copied⟩ | ⟨before, w, after, rfl, more, copied⟩)
    · exact ⟨[], v, path, rfl, more, copied⟩
    · exact ⟨v :: before, w, after, rfl, more, copied⟩

theorem not_inTerminfo_singleton : ¬ InTerminfo s [v] := by
  rintro ⟨before, w, after, same, more, -⟩
  cases before with
  | nil =>
    cases same
    exact more rfl
  | cons head before => simp at same

/-- A path to a leaf is its name. -/
theorem not_documented_leaf {content : Content} (found : entries.find v = some (.leaf content)) :
    ¬ Documented s entries (v :: path) := by
  rintro ⟨before, w, after, same, there, -⟩
  cases before with
  | nil =>
    cases same
    rw [List.nil_append, Directory.get_of_leaf found] at there
    simp at there
  | cons head before =>
    cases same
    rw [List.cons_append, Directory.get_of_leaf found] at there
    simp at there

/-- What `link_sysroot` makes of an entry. -/
def linked (s : Text) (v : FileName) : Entry FileName Content → Option (Entry FileName Content)
  | .leaf content => some (.leaf content)
  | .dir sub =>
    if passesOver s v then none else if copies s v then some (.dir sub) else some (.dir (linkSysroot (below s v) sub))

theorem names_linkSysroot : (linkSysroot s entries).names ⊆ entries.names := by
  induction entries generalizing s with
  | nil => exact fun _ member => member
  | leaf w content rest ih =>
    rw [linkSysroot]
    split
    · exact List.subset_cons_of_subset _ ih
    · exact List.cons_subset_cons _ ih
  | dir w sub rest _ ih =>
    rw [linkSysroot]
    split_ifs
    · exact List.subset_cons_of_subset _ ih
    · exact List.subset_cons_of_subset _ ih
    · exact List.cons_subset_cons _ ih
    · exact List.cons_subset_cons _ ih

theorem find_linkSysroot (distinct : entries.Distinct) (v : FileName) :
    (linkSysroot s entries).find v = if v.hidden then none else (entries.find v).bind (linked s v) := by
  induction entries with
  | nil => cases v.hidden <;> rfl
  | leaf w content rest ih =>
    rw [linkSysroot, Directory.find]
    by_cases same : v = w
    · subst same
      cases hidden : v.hidden with
      | true => simpa [hidden] using ih distinct.2
      | false => simp [Directory.find, linked]
    · cases hidden : w.hidden <;> simp [Directory.find, same, ih distinct.2]
  | dir w sub rest _ ih =>
    rw [linkSysroot, Directory.find]
    by_cases same : v = w
    · subst same
      have absent : (linkSysroot s rest).find v = none :=
        Directory.find_of_not_mem fun member => distinct.1 (names_linkSysroot member)
      cases hidden : v.hidden with
      | true => simpa [hidden] using absent
      | false =>
        cases skipped : passesOver s v <;> cases copied : copies s v <;>
          simp [Directory.find, linked, skipped, copied, absent]
    · rw [if_neg same, ← ih distinct.2.2]
      split_ifs <;> simp [Directory.find, same]

/-- Where no hidden name is lost, linking keeps what is not documentation. -/
theorem get_linkSysroot (distinct : entries.Distinct)
    (kept : ∀ before (w : FileName), w.hidden = true → (entries.get (before ++ [w])).isSome = true →
      Documented s entries (before ++ [w]) ∨ InTerminfo s (before ++ [w]))
    (other : ¬ Documented s entries path) : (linkSysroot s entries).get path = entries.get path := by
  induction path generalizing s entries with
  | nil => simp
  | cons v path ih =>
    have target := find_linkSysroot (s := s) distinct v
    have alone (hidden : v.hidden = true) (here : (entries.get [v]).isSome = true) : Documented s entries [v] :=
      (kept [] v hidden here).resolve_right not_inTerminfo_singleton
    cases found : entries.find v with
    | none =>
      rw [Directory.get_of_none found, Directory.get_of_none]
      rw [target, found]
      split <;> rfl
    | some entry =>
      cases entry with
      | leaf content =>
        have shown : v.hidden = false := by
          by_contra hidden
          refine not_documented_leaf found (alone (by simpa using hidden) ?_)
          rw [Directory.get_of_leaf found]
          rfl
        rw [found, shown] at target
        rw [Directory.get_of_leaf found, Directory.get_of_leaf target]
      | dir sub =>
        have through := @documented_cons s entries sub v path found
        obtain ⟨walked, deeper⟩ := not_or.mp (mt through.mpr other)
        have shown : v.hidden = false := by
          by_contra hidden
          have documented := alone (by simpa using hidden) (by rw [Directory.get_of_dir found, Directory.get_nil]; rfl)
          rcases (documented_cons found).mp documented with skipped | ⟨before, w, after, same, -⟩
          · exact walked skipped
          · simp at same
        rw [Directory.get_of_dir found]
        rw [found, shown, if_neg Bool.false_ne_true, Option.bind_some, linked, if_neg walked] at target
        by_cases copied : copies s v = true
        · rw [if_pos copied] at target
          rw [Directory.get_of_dir target]
        · rw [if_neg copied] at target
          rw [Directory.get_of_dir target]
          refine ih (Directory.distinct_below distinct found) (fun before w hidden here => ?_) deeper
          rw [← Directory.get_of_dir found, ← List.cons_append] at here
          rcases kept (v :: before) w hidden here with documented | terminfo
          · exact .inl (((documented_cons found).mp documented).resolve_left walked)
          · exact .inr ((inTerminfo_cons.mp terminfo).resolve_left fun both => copied both.2)

/-- Linking loses a hidden name that is not documentation or a terminal description. -/
theorem get_linkSysroot_hidden (distinct : entries.Distinct) {before : List FileName} {w : FileName}
    (hidden : w.hidden = true) (other : ¬ Documented s entries (before ++ [w]))
    (outside : ¬ InTerminfo s (before ++ [w])) : (linkSysroot s entries).get (before ++ [w]) = none := by
  induction before generalizing s entries with
  | nil =>
    rw [List.nil_append, Directory.get_of_none]
    rw [find_linkSysroot distinct, hidden]
    rfl
  | cons v before ih =>
    have target := find_linkSysroot (s := s) distinct v
    cases shown : v.hidden with
    | true =>
      rw [shown] at target
      exact Directory.get_of_none target
    | false =>
      rw [shown, if_neg Bool.false_ne_true] at target
      cases found : entries.find v with
      | none =>
        rw [found] at target
        exact Directory.get_of_none target
      | some entry =>
        cases entry with
        | leaf content =>
          rw [found] at target
          rw [List.cons_append, Directory.get_of_leaf target, if_neg (by simp)]
        | dir sub =>
          obtain ⟨walked, deeper⟩ := not_or.mp (mt (documented_cons found).mpr other)
          obtain ⟨notCopied, inner⟩ := not_or.mp (mt inTerminfo_cons.mpr outside)
          have copied : copies s v ≠ true := fun copied => notCopied ⟨by simp, copied⟩
          rw [found, Option.bind_some, linked, if_neg walked, if_neg copied] at target
          rw [List.cons_append, Directory.get_of_dir target]
          exact ih (Directory.distinct_below distinct found) deeper inner

theorem get_installSysroot (shown : v.hidden = false) :
    (installSysroot entries).get (v :: path) = entries.get (v :: path) :=
  Directory.get_congr (by rw [installSysroot, Directory.find_restrict, shown]; rfl)

theorem get_installSysroot_hidden (hidden : v.hidden = true) : (installSysroot entries).get (v :: path) = none :=
  Directory.get_of_none (by rw [installSysroot, Directory.find_restrict, hidden]; rfl)

theorem documented_installSysroot (shown : v.hidden = false) :
    Documented s (installSysroot entries) (v :: path) ↔ Documented s entries (v :: path) := by
  constructor <;> rintro ⟨before, w, after, same, there, skipped⟩ <;>
    refine ⟨before, w, after, same, ?_, skipped⟩ <;> cases before with
    | nil =>
      cases same
      simpa only [List.nil_append, get_installSysroot shown] using there
    | cons head before =>
      cases same
      simpa only [List.cons_append, get_installSysroot shown] using there

/-- Linking and copying agree exactly when no hidden name is lost below the top. -/
theorem agree_iff (s : Text) (entries : Sysroot) (distinct : entries.Distinct) :
    Agree s entries ↔ HiddenKept s entries := by
  constructor
  · intro agree first before v shown hidden present
    by_contra neither
    obtain ⟨other, outside⟩ := not_or.mp neither
    have same := agree _ other
    rw [get_linkSysroot_hidden distinct hidden other outside, List.cons_append, get_installSysroot shown] at same
    rw [List.cons_append, ← same] at present
    cases present
  · intro kept path other
    have shownDistinct : (installSysroot entries).Distinct := distinct.restrict _
    cases path with
    | nil => simp
    | cons v path =>
      cases shown : v.hidden with
      | true =>
        have gone : (linkSysroot s entries).find v = none := by rw [find_linkSysroot distinct, shown]; rfl
        rw [get_installSysroot_hidden shown, Directory.get_of_none gone]
      | false =>
        have top : (linkSysroot s entries).find v = (linkSysroot s (installSysroot entries)).find v := by
          rw [find_linkSysroot distinct, find_linkSysroot shownDistinct, installSysroot, Directory.find_restrict, shown]
          rfl
        rw [Directory.get_congr top]
        refine get_linkSysroot shownDistinct (fun before w hidden present => ?_)
          (mt (documented_installSysroot shown).mp other)
        cases before with
        | nil =>
          rw [List.nil_append, get_installSysroot_hidden hidden] at present
          cases present
        | cons first before =>
          rw [List.cons_append] at present ⊢
          cases visible : first.hidden with
          | true =>
            rw [get_installSysroot_hidden visible] at present
            cases present
          | false =>
            rw [get_installSysroot visible] at present
            exact (kept first before w visible hidden present).imp_left (documented_installSysroot visible).mpr

def libName : FileName := ⟨"lib".toList, by decide, by decide, by decide⟩

def libzName : FileName := ⟨"libz.so".toList, by decide, by decide, by decide⟩

def stampName : FileName := ⟨".stamp".toList, by decide, by decide, by decide⟩

def stampBeside : Sysroot :=
  .dir libName (.leaf libzName (.symlink "libz.so.1".toList) .nil) (.leaf stampName (.file [10]) .nil)

def stampInside : Sysroot :=
  .dir libName (.leaf libzName (.symlink "libz.so.1".toList) (.leaf stampName (.file [10]) .nil)) .nil

theorem stampBeside_agree : Agree "image".toList stampBeside := by
  have distinct : stampBeside.Distinct := ⟨by decide, ⟨by decide, trivial⟩, by decide, trivial⟩
  refine (agree_iff "image".toList stampBeside distinct).mpr fun first before v shown hidden present => ?_
  exfalso
  by_cases lib : first = libName
  · subst lib
    have found : stampBeside.find libName = some (.dir (.leaf libzName (.symlink "libz.so.1".toList) .nil)) := rfl
    rw [List.cons_append, Directory.get_of_dir found] at present
    cases before with
    | nil =>
      have other : v ≠ libzName := fun same => absurd hidden (by rw [same]; decide)
      simp [Directory.get, Directory.find, other] at present
    | cons w before =>
      by_cases libz : w = libzName <;> simp [Directory.get, Directory.find, libz] at present
  · by_cases stamp : first = stampName
    · rw [stamp] at shown
      exact absurd shown (by decide)
    · simp [Directory.get, Directory.find, stampBeside, lib, stamp] at present

/-- `ls` does not list the hidden file, so the linked system root lacks it. -/
theorem stampInside_lost : ¬ Agree "image".toList stampInside := by
  intro agree
  have other : ¬ Documented "image".toList stampInside [libName, stampName] := by
    have found : stampInside.find libName =
        some (.dir (.leaf libzName (.symlink "libz.so.1".toList) (.leaf stampName (.file [10]) .nil))) := rfl
    rw [documented_cons found]
    rintro (skipped | documented)
    · exact absurd skipped (by decide)
    · refine @not_documented_leaf _ _ _ _ (.file [10]) ?_ documented
      rfl
  exact absurd (agree _ other) (by decide)

end CBuild.Soundness.SysrootAgreement
