import Mathlib.Data.List.Basic
import Mathlib.Data.Nat.Notation

/-! # Directories

A directory is the list of its entries, each a leaf or a directory again. A path leads from entry to entry.
-/

namespace CBuild.Files

variable (Name Content : Type)

inductive Directory
  | nil
  | leaf (name : Name) (content : Content) (rest : Directory)
  | dir (name : Name) (below rest : Directory)
deriving DecidableEq

inductive Entry
  | leaf (content : Content)
  | dir (below : Directory Name Content)

inductive Kind
  | leaf (content : Content)
  | directory
deriving DecidableEq

namespace Directory

variable {Name Content}

def names : Directory Name Content → List Name
  | nil => []
  | leaf name _ rest => name :: rest.names
  | dir name _ rest => name :: rest.names

/-- The names in a directory differ, and so do those in the directories below. -/
def Distinct : Directory Name Content → Prop
  | nil => True
  | leaf name _ rest => name ∉ rest.names ∧ rest.Distinct
  | dir name below rest => name ∉ rest.names ∧ below.Distinct ∧ rest.Distinct

def restrict (keep : Name → Bool) : Directory Name Content → Directory Name Content
  | nil => nil
  | leaf name content rest => if keep name then leaf name content (rest.restrict keep) else rest.restrict keep
  | dir name below rest => if keep name then dir name below (rest.restrict keep) else rest.restrict keep

variable [DecidableEq Name]

def find : Directory Name Content → Name → Option (Entry Name Content)
  | nil, _ => none
  | leaf name content rest, wanted => if wanted = name then some (.leaf content) else rest.find wanted
  | dir name below rest, wanted => if wanted = name then some (.dir below) else rest.find wanted

/-- What the path leads to; the empty path leads to the directory itself. -/
def get : Directory Name Content → List Name → Option (Kind Content)
  | _, [] => some .directory
  | directory, name :: path =>
    match directory.find name with
    | none => none
    | some (.leaf content) => if path = [] then some (.leaf content) else none
    | some (.dir below) => below.get path

variable {directory below : Directory Name Content} {name : Name} {content : Content} {path : List Name}

@[simp] theorem get_nil : directory.get [] = some .directory := by cases directory <;> rfl

theorem get_of_none (found : directory.find name = none) : directory.get (name :: path) = none := by
  cases directory <;> simp_all [get]

theorem get_of_leaf (found : directory.find name = some (.leaf content)) :
    directory.get (name :: path) = if path = [] then some (.leaf content) else none := by
  cases directory <;> simp_all [get]

theorem get_of_dir (found : directory.find name = some (.dir below)) :
    directory.get (name :: path) = below.get path := by
  cases directory <;> simp_all [get]

theorem get_congr {other : Directory Name Content} (same : directory.find name = other.find name) :
    directory.get (name :: path) = other.get (name :: path) := by
  cases found : directory.find name with
  | none => rw [get_of_none found, get_of_none (same ▸ found)]
  | some entry =>
    cases entry with
    | leaf content => rw [get_of_leaf found, get_of_leaf (same ▸ found)]
    | dir below => rw [get_of_dir found, get_of_dir (same ▸ found)]

theorem find_of_not_mem (absent : name ∉ directory.names) : directory.find name = none := by
  induction directory with
  | nil => rfl
  | leaf other content rest ih =>
    obtain ⟨differs, absent⟩ := not_or.mp (mt List.mem_cons.mpr absent)
    rw [find, if_neg differs, ih absent]
  | dir other below rest _ ih =>
    obtain ⟨differs, absent⟩ := not_or.mp (mt List.mem_cons.mpr absent)
    rw [find, if_neg differs, ih absent]

theorem distinct_below (distinct : directory.Distinct) (found : directory.find name = some (.dir below)) :
    below.Distinct := by
  induction directory with
  | nil => cases found
  | leaf other content rest ih =>
    rw [find] at found
    split at found
    · cases found
    · exact ih distinct.2 found
  | dir other below' rest _ ih =>
    rw [find] at found
    split at found
    · cases found
      exact distinct.2.1
    · exact ih distinct.2.2 found

omit [DecidableEq Name] in
theorem names_restrict (keep : Name → Bool) : (directory.restrict keep).names = directory.names.filter keep := by
  induction directory with
  | nil => rfl
  | leaf other content rest ih =>
    rw [restrict, names]
    cases kept : keep other <;> simp [kept, names, ih]
  | dir other below rest _ ih =>
    rw [restrict, names]
    cases kept : keep other <;> simp [kept, names, ih]

omit [DecidableEq Name] in
theorem Distinct.restrict (distinct : directory.Distinct) (keep : Name → Bool) :
    (directory.restrict keep).Distinct := by
  induction directory with
  | nil => trivial
  | leaf other content rest ih =>
    rw [Directory.restrict]
    split
    · exact ⟨fun member => distinct.1 (List.mem_of_mem_filter (names_restrict keep ▸ member)), ih distinct.2⟩
    · exact ih distinct.2
  | dir other below rest _ ih =>
    rw [Directory.restrict]
    split
    · exact ⟨fun member => distinct.1 (List.mem_of_mem_filter (names_restrict keep ▸ member)), distinct.2.1,
        ih distinct.2.2⟩
    · exact ih distinct.2.2

theorem find_restrict (keep : Name → Bool) (wanted : Name) :
    (directory.restrict keep).find wanted = if keep wanted then directory.find wanted else none := by
  induction directory with
  | nil => cases keep wanted <;> rfl
  | leaf other content rest ih =>
    by_cases same : wanted = other
    · subst same
      cases kept : keep wanted <;> simp [restrict, find, kept, ih]
    · cases kept : keep other <;> simp [restrict, find, kept, ih, same]
  | dir other below rest _ ih =>
    by_cases same : wanted = other
    · subst same
      cases kept : keep wanted <;> simp [restrict, find, kept, ih]
    · cases kept : keep other <;> simp [restrict, find, kept, ih, same]

end Directory

end CBuild.Files
