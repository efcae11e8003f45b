import CBuild.Text.Path
import Mathlib.Data.List.Basic

/-! # Directories and the paths to them

A directory is known by the names that lead to it from the root. A path is followed from directory to directory: a
name leads to the directory of this name or along a link, a dot stays where it is, and two dots lead to the parent.
-/

namespace CBuild.Files

open Text

abbrev Place := List Text

/-- What may be the name of a directory. -/
structure ValidName (name : Text) : Prop where
  nonempty : name ≠ []
  dot : name ≠ ['.']
  dots : name ≠ ['.', '.']
  slash : '/' ∉ name

/-- The directories, the links to directories, and the directory that relative paths begin at. -/
structure Disk where
  dirs : List Place
  distinct : dirs.Nodup
  valid : ∀ place ∈ dirs, ∀ name ∈ place, ValidName name
  closed : ∀ place ∈ dirs, place.dropLast ∈ dirs
  link : Place → Text → Option Place
  linked : ∀ place name target, link place name = some target → target ∈ dirs
  cwd : Place
  here : cwd ∈ dirs

namespace Disk

variable (disk : Disk)

/-- The names of the directories in a directory; links are none of them. -/
def subdirs (place : Place) : List Text :=
  disk.dirs.filterMap fun other => if other.dropLast = place then other.getLast? else none

def step (place : Place) (name : Text) : Option Place :=
  if name = [] ∨ name = ['.'] then some place
  else if name = ['.', '.'] then some place.dropLast
  else if place ++ [name] ∈ disk.dirs then some (place ++ [name])
  else disk.link place name

def follow : Place → List Text → Option Place
  | place, [] => some place
  | place, name :: names => do follow (← disk.step place name) names

def reach (place : Place) (path : Text) : Option Place :=
  disk.follow (if path.head? = some '/' then [] else place) (List.splitOn '/' path)

/-- A path from the directory that relative paths begin at. -/
def resolve (path : Text) : Option Place := if path = [] then none else disk.reach disk.cwd path

variable {disk} {place target : Place} {name path : Text}

theorem root_mem : [] ∈ disk.dirs := by
  have shorter (n : ℕ) : disk.cwd.take (disk.cwd.length - n) ∈ disk.dirs := by
    induction n with
    | zero => simpa using disk.here
    | succ n ih =>
      have closed := disk.closed _ ih
      rw [List.dropLast_eq_take, List.take_take, List.length_take] at closed
      have same : min (min (disk.cwd.length - n) disk.cwd.length - 1) (disk.cwd.length - n) =
          disk.cwd.length - (n + 1) := by omega
      rwa [same] at closed
  simpa using shorter disk.cwd.length

theorem mem_subdirs : name ∈ disk.subdirs place ↔ place ++ [name] ∈ disk.dirs := by
  simp only [subdirs, List.mem_filterMap, Option.ite_none_right_eq_some]
  constructor
  · rintro ⟨other, member, rfl, last⟩
    rwa [List.dropLast_append_getLast? name last]
  · intro member
    exact ⟨place ++ [name], member, by simp, by simp⟩

theorem nodup_subdirs : (disk.subdirs place).Nodup := by
  refine List.Nodup.filterMap (fun first second name isFirst isSecond => ?_) disk.distinct
  simp only [Option.mem_def, Option.ite_none_right_eq_some] at isFirst isSecond
  rw [← List.dropLast_append_getLast? name isFirst.2, ← List.dropLast_append_getLast? name isSecond.2, isFirst.1,
    isSecond.1]

theorem valid_of_mem_subdirs (member : name ∈ disk.subdirs place) : ValidName name :=
  disk.valid _ (mem_subdirs.mp member) name (by simp)

theorem step_name (member : name ∈ disk.subdirs place) : disk.step place name = some (place ++ [name]) := by
  obtain ⟨nonempty, dot, dots, -⟩ := valid_of_mem_subdirs member
  rw [step, if_neg (not_or.mpr ⟨nonempty, dot⟩), if_neg dots, if_pos (mem_subdirs.mp member)]

theorem step_mem (inside : place ∈ disk.dirs) (success : disk.step place name = some target) :
    target ∈ disk.dirs := by
  unfold step at success
  split_ifs at success with stays up named
  · cases success
    exact inside
  · cases success
    exact disk.closed place inside
  · cases success
    exact named
  · exact disk.linked place name target success

theorem follow_append (names more : List Text) :
    disk.follow place (names ++ more) = (disk.follow place names).bind (disk.follow · more) := by
  induction names generalizing place with
  | nil => rfl
  | cons name names ih =>
    simp only [List.cons_append, follow, bind, Option.bind_assoc, ih]

theorem follow_mem {names : List Text} (inside : place ∈ disk.dirs) (success : disk.follow place names = some target) :
    target ∈ disk.dirs := by
  induction names generalizing place with
  | nil =>
    cases success
    exact inside
  | cons name names ih =>
    obtain ⟨next, first, rest⟩ := Option.bind_eq_some_iff.mp success
    exact ih (step_mem inside first) rest

theorem reach_mem (inside : place ∈ disk.dirs) (success : disk.reach place path = some target) :
    target ∈ disk.dirs := by
  unfold reach at success
  split at success
  · exact follow_mem root_mem success
  · exact follow_mem inside success

theorem resolve_mem (success : disk.resolve path = some target) : target ∈ disk.dirs := by
  unfold resolve at success
  split at success
  · cases success
  · exact reach_mem disk.here success

theorem reach_name (member : name ∈ disk.subdirs place) : disk.reach place name = some (place ++ [name]) := by
  have valid := valid_of_mem_subdirs member
  have relative : name.head? ≠ some '/' := fun head => valid.slash (List.mem_of_mem_head? head)
  rw [reach, if_neg relative, List.splitOn_eq_singleton valid.slash]
  simp [follow, step_name member]

/-- A path that is joined to another is followed from where the other one leads. -/
theorem resolve_joinPath {first second : Text} (found : disk.resolve first = some place) :
    disk.resolve (joinPath first second) = disk.reach place second := by
  have nonempty : first ≠ [] := by
    rintro rfl
    cases found
  rw [resolve, if_neg nonempty] at found
  by_cases absolute : second.head? = some '/'
  · have some : second ≠ [] := by
      rintro rfl
      cases absolute
    rw [joinPath, if_pos absolute, resolve, if_neg some, reach, reach, if_pos absolute, if_pos absolute]
  · rw [joinPath, if_neg absolute, reach, if_neg absolute]
    have head (rest : Text) : (first ++ rest).head? = first.head? := by
      cases first with
      | nil => contradiction
      | cons c first => rfl
    by_cases slash : first.getLast? = some '/'
    · rw [if_pos (.inr slash), resolve, if_neg (by simp [nonempty]), reach, head]
      rw [reach] at found
      obtain ⟨front, rfl⟩ : ∃ front, first = front ++ ['/'] :=
        ⟨first.dropLast, (List.dropLast_append_getLast? _ slash).symm⟩
      rw [List.splitOn_append_cons_self, List.splitOn_nil, follow_append] at found
      obtain ⟨middle, toMiddle, rest⟩ := Option.bind_eq_some_iff.mp found
      obtain rfl : middle = place := by simpa [follow, step] using rest
      rw [List.append_assoc, List.singleton_append, List.splitOn_append_cons_self, follow_append, toMiddle]
      rfl
    · rw [if_neg (not_or.mpr ⟨nonempty, slash⟩), resolve, if_neg (by simp), reach, head, List.splitOn_append_cons_self,
        follow_append]
      rw [reach] at found
      rw [found]
      rfl

end Disk

end CBuild.Files
