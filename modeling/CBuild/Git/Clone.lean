import CBuild.Text.Basic
import Mathlib.Logic.Relation

/-! # Clones of a remote repository

Commits with their parents, the branches and tags of a remote repository, and what `git` does with a clone
of it: clone, fetch, pull, checkout and hard reset. The working tree has no changes of its own. References are
lists, where the first entry of a name counts.
-/

namespace CBuild.Git

variable {Commit : Type}

/-- The commits; one reaches another when it is the other or among its ancestors. -/
structure History (Commit : Type) where
  parents : Commit → List Commit
  reaches : Commit → Commit → Bool
  reaches_iff : ∀ old new, reaches old new = true ↔ Relation.ReflTransGen (fun c p => p ∈ parents c) new old

theorem History.reaches_self (history : History Commit) (c : Commit) : history.reaches c c = true :=
  (history.reaches_iff c c).mpr .refl

abbrev Refs (Commit : Type) := List (Text × Commit)

structure Remote (Commit : Type) where
  branches : Refs Commit
  tags : Refs Commit
  default : Text
  born : (branches.lookup default).isSome = true

def Remote.head (remote : Remote Commit) : Commit := (remote.branches.lookup remote.default).get remote.born

theorem Remote.lookup_default (remote : Remote Commit) :
    remote.branches.lookup remote.default = some remote.head := (Option.some_get remote.born).symm

/-- A clone. Its HEAD is a commit, on a branch or detached; the other local branches are `others`. -/
structure Clone (Commit : Type) where
  current : Option Text
  commit : Commit
  others : Refs Commit
  tracking : Refs Commit
  originHead : Text
  tags : Refs Commit
  objects : Commit → Bool

namespace Clone

def branch? (clone : Clone Commit) (name : Text) : Option Commit :=
  if clone.current = some name then some clone.commit else clone.others.lookup name

/-- What a name of a tag or a branch stands for. -/
def resolve (clone : Clone Commit) (name : Text) : Option Commit :=
  clone.tags.lookup name <|> clone.branch? name

variable (history : History Commit) (remote : Remote Commit)

/-- The commits of the remote branches. -/
def fetched (c : Commit) : Bool := remote.branches.any fun ref => history.reaches c ref.2

def ofRemote : Clone Commit where
  current := some remote.default
  commit := remote.head
  others := []
  tracking := remote.branches
  originHead := remote.default
  tags := remote.tags
  objects c := fetched history remote c || remote.tags.any fun ref => history.reaches c ref.2

/-- `git fetch`: the remote branches follow, and new tags of fetched commits are added. -/
def fetch (clone : Clone Commit) : Clone Commit :=
  { clone with
    tracking := remote.branches ++ clone.tracking
    tags := clone.tags ++ remote.tags.filter fun ref =>
      (clone.tags.lookup ref.1).isNone && (remote.tags.lookup ref.1).any (fetched history remote)
    objects := fun c => clone.objects c || fetched history remote c }

/-- `git pull`: a fetch, and the current branch is moved forward if that is possible. -/
def pull (clone : Clone Commit) : Clone Commit :=
  let clone := clone.fetch history remote
  match clone.current.bind (remote.branches.lookup ·) with
  | some tip => if history.reaches clone.commit tip then { clone with commit := tip } else clone
  | none => clone

/-- The local branches when the current one is left. -/
def left (clone : Clone Commit) : Refs Commit :=
  match clone.current with
  | some old => (old, clone.commit) :: clone.others
  | none => clone.others

/-- `git checkout`: a local branch, else a tag, else a new branch for a remote one. -/
def checkout (clone : Clone Commit) (name : Text) : Option (Clone Commit) :=
  if clone.current = some name then some clone
  else
    match clone.others.lookup name, clone.tags.lookup name with
    | some c, _ => some { clone with current := some name, commit := c, others := clone.left }
    | none, some c => some { clone with current := none, commit := c, others := clone.left }
    | none, none =>
      (clone.tracking.lookup name).map fun c => { clone with current := some name, commit := c, others := clone.left }

/-- `git reset --hard <commit>`; the commit has to be there. -/
def reset (clone : Clone Commit) (c : Commit) : Option (Clone Commit) :=
  if clone.objects c then some { clone with commit := c } else none

def resetTo (clone : Clone Commit) (name : Text) : Option (Clone Commit) :=
  (clone.resolve name).map fun c => { clone with commit := c }

def tagsAtHead [DecidableEq Commit] (clone : Clone Commit) : List Text :=
  (clone.tags.filter fun ref => clone.tags.lookup ref.1 = some clone.commit).map Prod.fst

theorem lookup_append (name : Text) (first second : Refs Commit) :
    (first ++ second).lookup name = (first.lookup name <|> second.lookup name) := by
  induction first with
  | nil => rfl
  | cons ref first ih =>
    rw [List.cons_append, List.lookup_cons, List.lookup_cons]
    cases name == ref.1
    · exact ih
    · rfl

/-- A selection of names keeps what it selects. -/
theorem lookup_filter (name : Text) (refs : Refs Commit) (selected : Text → Bool) :
    (refs.filter fun ref => selected ref.1).lookup name = if selected name then refs.lookup name else none := by
  induction refs with
  | nil => simp
  | cons ref refs ih =>
    by_cases same : name = ref.1
    · subst same
      cases chosen : selected ref.1 <;> simp [List.lookup, chosen, ih]
    · have other : (name == ref.1) = false := beq_false_of_ne same
      cases chosen : selected ref.1 <;> simp [List.lookup, chosen, ih, other]

variable {history : History Commit} {remote : Remote Commit} {clone after : Clone Commit} {name : Text} {c tip : Commit}

/-- A pull moves the current branch or nothing. -/
theorem pull_cases (history : History Commit) (remote : Remote Commit) (clone : Clone Commit) :
    ∃ c, clone.pull history remote = { clone.fetch history remote with commit := c } := by
  unfold pull
  dsimp only
  split
  · split
    · exact ⟨_, rfl⟩
    · exact ⟨clone.commit, rfl⟩
  · exact ⟨clone.commit, rfl⟩

/-- A branch that is behind its remote branch is at its tip after a pull. -/
theorem pull_commit (current : clone.current = some name) (found : remote.branches.lookup name = some tip)
    (behind : history.reaches clone.commit tip = true) : (clone.pull history remote).commit = tip := by
  have moved : (clone.fetch history remote).current.bind (remote.branches.lookup ·) = some tip := by
    change clone.current.bind _ = _
    rw [current]
    exact found
  rw [pull, moved]
  dsimp only
  rw [if_pos (show history.reaches (clone.fetch history remote).commit tip = true from behind)]

theorem fetch_tracking (found : remote.branches.lookup name = some tip) :
    (clone.fetch history remote).tracking.lookup name = some tip := by
  rw [fetch, lookup_append, found]
  rfl

/-- A tag that is there stays as it is; a new one is the remote one. -/
theorem fetch_tags (clone : Clone Commit) (name : Text) :
    (clone.fetch history remote).tags.lookup name =
      (clone.tags.lookup name <|>
        if (remote.tags.lookup name).any (fetched history remote) then remote.tags.lookup name else none) := by
  rw [fetch, lookup_append, lookup_filter name remote.tags fun name =>
    (clone.tags.lookup name).isNone && (remote.tags.lookup name).any (fetched history remote)]
  cases clone.tags.lookup name <;> rfl

theorem pull_tags (clone : Clone Commit) (name : Text) :
    (clone.pull history remote).tags.lookup name = (clone.fetch history remote).tags.lookup name := by
  obtain ⟨c, pulled⟩ := pull_cases history remote clone
  rw [pulled]

theorem pull_current : (clone.pull history remote).current = clone.current := by
  obtain ⟨c, pulled⟩ := pull_cases history remote clone
  rw [pulled, fetch]

theorem pull_others : (clone.pull history remote).others = clone.others := by
  obtain ⟨c, pulled⟩ := pull_cases history remote clone
  rw [pulled, fetch]

theorem pull_tracking (found : remote.branches.lookup name = some tip) :
    (clone.pull history remote).tracking.lookup name = some tip := by
  obtain ⟨c, pulled⟩ := pull_cases history remote clone
  rw [pulled]
  exact @fetch_tracking _ history _ clone _ _ found

/-- A local branch is checked out where it is. -/
theorem checkout_branch (checked : clone.checkout name = some after) (known : clone.branch? name = some c) :
    after.current = some name ∧ after.commit = c := by
  unfold checkout at checked
  unfold branch? at known
  split at checked
  · next current =>
    cases checked
    rw [if_pos current] at known
    exact ⟨current, Option.some_inj.mp known⟩
  · next other =>
    rw [if_neg other] at known
    rw [known] at checked
    cases checked
    exact ⟨rfl, rfl⟩

/-- A branch that is not there yet is made from the remote one, unless a tag has its name. -/
theorem checkout_tracking (checked : clone.checkout name = some after) (absent : clone.branch? name = none)
    (untagged : clone.tags.lookup name = none) (found : clone.tracking.lookup name = some c) :
    after.current = some name ∧ after.commit = c := by
  unfold checkout at checked
  unfold branch? at absent
  split at checked
  · next current =>
    rw [if_pos current] at absent
    cases absent
  · next other =>
    rw [if_neg other] at absent
    rw [absent, untagged, found] at checked
    cases checked
    exact ⟨rfl, rfl⟩

theorem checkout_tags (checked : clone.checkout name = some after) : after.tags = clone.tags := by
  unfold checkout at checked
  split at checked
  · cases checked
    rfl
  split at checked
  · cases checked
    rfl
  · cases checked
    rfl
  · obtain ⟨c, -, rfl⟩ := Option.map_eq_some_iff.mp checked
    rfl

theorem resetTo_commit (moved : clone.resetTo name = some after) : clone.resolve name = some after.commit := by
  obtain ⟨c, resolved, rfl⟩ := Option.map_eq_some_iff.mp moved
  exact resolved

theorem reset_commit (moved : clone.reset c = some after) : after.commit = c := by
  unfold reset at moved
  split at moved
  · cases moved
    rfl
  · cases moved

theorem tag_of_tagsAtHead [DecidableEq Commit] (only : clone.tagsAtHead = [name]) :
    clone.tags.lookup name = some clone.commit := by
  have member : name ∈ clone.tagsAtHead := by rw [only]; exact List.mem_singleton_self name
  obtain ⟨ref, chosen, rfl⟩ := List.mem_map.mp member
  exact of_decide_eq_true (List.mem_filter.mp chosen).2

end Clone

end CBuild.Git
