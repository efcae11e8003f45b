import Mathlib.Data.Nat.Notation
import Mathlib.Logic.Function.Basic

/-! # Files and symbolic links

What is at a place is a file or a link to another place. A place leads to a file when the links that start
there end at one that is accepted. Writing goes through links, and it takes no file away.
-/

namespace CBuild.Files

variable {Place Content : Type}

inductive Node (Place Content : Type) where
  | file (content : Content)
  | link (target : Place)

abbrev Tree (Place Content : Type) := Place → Option (Node Place Content)

/-- The links from the place end at a file that is accepted. -/
inductive Leads (tree : Tree Place Content) (accepted : Place → Prop) : Place → Prop
  | file {place : Place} {content : Content} (found : tree place = some (.file content)) (accept : accepted place) :
      Leads tree accepted place
  | link {place target : Place} (found : tree place = some (.link target)) (next : Leads tree accepted target) :
      Leads tree accepted place

/-- The place where the links end, after a number of links at most. -/
def follow (tree : Tree Place Content) : ℕ → Place → Place
  | 0, place => place
  | limit + 1, place =>
    match tree place with
    | some (.link target) => follow tree limit target
    | _ => place

section

variable [DecidableEq Place]

/-- What is written to a place is written where its links end, or nowhere when there are too many. -/
def write (tree : Tree Place Content) : ℕ → Place → Content → Option (Tree Place Content)
  | 0, _, _ => none
  | limit + 1, place, content =>
    match tree place with
    | some (.link target) => write tree limit target content
    | _ => some (Function.update tree place (some (.file content)))

end

/-- Links stay, and files stay files. -/
structure Grows (tree after : Tree Place Content) : Prop where
  link : ∀ place target, tree place = some (.link target) → after place = some (.link target)
  file : ∀ place content, tree place = some (.file content) → ∃ content, after place = some (.file content)

variable {tree after : Tree Place Content} {accepted : Place → Prop} {place target : Place} {content : Content}
  {limit : ℕ}

theorem Leads.absent (none : tree place = none) : ¬ Leads tree accepted place := by
  intro leads
  cases leads with
  | file found => rw [none] at found; cases found
  | link found => rw [none] at found; cases found

theorem Leads.of_link (found : tree place = some (.link target)) (leads : Leads tree accepted place) :
    Leads tree accepted target := by
  cases leads with
  | file isFile => rw [found] at isFile; cases isFile
  | link isLink next =>
    rw [found] at isLink
    cases isLink
    exact next

/-- What grows leads where it led. -/
theorem Leads.grows (grows : Grows tree after) (leads : Leads tree accepted place) : Leads after accepted place := by
  induction leads with
  | file found accept =>
    obtain ⟨content, found⟩ := grows.file _ _ found
    exact .file found accept
  | link found next ih => exact .link (grows.link _ _ found) ih

theorem Grows.refl (tree : Tree Place Content) : Grows tree tree :=
  ⟨fun _ _ found => found, fun _ content found => ⟨content, found⟩⟩

variable [DecidableEq Place]

/-- The same link in both keeps the one growing into the other. -/
theorem Grows.update (grows : Grows tree after) (place : Place) (node : Option (Node Place Content)) :
    Grows (Function.update tree place node) (Function.update after place node) := by
  constructor
  · intro other target found
    rw [Function.update_apply] at found ⊢
    split at found
    · next same => rw [if_pos same, found]
    · next different => rw [if_neg different, grows.link _ _ found]
  · intro other content found
    rw [Function.update_apply] at found
    rw [Function.update_apply]
    split at found
    · next same => exact ⟨content, by rw [if_pos same, found]⟩
    · next different =>
      obtain ⟨content, found⟩ := grows.file _ _ found
      exact ⟨content, by rw [if_neg different, found]⟩

theorem write_grows (written : write tree limit place content = some after) : Grows tree after := by
  induction limit generalizing place with
  | zero => cases written
  | succ limit ih =>
    rw [write] at written
    split at written
    · exact ih written
    · next free =>
      cases written
      constructor
      · intro other target found
        have different : other ≠ place := fun same => free target (same ▸ found)
        rw [Function.update_of_ne different, found]
      · intro other content' found
        by_cases same : other = place
        · exact ⟨content, by rw [same, Function.update_self]⟩
        · exact ⟨content', by rw [Function.update_of_ne same, found]⟩

/-- What is written to a free place is there. -/
theorem write_absent (none : tree place = none) (written : write tree limit place content = some after) :
    after place = some (.file content) := by
  cases limit with
  | zero => cases written
  | succ limit =>
    rw [write, none] at written
    cases written
    exact Function.update_self ..

/-- A new link that leads to a file takes nothing away. -/
theorem Leads.relink (new : Leads (Function.update tree place (some (.link target))) accepted target) {other : Place}
    (leads : Leads tree accepted other) : Leads (Function.update tree place (some (.link target))) accepted other := by
  have here : Leads (Function.update tree place (some (.link target))) accepted place :=
    .link (Function.update_self ..) new
  induction leads with
  | @file other content found accept =>
    by_cases same : other = place
    · rwa [same]
    · exact .file (by rw [Function.update_of_ne same, found]) accept
  | @link other next found _ ih =>
    by_cases same : other = place
    · rwa [same]
    · exact .link (by rw [Function.update_of_ne same, found]) ih

end CBuild.Files
