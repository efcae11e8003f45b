import Mathlib.Data.List.Basic

/-! # Archives of trees

An archive lists what is in a tree, each folder before what is in it. What is extracted replaces what has its path,
except that a folder stays where there is one. Extracting a tree where there are no folders puts the tree over what
is there.
-/

namespace CBuild.Files.Archive

variable {Name Content : Type}

inductive Item (Content : Type) where
  | folder
  | leaf (content : Content)
  deriving DecidableEq

def Item.isFolder : Item Content → Bool
  | folder => true
  | leaf _ => false

abbrev Listing (Name Content : Type) := List (List Name × Item Content)

section

variable [DecidableEq Name]

/-- The members are in the given folders, in those that come before them, or at the top. -/
def Rooted (folders : List (List Name)) : Listing Name Content → Prop
  | [] => True
  | (path, item) :: rest =>
    path ≠ [] ∧ (path.dropLast = [] ∨ path.dropLast ∈ folders) ∧
      Rooted (if item.isFolder then path :: folders else folders) rest

structure Tree (Name Content : Type) [DecidableEq Name] where
  members : Listing Name Content
  distinct : (members.map Prod.fst).Nodup
  rooted : Rooted [] members

structure Archiver (Name Content Bytes : Type) [DecidableEq Name] where
  create : Listing Name Content → Bytes
  list : Bytes → Option (Listing Name Content)
  lossless : ∀ tree : Tree Name Content, list (create tree.members) = some tree.members

def itemAt (dir : Listing Name Content) (path : List Name) : Option (Item Content) := dir.lookup path

def put (dir : Listing Name Content) (path : List Name) (item : Item Content) : Listing Name Content :=
  (path, item) :: dir.filter (·.1 ≠ path)

/-- A member needs its folder, and does not replace one that is not empty. -/
def extractMember (dir : Listing Name Content) (member : List Name × Item Content) : Option (Listing Name Content) :=
  let (path, item) := member
  if path.dropLast = [] ∨ (itemAt dir path.dropLast).any Item.isFolder then
    match itemAt dir path, item with
    | some .folder, .folder => some dir
    | some .folder, .leaf _ =>
      if dir.any fun other => path <+: other.1 ∧ path ≠ other.1 then none else some (put dir path item)
    | _, _ => some (put dir path item)
  else none

def extract (members dir : Listing Name Content) : Option (Listing Name Content) := members.foldlM extractMember dir

/-- `rm -f`, which leaves folders. -/
def remove (dir : Listing Name Content) (path : List Name) : Listing Name Content :=
  if (itemAt dir path).any Item.isFolder then dir else dir.filter (·.1 ≠ path)

variable {dir : Listing Name Content} {path other : List Name} {item : Item Content}

theorem itemAt_filter_ne (dir : Listing Name Content) (different : other ≠ path) :
    itemAt (dir.filter (·.1 ≠ path)) other = itemAt dir other := by
  unfold itemAt at *
  induction dir with
  | nil => rfl
  | cons member dir ih =>
    obtain ⟨at', item⟩ := member
    by_cases here : at' = path
    · have elsewhere : (other == at') = false := beq_eq_false_iff_ne.mpr (here ▸ different)
      rw [List.filter_cons_of_neg (by simpa using here), List.lookup_cons, elsewhere, ih]
    · rw [List.filter_cons_of_pos (by simpa using here), List.lookup_cons, List.lookup_cons, ih]

theorem itemAt_cons (path : List Name) (item : Item Content) (rest : Listing Name Content) (other : List Name) :
    itemAt ((path, item) :: rest) other = if other = path then some item else itemAt rest other := by
  unfold itemAt
  rw [List.lookup_cons]
  split
  · next same => rw [if_pos (eq_of_beq same)]
  · next different => rw [if_neg (beq_eq_false_iff_ne.mp different)]

theorem itemAt_put (dir : Listing Name Content) (path : List Name) (item : Item Content) (other : List Name) :
    itemAt (put dir path item) other = if other = path then some item else itemAt dir other := by
  unfold put
  rw [itemAt_cons]
  split
  · rfl
  · next different => exact itemAt_filter_ne dir different

theorem itemAt_filter_self (dir : Listing Name Content) (path : List Name) :
    itemAt (dir.filter (·.1 ≠ path)) path = none :=
  List.lookup_eq_none_iff.mpr fun _ member => bne_iff_ne.mpr fun same =>
    of_decide_eq_true (List.mem_filter.mp member).2 same.symm

theorem itemAt_remove (dir : Listing Name Content) (path other : List Name) : itemAt (remove dir path) other =
    if other = path ∧ ¬ (itemAt dir path).any Item.isFolder then none else itemAt dir other := by
  unfold remove
  by_cases folder : (itemAt dir path).any Item.isFolder
  · rw [if_pos folder, if_neg fun both => both.2 folder]
  · rw [if_neg folder]
    by_cases here : other = path
    · rw [if_pos ⟨here, folder⟩, here, itemAt_filter_self]
    · rw [if_neg fun both => here both.1, itemAt_filter_ne dir here]

theorem itemAt_eq_none {members : Listing Name Content} (absent : path ∉ members.map Prod.fst) :
    itemAt members path = none :=
  List.lookup_eq_none_iff.mpr fun member inside => bne_iff_ne.mpr fun same =>
    absent (List.mem_map.mpr ⟨member, inside, same.symm⟩)

/-- A member whose place is free of folders is put there. -/
theorem extractMember_eq (there : path.dropLast = [] ∨ itemAt dir path.dropLast = some .folder)
    (free : itemAt dir path ≠ some .folder) : extractMember dir (path, item) = some (put dir path item) := by
  have inside : path.dropLast = [] ∨ (itemAt dir path.dropLast).any Item.isFolder :=
    there.imp_right fun found => by rw [found]; rfl
  unfold extractMember
  dsimp only
  rw [if_pos inside]
  split
  · next found => exact absurd found free
  · next found => exact absurd found free
  · rfl

/-- Members in folders that are there, at places that are free of folders. -/
theorem extract_rooted {members : Listing Name Content} {folders : List (List Name)} (rooted : Rooted folders members)
    (distinct : (members.map Prod.fst).Nodup) (there : ∀ path ∈ folders, itemAt dir path = some .folder)
    (free : ∀ path ∈ members.map Prod.fst, itemAt dir path ≠ some .folder) :
    ∃ final, extract members dir = some final ∧
      ∀ path, itemAt final path = (itemAt members path).or (itemAt dir path) := by
  induction members generalizing folders dir with
  | nil => exact ⟨dir, rfl, fun _ => rfl⟩
  | cons member rest ih =>
    obtain ⟨path, item⟩ := member
    obtain ⟨-, parent, rooted'⟩ := rooted
    obtain ⟨new, distinct'⟩ := List.nodup_cons.mp distinct
    have free' : itemAt dir path ≠ some .folder := free path (List.mem_cons_self ..)
    have kept : ∀ folder ∈ folders, itemAt (put dir path item) folder = some .folder := by
      intro folder member
      have different : folder ≠ path := fun same => free' (same ▸ there folder member)
      rw [itemAt_put, if_neg different, there folder member]
    have folders' : ∀ folder ∈ (if item.isFolder then path :: folders else folders),
        itemAt (put dir path item) folder = some .folder := by
      split
      · next isFolder =>
        intro folder member
        rcases List.mem_cons.mp member with rfl | member
        · cases item with
          | folder => rw [itemAt_put, if_pos rfl]
          | leaf => cases isFolder
        · exact kept folder member
      · exact kept
    have rest_free : ∀ other ∈ rest.map Prod.fst, itemAt (put dir path item) other ≠ some .folder := by
      intro other member
      have different : other ≠ path := fun same => new (same ▸ member)
      rw [itemAt_put, if_neg different]
      exact free other (List.mem_cons_of_mem _ member)
    obtain ⟨final, run, found⟩ := ih rooted' distinct' folders' rest_free
    refine ⟨final, ?_, fun other => ?_⟩
    · unfold extract at run ⊢
      rw [List.foldlM_cons, extractMember_eq (parent.imp_right (there _)) free']
      exact run
    · rw [found, itemAt_put, itemAt_cons]
      split
      · next same => rw [same, itemAt_eq_none new]; rfl
      · rfl

/-- Extracting a tree where there are no folders. -/
theorem extract_tree (tree : Tree Name Content) (flat : ∀ path, itemAt dir path ≠ some .folder) :
    ∃ final, extract tree.members dir = some final ∧
      ∀ path, itemAt final path = (itemAt tree.members path).or (itemAt dir path) :=
  extract_rooted tree.rooted tree.distinct nofun fun path _ => flat path

end

end CBuild.Files.Archive
