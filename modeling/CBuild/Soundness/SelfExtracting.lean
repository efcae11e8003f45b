import CBuild.Model.GenCpkBinary

/-! # Self-extracting packages round-trip

The archive follows the only line `#END` of the script, so it is found whatever the rootfs holds. It is written to
`tmp.tar` in the directory of the installation, where a file of that name in the rootfs is replaced and removed with it.
-/

namespace CBuild.Soundness.SelfExtracting

open CBuild.Files.Archive CBuild.Model.GenCpkBinary

/-- A new directory holds what was packed, and nothing else. -/
def RoundTrips (tar : Tar) (licence : List Comment) (name : Name) (rootfs : Rootfs) : Prop :=
  ∃ installed, install tar (pack tar licence name rootfs) [] = some installed ∧
    ∀ path, itemAt installed path = itemAt rootfs.members path

/-- A line before the last one. -/
def Before (line : Text) : Prop := '\n' ∉ line ∧ line ≠ ['#', 'E', 'N', 'D']

instance (line : Text) : Decidable (Before line) := instDecidableAnd

theorem before_ofList {line : Text} (before : Before line) : Before (String.ofList line).toList := by
  rwa [String.toList_ofList]

theorem code_before : ∀ line ∈ code, Before line.toList := by
  unfold code
  repeat' refine List.forall_mem_cons.mpr ⟨?_, ?_⟩
  all_goals first
    | exact before_ofList (by decide)
    | exact nofun

theorem ending_eq : "#END".toList = ['#', 'E', 'N', 'D'] := String.toList_ofList

theorem Comment.before (comment : Comment) : Before comment.line := by
  refine ⟨comment.plain, fun same => ?_⟩
  obtain ⟨rest, line⟩ := comment.begins
  rw [same] at line
  cases List.cons.inj (List.cons.inj line).2 |>.1

variable (licence : List Comment) (name : Name)

def between : List Text :=
  ["".toList, "############################################".toList] ++ licence.map Comment.line ++ code.map String.toList

theorem script_eq : script licence = "#!/bin/sh".toList :: (between licence ++ ["#END".toList]) := rfl

theorem between_before : ∀ line ∈ between licence, Before line := by
  intro line member
  rcases List.mem_append.mp member with others | member
  · rcases List.mem_append.mp others with first | inside
    · have both : ∀ line ∈ ["".toList, "############################################".toList], Before line := by decide
      exact both line first
    · obtain ⟨comment, -, rfl⟩ := List.mem_map.mp inside
      exact Comment.before comment
  · obtain ⟨line, inside, rfl⟩ := List.mem_map.mp member
    exact code_before line inside

/-- The line that gets the name. -/
def named (line : Text) : Text := if line = "#pkgdir=sed_cmd".toList then "pkgdir=".toList ++ name.text else line

theorem named_before {line : Text} (before : Before line) : Before (named name line) := by
  unfold named
  split
  · refine ⟨fun member => ?_, fun same => absurd (List.cons.inj same).1 (by decide)⟩
    rcases List.mem_append.mp member with inside | inside
    · exact absurd inside (by decide)
    · exact absurd (name.plain _ inside) (by decide)
  · exact before

/-- The archive is found after the script. -/
theorem deleteThrough_pack (tar : Tar) (rootfs : Rootfs) :
    Text.deleteThrough "#END".toList (pack tar licence name rootfs) = tar.create rootfs.members := by
  have ends : named name "#END".toList = "#END".toList := if_neg (by decide)
  have starts : named name "#!/bin/sh".toList = "#!/bin/sh".toList := if_neg (by decide)
  have plain : ∀ line ∈ script licence, '\n' ∉ line := by
    rw [script_eq]
    intro line member
    rcases List.mem_cons.mp member with rfl | member
    · decide
    · rcases List.mem_append.mp member with inside | last
      · exact (between_before licence line inside).1
      · rw [List.mem_singleton.mp last]
        decide
  have lines : (script licence).map (named name) =
      "#!/bin/sh".toList :: ((between licence).map (named name) ++ ["#END".toList]) := by
    rw [script_eq, List.map_cons, List.map_append, List.map_singleton, starts, ends]
  have before : ∀ line ∈ (between licence).map (named name), Before line := by
    intro line member
    obtain ⟨line, inside, rfl⟩ := List.mem_map.mp member
    exact named_before name (between_before licence line inside)
  unfold pack
  rw [Text.substituteLine_unlines (by decide) plain]
  change Text.deleteThrough _ (Text.unlines ((script licence).map (named name)) ++ _) = _
  rw [lines]
  refine Text.deleteThrough_unlines ?_ (fun member => (before _ member).2 ending_eq) _
  intro line member
  rcases List.mem_cons.mp member with rfl | member
  · decide
  · rcases List.mem_append.mp member with inside | last
    · exact (before line inside).1
    · rw [List.mem_singleton.mp last]
      decide

/-- What is in the new directory. -/
theorem install_pack (tar : Tar) (rootfs : Rootfs) :
    ∃ installed, install tar (pack tar licence name rootfs) [] = some installed ∧
      (∀ path, path ≠ tmpTar → itemAt installed path = itemAt rootfs.members path) ∧
      itemAt installed tmpTar =
        if (itemAt rootfs.members tmpTar).any Item.isFolder then itemAt rootfs.members tmpTar else none := by
  have start (path : List Text) (archive : Text) : itemAt (put [] tmpTar (.leaf (Content.file archive))) path =
      if path = tmpTar then some (.leaf (Content.file archive)) else none := itemAt_put [] tmpTar _ path
  have flat (path : List Text) (archive : Text) :
      itemAt (put [] tmpTar (.leaf (Content.file archive))) path ≠ some .folder := by
    rw [start]
    split <;> exact nofun
  obtain ⟨extracted, run, found⟩ := extract_tree rootfs fun path => flat path (tar.create rootfs.members)
  refine ⟨remove extracted tmpTar, ?_, fun path other => ?_, ?_⟩
  · unfold install
    dsimp only
    rw [deleteThrough_pack, tar.lossless, Option.bind_some, run, Option.map_some]
  · rw [itemAt_remove, if_neg fun both => other both.1, found, start, if_neg other, Option.or_none]
  · rw [itemAt_remove, found, start, if_pos rfl]
    cases itemAt rootfs.members tmpTar with
    | none => rfl
    | some item => cases item <;> rfl

/-- The rootfs is back exactly when it has no file or link `tmp.tar` at its top. -/
theorem roundTrips_iff (tar : Tar) (licence : List Comment) (name : Name) (rootfs : Rootfs) :
    RoundTrips tar licence name rootfs ↔ ∀ content, itemAt rootfs.members tmpTar ≠ some (.leaf content) := by
  obtain ⟨installed, run, elsewhere, here⟩ := install_pack licence name tar rootfs
  constructor
  · rintro ⟨final, run', same⟩ content leaf
    cases run.symm.trans run'
    have gone := same tmpTar
    rw [here, leaf] at gone
    cases gone
  · intro free
    refine ⟨installed, run, fun path => ?_⟩
    by_cases same : path = tmpTar
    · rw [same, here]
      cases there : itemAt rootfs.members tmpTar with
      | none => rfl
      | some item =>
        cases item with
        | folder => rfl
        | leaf content => exact absurd there (free content)
    · exact elsewhere path same

instance encodableChar : Encodable Char := Encodable.ofLeftInverse Char.toNat Char.ofNat Char.ofNat_toNat

/-- The contents in numbers. -/
instance encodableContent : Encodable Content := Encodable.ofLeftInverse
  (fun | .file bytes => Sum.inl bytes | .link target => Sum.inr target)
  (Sum.elim Content.file Content.link) fun content => by cases content <;> rfl

instance encodableItem : Encodable (Item Content) := Encodable.ofLeftInverse
  (fun | .folder => none | .leaf content => some content)
  (fun | none => .folder | some content => .leaf content) fun item => by cases item <;> rfl

/-- An archive that is as long as the number of what it lists. -/
def unary : Tar where
  create members := List.replicate (Encodable.encode members) '1'
  list bytes := Encodable.decode bytes.length
  lossless tree := by rw [List.length_replicate, Encodable.encodek]

def notes : Rootfs where
  members := [(tmpTar, .leaf (.file "notes".toList))]
  distinct := List.nodup_singleton _
  rooted := ⟨List.cons_ne_nil _ _, Or.inl rfl, trivial⟩

/-- The file is lost. -/
theorem notes_lost : ¬ RoundTrips unary [] ⟨"app".toList, by decide⟩ notes := by
  rintro ⟨final, run, same⟩
  obtain ⟨installed, run', -, here⟩ := install_pack [] ⟨"app".toList, by decide⟩ unary notes
  cases run.symm.trans run'
  have there : itemAt notes.members tmpTar = some (.leaf (.file "notes".toList)) := itemAt_cons ..
  have gone := same tmpTar
  rw [here, there] at gone
  cases gone

end CBuild.Soundness.SelfExtracting
