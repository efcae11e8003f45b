import CBuild.Graph.Unfolding
import CBuild.Model.GenBuildChain.Includes
import CBuild.Soundness.ForestOnce

/-! # Every file is parsed once

`add_normal_item` goes into what a file includes without a look at what it has parsed. It ends, with every `mk.deps`
parsed once, exactly when every file that is parsed is named once: by the search, or by one path of one file.
-/

namespace CBuild.Soundness.IncludedOnce

open CBuild.Data CBuild.Files CBuild.Graph CBuild.Text CBuild.Model.GenBuildChain CBuild.Soundness.ForestOnce

section

variable (source : Source)

/-- The directories with a `mk.deps` that the paths of a statement lead to. -/
def namedBy (place : Place) : DepsLine → List Place
  | .deps .. => []
  | .incdeps paths =>
    (sortOn id paths).filterMap fun path =>
      (source.reach place (realPath source.tree path)).filter fun target => (source.deps target).isSome

/-- Those that the file of a directory includes. -/
def included (place : Place) : List Place := ((source.deps place).getD []).flatMap (namedBy source place)

variable (ignoreDirs goOnDirs : List Text)

/-- The paths that `os.walk` comes to. -/
inductive Visits (root : Text) : Text → Prop
  | root : Visits root root
  | sub {path name : Text} : Visits root path → name ∈ source.tree.dirs path → name ∉ ignoreDirs →
      ¬ ((source.tree.deps path).isSome = true ∧ source.tree.continues path = false ∧ path ∉ goOnDirs) →
      Visits root (joinPath path name)

/-- The search finds the `mk.deps` of the directory from one of its roots. -/
def Finds (rootdir : Text) (place : Place) : Prop :=
  (source.deps place).isSome = true ∧
    ∃ path, Visits source ignoreDirs goOnDirs (rootOf rootdir) path ∧ source.resolve path = some place

variable (searchDirs : List Text)

/-- The files that are parsed: what the search finds, and what these files include. -/
inductive Parsed : Place → Prop
  | found {rootdir : Text} {place : Place} : rootdir ∈ searchDirs → Finds source ignoreDirs goOnDirs rootdir place →
      Parsed place
  | included {place other : Place} : Parsed place → other ∈ included source place → Parsed other

/-- No file is found from two of the roots, none that is found is included, and none is included twice. -/
structure NamedOnce : Prop where
  roots : searchDirs.Pairwise fun first second => ∀ place, Finds source ignoreDirs goOnDirs first place →
    ¬ Finds source ignoreDirs goOnDirs second place
  found : ∀ place, Parsed source ignoreDirs goOnDirs searchDirs place → ∀ other ∈ included source place,
    ∀ rootdir ∈ searchDirs, ¬ Finds source ignoreDirs goOnDirs rootdir other
  paths : ∀ place, Parsed source ignoreDirs goOnDirs searchDirs place → (included source place).Nodup
  files : ∀ first second other, Parsed source ignoreDirs goOnDirs searchDirs first →
    Parsed source ignoreDirs goOnDirs searchDirs second → other ∈ included source first →
    other ∈ included source second → first = second

end

section

variable (tree : Tree) (virtualList : List Node) (uniPackages : List Text)

/-- What the statements of a file itself append to ActualList. -/
def ownItems (pathpair : PathPair) : List Node :=
  ((tree.deps pathpair.path).map fun lines =>
    actualList (fileState tree virtualList uniPackages pathpair lines).calls).getD []

end

/-- The loop over PathList ends, no `mk.deps` is opened twice, and what the statements of each file that is opened
append is in ActualList once. -/
def ParsedOnce (source : Source) (virtualList : List Node) (uniPackages : List Text) (pathList : List PathPair) :
    Prop :=
  ∃ fuel files calls, openedAll source.tree fuel pathList = some files ∧
    addItems source.tree virtualList uniPackages fuel pathList = some calls ∧
    (files.map fun file => source.resolve file.path).Nodup ∧
    (actualList calls).Perm (files.flatMap (ownItems source.tree virtualList uniPackages))

section

variable {tree : Tree} {virtualList : List Node} {uniPackages : List Text} {pathpair : PathPair}

/-- Both end or none does, and ActualList has what the statements of the opened files append. -/
def Agree (tree : Tree) (virtualList : List Node) (uniPackages : List Text) (calls : Option (List Call))
    (files : Option (List PathPair)) : Prop :=
  Option.Rel (fun calls files => (actualList calls).Perm (files.flatMap (ownItems tree virtualList uniPackages)))
    calls files

theorem perm_flatten {calls : List (List Call)} {files : List (List PathPair)}
    (each : List.Forall₂ (fun calls files =>
      (actualList calls).Perm (files.flatMap (ownItems tree virtualList uniPackages))) calls files) :
    (actualList calls.flatten).Perm (files.flatten.flatMap (ownItems tree virtualList uniPackages)) := by
  induction each with
  | nil => exact .refl _
  | cons here _ ih =>
    rw [List.flatten_cons, List.flatten_cons, actualList_append, List.flatMap_append]
    exact here.append ih

/-- The statements of a file, where included files agree. -/
theorem statements_agree {includes : PathPair → Option (List Call)} {opens : PathPair → Option (List PathPair)}
    (related : ∀ pathpair, Agree tree virtualList uniPackages (includes pathpair) (opens pathpair))
    (lines : List DepsLine) (own : FileState) (calls : List Call) (files : List PathPair)
    (before : (actualList calls).Perm
      (actualList own.calls ++ files.flatMap (ownItems tree virtualList uniPackages))) :
    Option.Rel (fun fs more => ∃ calls,
        fs = { lines.foldl (ownStatement tree virtualList uniPackages pathpair) own with calls } ∧
          (actualList calls).Perm
            (actualList (lines.foldl (ownStatement tree virtualList uniPackages pathpair) own).calls ++
              (files ++ more.flatten).flatMap (ownItems tree virtualList uniPackages)))
      (lines.foldlM (addStatement tree virtualList uniPackages pathpair includes) { own with calls })
      ((includedPairs tree pathpair lines).mapM opens) := by
  induction lines generalizing own calls files with
  | nil => exact .some ⟨calls, rfl, by simpa using before⟩
  | cons line lines ih =>
    cases line with
    | deps makestr target targets =>
      obtain ⟨more, same⟩ := @addDeps_calls tree virtualList uniPackages pathpair own makestr target targets
      have ownCalls := congrArg FileState.calls (same own.calls)
      refine (congrArg (Option.Rel _ · _) ?_).mpr (ih
        (addDeps tree virtualList uniPackages pathpair makestr target targets own) (calls ++ more) files ?_)
      · rw [List.foldlM_cons, addStatement, same]
        rfl
      · rw [ownCalls, actualList_append, actualList_append, List.append_assoc]
        refine (before.append_right _).trans ?_
        rw [List.append_assoc]
        exact List.perm_append_comm.append_left _
    | incdeps paths =>
      have pairs : includedPairs tree pathpair (.incdeps paths :: lines) =
          (sortOn id paths).map (includedPair tree pathpair) ++ includedPairs tree pathpair lines := rfl
      rw [List.foldlM_cons, pairs, List.mapM_append, List.mapM_map]
      have each := rel_mapM (fun path => related (includedPair tree pathpair path)) (sortOn id paths)
      have stated : Option.Rel (fun fs opened => ∃ more, fs = { own with calls := calls ++ more } ∧
            (actualList more).Perm (opened.flatten.flatMap (ownItems tree virtualList uniPackages)))
          (addStatement tree virtualList uniPackages pathpair includes { own with calls } (.incdeps paths))
          ((sortOn id paths).mapM (opens ∘ includedPair tree pathpair)) :=
        rel_bind_some each fun more opened here => ⟨more.flatten, rfl, perm_flatten here⟩
      refine rel_bind stated ?_
      rintro fs opened ⟨more, rfl, here⟩
      have after : (actualList (calls ++ more)).Perm (actualList own.calls ++
          (files ++ opened.flatten).flatMap (ownItems tree virtualList uniPackages)) := by
        rw [actualList_append, List.flatMap_append, ← List.append_assoc]
        exact before.append here
      have rest := ih own (calls ++ more) (files ++ opened.flatten) after
      refine (congrArg (Option.Rel _ · _) (Option.bind_fun_some _)).mp (rel_bind rest ?_)
      rintro fs later ⟨calls', same, perm⟩
      refine .some ⟨calls', same, ?_⟩
      rwa [List.flatten_append, ← List.append_assoc]

theorem addDepsFile_agree (fuel : ℕ) (pathpair : PathPair) :
    Agree tree virtualList uniPackages (addDepsFile tree virtualList uniPackages fuel pathpair)
      (openedFiles tree fuel pathpair) := by
  induction fuel generalizing pathpair with
  | zero => exact .none
  | succ fuel ih =>
    rw [Agree, addDepsFile, openedFiles]
    cases found : tree.deps pathpair.path with
    | none => exact .some (.refl _)
    | some lines =>
      refine rel_bind (statements_agree ih lines {} [] [] (.refl _)) ?_
      rintro fs more ⟨calls, rfl, perm⟩
      refine .some ?_
      obtain ⟨flushed, same⟩ := @flushNative_calls virtualList uniPackages
        (lines.foldl (ownStatement tree virtualList uniPackages pathpair) {})
      have own := congrArg FileState.calls
        (same (lines.foldl (ownStatement tree virtualList uniPackages pathpair) {}).calls)
      rw [actualList_flushDict, same, List.flatMap_cons, ownItems, found]
      show (actualList (calls ++ flushed)).Perm (actualList
        (FileState.flushNative virtualList uniPackages
          (lines.foldl (ownStatement tree virtualList uniPackages pathpair) {})).calls ++ _)
      rw [own, actualList_append, actualList_append, List.append_assoc]
      refine (perm.append_right _).trans ?_
      rw [List.append_assoc, List.nil_append]
      exact List.perm_append_comm.append_left _

/-- The loop over PathList and the opened files. -/
theorem addItems_agree (fuel : ℕ) (pathList : List PathPair) :
    Agree tree virtualList uniPackages (addItems tree virtualList uniPackages fuel pathList)
      (openedAll tree fuel pathList) := by
  have each (pathpair : PathPair) : Agree tree virtualList uniPackages
      (addNormalItem tree virtualList uniPackages fuel pathpair)
      (if pathpair.target ≠ [] then some [] else openedFiles tree fuel pathpair) := by
    rw [addNormalItem]
    split
    · refine .some ?_
      cases virtualList.find? (·.target = pathpair.target) with
      | none => exact .refl _
      | some item =>
        have virtual : actualList [addVirtualItem virtualList item] = [] := by
          rw [addVirtualItem]
          split <;> rfl
        exact (List.Perm.of_eq virtual)
    · exact addDepsFile_agree fuel pathpair
  exact rel_bind (rel_mapM each pathList) fun calls files here => .some (perm_flatten here)

end

section

variable {source : Source} {pathpair : PathPair} {path : Text} {place : Place} {lines : List DepsLine} {fuel : ℕ}

/-- The directory of a path, where it has a `mk.deps`. -/
def entry (source : Source) (path : Text) : Option Place :=
  (source.resolve path).filter fun place => (source.deps place).isSome

theorem entry_eq_some : entry source path = some place ↔
    source.resolve path = some place ∧ (source.deps place).isSome = true := by
  rw [entry, Option.filter_eq_some_iff]

theorem deps_of_entry_none (none : entry source path = none) : source.tree.deps path = Option.none := by
  rw [entry, Option.filter_eq_none_iff] at none
  cases found : source.resolve path with
  | none => simp [Source.tree, found]
  | some place => simpa [Source.tree, found] using none place found

theorem included_eq (found : source.resolve pathpair.path = some place) (deps : source.deps place = some lines) :
    included source place = (includedPairs source.tree pathpair lines).filterMap fun other => entry source other.path := by
  rw [included, deps, includedPairs, List.filterMap_flatMap]
  refine List.flatMap_congr fun line _ => ?_
  cases line with
  | deps => rfl
  | incdeps paths =>
    rw [namedBy, List.filterMap_map]
    refine List.filterMap_congr fun path _ => ?_
    rw [Function.comp, entry, includedPair, Disk.resolve_joinPath found]

/-- Files that are opened for entries, where each entry unfolds to its files. -/
theorem unfold_entries {pathpairs : List PathPair} {parts : List (List PathPair)}
    (run : pathpairs.mapM (openedFiles source.tree fuel) = some parts)
    (each : ∀ pathpair place files, openedFiles source.tree fuel pathpair = some files →
      entry source pathpair.path = some place → ∃ list, unfold (included source) fuel place = some list ∧
        files.map (fun file => source.resolve file.path) = list.map some) :
    ∃ lists, (pathpairs.filterMap fun pathpair => entry source pathpair.path).mapM (unfold (included source) fuel) = some lists ∧
      parts.flatten.map (fun file => source.resolve file.path) = lists.flatten.map some := by
  have related := mapM_eq_some_iff.mp run
  clear run
  induction related with
  | nil => exact ⟨[], rfl, rfl⟩
  | @cons pathpair files pathpairs parts here _ ih =>
    obtain ⟨lists, run, same⟩ := ih
    cases found : entry source pathpair.path with
    | none =>
      obtain rfl : files = [] := by
        cases fuel with
        | zero => cases here
        | succ fuel =>
          rw [openedFiles, deps_of_entry_none found] at here
          exact (Option.some.inj here).symm
      exact ⟨lists, by rw [List.filterMap_cons, found]; exact run, same⟩
    | some place =>
      obtain ⟨list, first, sameFirst⟩ := each pathpair place files here found
      refine ⟨list :: lists, ?_, ?_⟩
      · rw [List.filterMap_cons, found]
        simp [first, run]
      · rw [List.flatten_cons, List.flatten_cons, List.map_append, List.map_append, sameFirst, same]

theorem unfold_of_opened {files : List PathPair} (run : openedFiles source.tree fuel pathpair = some files)
    (found : entry source pathpair.path = some place) :
    ∃ list, unfold (included source) fuel place = some list ∧
      files.map (fun file => source.resolve file.path) = list.map some := by
  induction fuel generalizing pathpair place files with
  | zero => cases run
  | succ fuel ih =>
    obtain ⟨resolved, isSome⟩ := entry_eq_some.mp found
    obtain ⟨lines, deps⟩ := Option.isSome_iff_exists.mp isSome
    have there : source.tree.deps pathpair.path = some lines := by simp [Source.tree, resolved, deps]
    rw [openedFiles, there] at run
    obtain ⟨parts, opened, result⟩ := Option.bind_eq_some_iff.mp run
    cases result
    obtain ⟨lists, each, same⟩ := unfold_entries opened fun _ _ _ run found => ih run found
    refine ⟨place :: lists.flatten, ?_, ?_⟩
    · rw [unfold, included_eq resolved deps, each]
      rfl
    · rw [List.map_cons, List.map_cons, same, resolved]

theorem opened_of_unfold {list : List Place} (run : unfold (included source) fuel place = some list)
    (found : entry source pathpair.path = some place) :
    ∃ files, openedFiles source.tree (fuel + 1) pathpair = some files := by
  induction fuel generalizing pathpair place list with
  | zero => cases run
  | succ fuel ih =>
    obtain ⟨resolved, isSome⟩ := entry_eq_some.mp found
    obtain ⟨lines, deps⟩ := Option.isSome_iff_exists.mp isSome
    have there : source.tree.deps pathpair.path = some lines := by simp [Source.tree, resolved, deps]
    obtain ⟨below, each, -⟩ := Option.bind_eq_some_iff.mp run
    have all : ∀ other ∈ includedPairs source.tree pathpair lines,
        ∃ files, openedFiles source.tree (fuel + 1) other = some files := by
      intro other member
      cases inside : entry source other.path with
      | none => exact ⟨[], by rw [openedFiles, deps_of_entry_none inside]⟩
      | some target =>
        have named : target ∈ included source place := by
          rw [included_eq resolved deps]
          exact List.mem_filterMap.mpr ⟨other, member, inside⟩
        obtain ⟨part, -, here⟩ := exists_of_mapM each named
        exact ih here inside
    obtain ⟨parts, opened⟩ := mapM_some all
    exact ⟨pathpair :: parts.flatten, by rw [openedFiles, there]; simp [opened]⟩

/-- The directories of PathList that have a `mk.deps`. -/
def starts (source : Source) (pathList : List PathPair) : List Place :=
  (pathList.filter (·.target = [])).filterMap fun pathpair => entry source pathpair.path

theorem flatten_mapM_cons {α β : Type} (f : α → Option (List β)) (a : α) (list : List α) :
    ((a :: list).mapM f).map List.flatten =
      (f a).bind fun part => ((list.mapM f).map List.flatten).map (part ++ ·) := by
  rw [List.mapM_cons]
  cases f a with
  | none => rfl
  | some part => cases list.mapM f <;> rfl

theorem openedAll_eq (tree : Tree) (pathList : List PathPair) :
    openedAll tree fuel pathList =
      ((pathList.filter (·.target = [])).mapM (openedFiles tree fuel)).map List.flatten := by
  have loop : openedAll tree fuel pathList = (pathList.mapM fun pathpair =>
      if pathpair.target ≠ [] then some [] else openedFiles tree fuel pathpair).map List.flatten :=
    Option.map_eq_bind.symm
  rw [loop]
  clear loop
  induction pathList with
  | nil => rfl
  | cons pathpair pathList ih =>
    rw [flatten_mapM_cons, ih]
    by_cases file : pathpair.target = []
    · rw [List.filter_cons_of_pos (by simpa using file), flatten_mapM_cons, if_neg (not_not.mpr file)]
    · rw [List.filter_cons_of_neg (by simpa using file), if_pos file]
      simp [Function.comp_def]

theorem unfoldAll_of_opened {pathList files : List PathPair} (run : openedAll source.tree fuel pathList = some files) :
    ∃ list, unfoldAll (included source) fuel (starts source pathList) = some list ∧
      files.map (fun file => source.resolve file.path) = list.map some := by
  rw [openedAll_eq] at run
  obtain ⟨parts, opened, rfl⟩ := Option.map_eq_some_iff.mp run
  obtain ⟨lists, each, same⟩ := unfold_entries opened fun _ _ _ run found => unfold_of_opened run found
  exact ⟨lists.flatten, by rw [unfoldAll, starts, each]; rfl, same⟩

/-- Every file is parsed once exactly when the graph of inclusions unfolds without repetition. -/
theorem parsedOnce_iff_unfold {virtualList : List Node} {uniPackages : List Text} {pathList : List PathPair} :
    ParsedOnce source virtualList uniPackages pathList ↔
      ∃ fuel list, unfoldAll (included source) fuel (starts source pathList) = some list ∧ list.Nodup := by
  constructor
  · rintro ⟨fuel, files, -, run, -, nodup, -⟩
    obtain ⟨list, unfolded, same⟩ := unfoldAll_of_opened run
    exact ⟨fuel, list, unfolded, List.Nodup.of_map some (same ▸ nodup)⟩
  · rintro ⟨fuel, list, run, nodup⟩
    obtain ⟨lists, each, -⟩ := Option.bind_eq_some_iff.mp run
    have all : ∀ pathpair ∈ pathList.filter (·.target = []),
        ∃ files, openedFiles source.tree (fuel + 1) pathpair = some files := by
      intro pathpair member
      cases found : entry source pathpair.path with
      | none => exact ⟨[], by rw [openedFiles, deps_of_entry_none found]⟩
      | some place =>
        obtain ⟨part, -, here⟩ := exists_of_mapM each (List.mem_filterMap.mpr ⟨pathpair, member, found⟩)
        exact opened_of_unfold here found
    obtain ⟨parts, opened⟩ := mapM_some all
    have files : openedAll source.tree (fuel + 1) pathList = some parts.flatten := by
      rw [openedAll_eq, opened]
      rfl
    obtain ⟨list', unfolded, same⟩ := unfoldAll_of_opened files
    obtain rfl : list = list' := Option.some.inj ((unfoldAll_mono run (Nat.le_succ fuel)).symm.trans unfolded)
    have agree := @addItems_agree source.tree virtualList uniPackages (fuel + 1) pathList
    rw [Agree, files] at agree
    generalize items : addItems source.tree virtualList uniPackages (fuel + 1) pathList = calls at agree
    obtain ⟨perm⟩ := agree
    exact ⟨fuel + 1, _, _, files, items, same ▸ nodup.map (Option.some_injective _), perm⟩

end

section

variable {source : Source} {ignoreDirs goOnDirs : List Text} {fuel : ℕ} {root path : Text} {place : Place}

theorem Visits.trans {name : Text} (first : name ∈ source.tree.dirs root) (kept : name ∉ ignoreDirs)
    (goesOn : ¬ ((source.tree.deps root).isSome = true ∧ source.tree.continues root = false ∧ root ∉ goOnDirs))
    (visits : Visits source ignoreDirs goOnDirs (joinPath root name) path) :
    Visits source ignoreDirs goOnDirs root path := by
  induction visits with
  | root => exact .sub .root first kept goesOn
  | sub _ member kept goesOn ih => exact .sub ih member kept goesOn

def entered (source : Source) (ignoreDirs goOnDirs : List Text) (path : Text) : List Text :=
  if (source.tree.deps path).isSome ∧ source.tree.continues path = false ∧ path ∉ goOnDirs then []
  else sortOn id ((source.tree.dirs path).diff ignoreDirs)

theorem nodup_dirs : (source.tree.dirs path).Nodup := by
  cases found : source.resolve path with
  | none => simp [Source.tree, found]
  | some place => simpa [Source.tree, found] using Disk.nodup_subdirs

theorem nodup_entered : (entered source ignoreDirs goOnDirs path).Nodup := by
  rw [entered]
  split
  · exact List.nodup_nil
  · exact (sortOn_perm id _).nodup_iff.mpr (nodup_dirs.diff)

theorem mem_entered {name : Text} : name ∈ entered source ignoreDirs goOnDirs path ↔
    name ∈ source.tree.dirs path ∧ name ∉ ignoreDirs ∧
      ¬ ((source.tree.deps path).isSome = true ∧ source.tree.continues path = false ∧ path ∉ goOnDirs) := by
  rw [entered]
  split
  · next stops => simp [stops]
  · next goesOn =>
    rw [(sortOn_perm id _).mem_iff, nodup_dirs.mem_sdiff_iff]
    tauto

theorem walk_succ : walk source.tree ignoreDirs goOnDirs (fuel + 1) root =
    ((entered source ignoreDirs goOnDirs root).mapM fun name =>
      walk source.tree ignoreDirs goOnDirs fuel (joinPath root name)).bind fun below =>
        some (root :: below.flatten) := rfl

theorem root_mem_walk {paths : List Text} (run : walk source.tree ignoreDirs goOnDirs fuel root = some paths) :
    root ∈ paths := by
  cases fuel with
  | zero => cases run
  | succ fuel =>
    rw [walk_succ] at run
    obtain ⟨below, -, result⟩ := Option.bind_eq_some_iff.mp run
    cases result
    exact List.mem_cons_self ..

theorem walk_closed {paths : List Text} (run : walk source.tree ignoreDirs goOnDirs fuel root = some paths)
    (inside : path ∈ paths) {name : Text} (enters : name ∈ entered source ignoreDirs goOnDirs path) :
    joinPath path name ∈ paths := by
  induction fuel generalizing root paths with
  | zero => cases run
  | succ fuel ih =>
    rw [walk_succ] at run
    obtain ⟨below, each, result⟩ := Option.bind_eq_some_iff.mp run
    cases result
    refine List.mem_cons_of_mem _ ?_
    rcases List.mem_cons.mp inside with rfl | inside
    · obtain ⟨part, member, here⟩ := exists_of_mapM each enters
      exact List.mem_flatten.mpr ⟨part, member, root_mem_walk here⟩
    · obtain ⟨part, member, inPart⟩ := List.mem_flatten.mp inside
      obtain ⟨other, -, here⟩ := (mem_of_mapM each).mp member
      exact List.mem_flatten.mpr ⟨part, member, ih here inPart⟩

theorem mem_walk {paths : List Text} (run : walk source.tree ignoreDirs goOnDirs fuel root = some paths) :
    path ∈ paths ↔ Visits source ignoreDirs goOnDirs root path := by
  constructor
  · intro member
    induction fuel generalizing root paths with
    | zero => cases run
    | succ fuel ih =>
      rw [walk_succ] at run
      obtain ⟨below, each, result⟩ := Option.bind_eq_some_iff.mp run
      cases result
      rcases List.mem_cons.mp member with rfl | member
      · exact .root
      · obtain ⟨part, inside, inPart⟩ := List.mem_flatten.mp member
        obtain ⟨name, enters, here⟩ := (mem_of_mapM each).mp inside
        obtain ⟨isDir, kept, goesOn⟩ := mem_entered.mp enters
        exact (ih here inPart).trans isDir kept goesOn
  · intro visits
    induction visits with
    | root => exact root_mem_walk run
    | sub _ member kept goesOn ih => exact walk_closed run ih (mem_entered.mpr ⟨member, kept, goesOn⟩)

/-- The directories that the paths lead to, each once. -/
def LeadsTo (source : Source) (paths : List Text) (places : List Place) : Prop :=
  paths.map source.resolve = places.map some ∧ places.Nodup

/-- The directories below those of different names are different. -/
theorem parts_lead {names : List Text} {parts : List (List Text)} (found : source.resolve root = some place)
    (each : List.Forall₂ (fun name part => ∀ below, source.resolve (joinPath root name) = some below →
      ∃ places, LeadsTo source part places ∧ ∀ other ∈ places, below <+: other) names parts)
    (distinct : names.Nodup) (isDir : ∀ name ∈ names, name ∈ source.subdirs place) :
    ∃ places, LeadsTo source parts.flatten places ∧
      ∀ other ∈ places, ∃ name ∈ names, place ++ [name] <+: other := by
  induction each with
  | nil => exact ⟨[], ⟨rfl, List.nodup_nil⟩, nofun⟩
  | @cons name part names parts here _ ih =>
    obtain ⟨fresh, distinct⟩ := List.nodup_cons.mp distinct
    have there : source.resolve (joinPath root name) = some (place ++ [name]) :=
      (Disk.resolve_joinPath found).trans (Disk.reach_name (isDir name (List.mem_cons_self ..)))
    obtain ⟨first, ⟨sameFirst, distinctFirst⟩, belowFirst⟩ := here _ there
    obtain ⟨rest, ⟨sameRest, distinctRest⟩, belowRest⟩ :=
      ih distinct fun name member => isDir name (List.mem_cons_of_mem _ member)
    have disjoint : first.Disjoint rest := by
      intro other inFirst inRest
      obtain ⟨name', member, prefixed⟩ := belowRest other inRest
      have same := (List.prefix_of_prefix_length_le (belowFirst other inFirst) prefixed (by simp)).eq_of_length (by simp)
      exact fresh (List.head_eq_of_cons_eq (List.append_cancel_left same) ▸ member)
    refine ⟨first ++ rest, ⟨?_, List.nodup_append'.mpr ⟨distinctFirst, distinctRest, disjoint⟩⟩, fun other member => ?_⟩
    · rw [List.flatten_cons, List.map_append, List.map_append, sameFirst, sameRest]
    · rcases List.mem_append.mp member with member | member
      · exact ⟨name, List.mem_cons_self .., belowFirst other member⟩
      · obtain ⟨name', inNames, prefixed⟩ := belowRest other member
        exact ⟨name', List.mem_cons_of_mem _ inNames, prefixed⟩

/-- `os.walk` comes to each directory once. -/
theorem walk_leads {paths : List Text} (run : walk source.tree ignoreDirs goOnDirs fuel root = some paths)
    (found : source.resolve root = some place) :
    ∃ places, LeadsTo source paths places ∧ ∀ other ∈ places, place <+: other := by
  induction fuel generalizing root place paths with
  | zero => cases run
  | succ fuel ih =>
    rw [walk_succ] at run
    obtain ⟨below, each, result⟩ := Option.bind_eq_some_iff.mp run
    cases result
    have isDir : ∀ name ∈ entered source ignoreDirs goOnDirs root, name ∈ source.subdirs place := by
      intro name enters
      simpa [Source.tree, found] using (mem_entered.mp enters).1
    have parts : List.Forall₂ (fun name part => ∀ below, source.resolve (joinPath root name) = some below →
        ∃ places, LeadsTo source part places ∧ ∀ other ∈ places, below <+: other)
        (entered source ignoreDirs goOnDirs root) below :=
      (mapM_eq_some_iff.mp each).imp fun name part here below there => ih here there
    obtain ⟨places, ⟨same, distinct⟩, inside⟩ := parts_lead found parts nodup_entered isDir
    have fresh : place ∉ places := by
      intro again
      obtain ⟨name, -, prefixed⟩ := inside place again
      exact absurd prefixed.length_le (by simp)
    refine ⟨place :: places, ⟨?_, List.nodup_cons.mpr ⟨fresh, distinct⟩⟩, fun other member => ?_⟩
    · rw [List.map_cons, List.map_cons, found, same]
    · rcases List.mem_cons.mp member with rfl | member
      · exact List.prefix_refl _
      · obtain ⟨name, -, prefixed⟩ := inside other member
        exact (List.prefix_append place [name]).trans prefixed

theorem walk_unresolved {paths : List Text} (run : walk source.tree ignoreDirs goOnDirs fuel root = some paths)
    (none : source.resolve root = none) : paths = [root] := by
  cases fuel with
  | zero => cases run
  | succ fuel =>
    have stops : entered source ignoreDirs goOnDirs root = [] := by simp [entered, Source.tree, none, sortOn]
    rw [walk_succ, stops] at run
    exact (Option.some.inj run).symm

/-- The search of a finite tree ends. -/
theorem walk_ends {bound : ℕ} (deep : ∀ place ∈ source.dirs, place.length ≤ bound)
    (found : source.resolve root = some place) (enough : bound < fuel + place.length) :
    ∃ paths, walk source.tree ignoreDirs goOnDirs fuel root = some paths := by
  induction fuel generalizing root place with
  | zero =>
    have short := deep place (Disk.resolve_mem found)
    omega
  | succ fuel ih =>
    have all : ∀ name ∈ entered source ignoreDirs goOnDirs root,
        ∃ paths, walk source.tree ignoreDirs goOnDirs fuel (joinPath root name) = some paths := by
      intro name enters
      have isDir : name ∈ source.subdirs place := by
        simpa [Source.tree, found] using (mem_entered.mp enters).1
      refine ih ((Disk.resolve_joinPath found).trans (Disk.reach_name isDir)) ?_
      rw [List.length_append, List.length_singleton]
      omega
    obtain ⟨below, each⟩ := mapM_some all
    exact ⟨root :: below.flatten, by rw [walk_succ, each]; rfl⟩

/-- The directories with a `mk.deps` that are found from a root. -/
def foundFrom (source : Source) (ignoreDirs goOnDirs : List Text) (fuel : ℕ) (rootdir : Text) : List Place :=
  ((walk source.tree ignoreDirs goOnDirs fuel (rootOf rootdir)).getD []).filterMap (entry source)

theorem mem_foundFrom {paths : List Text} {rootdir : Text}
    (run : walk source.tree ignoreDirs goOnDirs fuel (rootOf rootdir) = some paths) :
    place ∈ foundFrom source ignoreDirs goOnDirs fuel rootdir ↔ Finds source ignoreDirs goOnDirs rootdir place := by
  rw [foundFrom, run, Option.getD_some, List.mem_filterMap]
  constructor
  · rintro ⟨path, member, found⟩
    obtain ⟨resolved, deps⟩ := entry_eq_some.mp found
    exact ⟨deps, path, (mem_walk run).mp member, resolved⟩
  · rintro ⟨deps, path, visits, resolved⟩
    exact ⟨path, (mem_walk run).mpr visits, entry_eq_some.mpr ⟨resolved, deps⟩⟩

theorem nodup_foundFrom {paths : List Text} {rootdir : Text}
    (run : walk source.tree ignoreDirs goOnDirs fuel (rootOf rootdir) = some paths) :
    (foundFrom source ignoreDirs goOnDirs fuel rootdir).Nodup := by
  rw [foundFrom, run, Option.getD_some]
  cases resolved : source.resolve (rootOf rootdir) with
  | none =>
    rw [walk_unresolved run resolved]
    simp [entry, resolved]
  | some place =>
    obtain ⟨places, ⟨same, distinct⟩, -⟩ := walk_leads run resolved
    have filtered : paths.filterMap (entry source) = places.filter fun place => (source.deps place).isSome := by
      have composed : entry source = (Option.filter fun place => (source.deps place).isSome) ∘ source.resolve := rfl
      rw [composed, ← List.filterMap_map, same, List.filterMap_map, ← List.filterMap_eq_filter]
      rfl
    rw [filtered]
    exact distinct.filter _

theorem starts_append (first second : List PathPair) :
    starts source (first ++ second) = starts source first ++ starts source second := by
  rw [starts, List.filter_append, List.filterMap_append, starts, starts]

theorem visitDir_starts {uniPackages : List Text} {rootDir : Text} {found : List Node × List PathPair}
    (success : visitDir source.tree uniPackages rootDir root = some found) :
    starts source found.2 = (entry source root).toList := by
  obtain ⟨items, added, result⟩ := Option.bind_eq_some_iff.mp success
  cases result
  have virtual : starts source (items.map fun item => ⟨item.path, item.spath, item.target⟩) = [] := by
    rw [starts, List.filter_eq_nil_iff.mpr]
    · rfl
    · intro pathpair member
      obtain ⟨item, inside, rfl⟩ := List.mem_map.mp member
      simpa using addVirtualDeps_named added item inside
  have deps : (source.tree.deps root).isSome = (entry source root).isSome := by
    cases found : entry source root with
    | none =>
      rw [deps_of_entry_none found]
      rfl
    | some place =>
      obtain ⟨resolved, isSome⟩ := entry_eq_some.mp found
      simp [Source.tree, resolved, isSome]
  dsimp only
  split
  · next isSome =>
    obtain ⟨place, found⟩ := Option.isSome_iff_exists.mp (deps ▸ isSome)
    rw [starts_append, virtual, found]
    simp [starts, found]
  · next isNone =>
    have none : entry source root = none := by simpa [deps] using isNone
    rw [virtual, none]
    rfl

theorem visited_starts {uniPackages : List Text} {rootDir : Text} {paths : List Text}
    {visited : List (List Node × List PathPair)}
    (visits : paths.mapM (visitDir source.tree uniPackages rootDir) = some visited) :
    starts source (visited.flatMap Prod.snd) = paths.filterMap (entry source) := by
  have related := mapM_eq_some_iff.mp visits
  clear visits
  induction related with
  | nil => rfl
  | @cons path found paths visited here _ ih =>
    rw [List.flatMap_cons, starts_append, visitDir_starts here, ih, List.filterMap_cons]
    cases entry source path <;> rfl

/-- The files of PathList are those that are found from the roots, in order. -/
theorem starts_eq {uniPackages searchDirs : List Text} {virtualList : List Node} {pathList : List PathPair}
    (searched : searchNormalDepends source.tree uniPackages searchDirs ignoreDirs goOnDirs fuel =
      some (virtualList, pathList)) :
    (∀ rootdir ∈ searchDirs, ∃ paths, walk source.tree ignoreDirs goOnDirs fuel (rootOf rootdir) = some paths) ∧
      starts source pathList = searchDirs.flatMap (foundFrom source ignoreDirs goOnDirs fuel) := by
  simp only [searchNormalDepends, bind, Option.bind_eq_some_iff] at searched
  obtain ⟨found, each, result⟩ := searched
  cases result
  have related : List.Forall₂ (fun rootdir visited =>
      starts source (visited.flatMap Prod.snd) = foundFrom source ignoreDirs goOnDirs fuel rootdir) searchDirs found := by
    refine (mapM_eq_some_iff.mp each).imp fun rootdir visited here => ?_
    obtain ⟨paths, run, visits⟩ := Option.bind_eq_some_iff.mp here
    rw [visited_starts visits]
    exact congrArg (·.filterMap (entry source)) (congrArg (Option.getD · []) run).symm
  constructor
  · intro rootdir member
    obtain ⟨visited, -, here⟩ := exists_of_mapM each member
    obtain ⟨paths, run, -⟩ := Option.bind_eq_some_iff.mp here
    exact ⟨paths, run⟩
  · clear each
    induction related with
    | nil => rfl
    | cons here _ ih => rw [List.flatten_cons, List.flatMap_append, starts_append, ih, here, List.flatMap_cons]

theorem parsed_mem {searchDirs : List Text} (parsed : Parsed source ignoreDirs goOnDirs searchDirs place) :
    place ∈ source.dirs := by
  induction parsed with
  | found _ finds =>
    obtain ⟨-, path, -, resolved⟩ := finds
    exact Disk.resolve_mem resolved
  | included _ member ih =>
    obtain ⟨line, -, named⟩ := List.mem_flatMap.mp member
    cases line with
    | deps => cases named
    | incdeps paths =>
      obtain ⟨path, -, reached⟩ := List.mem_filterMap.mp named
      exact Disk.reach_mem ih (Option.filter_eq_some_iff.mp reached).1

end

variable (source : Source) (uniPackages searchDirs ignoreDirs goOnDirs : List Text)

/-- The loop of `do_normal_analysis` ends with every `mk.deps` parsed once exactly when every file that is parsed is
named once. -/
theorem parsedOnce_iff (fuel : ℕ) (virtualList : List Node) (pathList : List PathPair)
    (searched : searchNormalDepends source.tree uniPackages searchDirs ignoreDirs goOnDirs fuel =
      some (virtualList, pathList)) :
    ParsedOnce source virtualList uniPackages pathList ↔ NamedOnce source ignoreDirs goOnDirs searchDirs := by
  obtain ⟨walks, same⟩ := starts_eq searched
  have start (place : Place) : place ∈ starts source pathList ↔
      ∃ rootdir ∈ searchDirs, Finds source ignoreDirs goOnDirs rootdir place := by
    rw [same, List.mem_flatMap]
    refine exists_congr fun rootdir => and_congr_right fun member => ?_
    obtain ⟨paths, run⟩ := walks rootdir member
    exact mem_foundFrom run
  have reached (place : Place) : Reached (included source) (starts source pathList) place ↔
      Parsed source ignoreDirs goOnDirs searchDirs place := by
    constructor
    · rintro ⟨first, inside, path⟩
      induction path with
      | refl =>
        obtain ⟨rootdir, member, finds⟩ := (start first).mp inside
        exact .found member finds
      | tail _ step ih => exact .included ih step
    · intro parsed
      induction parsed with
      | found member finds => exact .of_start ((start _).mpr ⟨_, member, finds⟩)
      | included _ member ih => exact ih.step member
  have roots : (starts source pathList).Nodup ↔
      searchDirs.Pairwise fun first second => ∀ place, Finds source ignoreDirs goOnDirs first place →
        ¬ Finds source ignoreDirs goOnDirs second place := by
    rw [same, List.nodup_flatMap, and_iff_right fun rootdir member => ?_]
    · refine List.Pairwise.iff_of_mem fun {first second} inFirst inSecond => ?_
      obtain ⟨paths, runFirst⟩ := walks first inFirst
      obtain ⟨paths', runSecond⟩ := walks second inSecond
      refine forall_congr' fun place => ?_
      rw [mem_foundFrom runFirst, mem_foundFrom runSecond]
    · obtain ⟨paths, run⟩ := walks rootdir member
      exact nodup_foundFrom run
  rw [parsedOnce_iff_unfold, unfoldAll_nodup_iff fun place inside => parsed_mem ((reached place).mp inside)]
  constructor
  · intro forest
    refine ⟨roots.mp forest.distinct, fun place parsed other member rootdir inside finds => ?_, fun place parsed => ?_,
      fun first second other parsed parsed' => ?_⟩
    · exact forest.roots place ((reached place).mpr parsed) other member ((start other).mpr ⟨rootdir, inside, finds⟩)
    · exact forest.successors place ((reached place).mpr parsed)
    · exact forest.parent first second other ((reached first).mpr parsed) ((reached second).mpr parsed')
  · intro named
    refine ⟨roots.mpr named.roots, fun place inside other member again => ?_, fun place inside => ?_,
      fun first second other inside inside' => ?_⟩
    · obtain ⟨rootdir, isRoot, finds⟩ := (start other).mp again
      exact named.found place ((reached place).mp inside) other member rootdir isRoot finds
    · exact named.paths place ((reached place).mp inside)
    · exact named.files first second other ((reached first).mp inside) ((reached second).mp inside')

def twoDirs (topLines subLines : List DepsLine) (continues : Bool) : Source where
  dirs := [[], ["top".toList], ["top".toList, "sub".toList]]
  distinct := by decide
  valid := by
    have top : ValidName "top".toList := ⟨by decide, by decide, by decide, by decide⟩
    have sub : ValidName "sub".toList := ⟨by decide, by decide, by decide, by decide⟩
    simpa using ⟨top, sub⟩
  closed := by decide
  link _ _ := none
  linked := nofun
  cwd := []
  here := by decide
  vdeps _ := none
  deps place :=
    if place = ["top".toList] then some topLines
    else if place = ["top".toList, "sub".toList] then some subLines
    else none
  continues place := continues && place = ["top".toList]
  replaceEnv := id

def zlib : DepsLine := .deps [] "zlib".toList []

def incdeps (path : String) : DepsLine := .incdeps [path.toList]

def topPair : PathPair := ⟨"top".toList, "top".toList, []⟩

def subPair : PathPair := ⟨"top/sub".toList, "top/sub".toList, []⟩

/-- The search stops at `top`, which includes `sub`. -/
theorem included_named : NamedOnce (twoDirs [incdeps "sub"] [zlib] false) [] [] ["top".toList] := by
  refine (parsedOnce_iff (twoDirs [incdeps "sub"] [zlib] false) [] ["top".toList] [] [] 2 [] [topPair] rfl).mp ?_
  exact ⟨3, [topPair, subPair], _, rfl, rfl, by decide, .refl _⟩

def foundSub : PathPair := ⟨"top/sub".toList, "sub".toList, []⟩

/-- With a file `continue` in `top` the search goes on into `sub`, whose package is in ActualList twice. -/
theorem continued_twice :
    searchNormalDepends (twoDirs [incdeps "sub"] [zlib] true).tree [] ["top".toList] [] [] 2 =
        some ([], [topPair, foundSub]) ∧
      (∃ calls, addItems (twoDirs [incdeps "sub"] [zlib] true).tree [] [] 3 [topPair, foundSub] = some calls ∧
        (actualList calls).map (·.target) = ["zlib".toList, "zlib".toList]) ∧
      ¬ ParsedOnce (twoDirs [incdeps "sub"] [zlib] true) [] [] [topPair, foundSub] := by
  refine ⟨rfl, ⟨_, rfl, rfl⟩, fun parsed => ?_⟩
  obtain ⟨fuel, list, run, nodup⟩ := parsedOnce_iff_unfold.mp parsed
  have forest := forest_of_nodup (unfoldAll_perm run) nodup
  exact forest.roots ["top".toList] (.of_start (by decide)) ["top".toList, "sub".toList] (by decide) (by decide)

/-- A file that includes its own directory is read without end. -/
theorem dot_endless : searchNormalDepends (twoDirs [incdeps "."] [zlib] false).tree [] ["top".toList] [] [] 2 =
      some ([], [topPair]) ∧
    ∀ fuel, addItems (twoDirs [incdeps "."] [zlib] false).tree [] [] fuel [topPair] = none := by
  refine ⟨rfl, fun fuel => ?_⟩
  have agree := @addItems_agree (twoDirs [incdeps "."] [zlib] false).tree [] [] fuel [topPair]
  generalize addItems (twoDirs [incdeps "."] [zlib] false).tree [] [] fuel [topPair] = calls at agree ⊢
  generalize opened : openedAll (twoDirs [incdeps "."] [zlib] false).tree fuel [topPair] = files at agree
  cases agree with
  | none => rfl
  | some =>
    obtain ⟨list, run, -⟩ := unfoldAll_of_opened opened
    obtain ⟨parts, each, -⟩ := Option.bind_eq_some_iff.mp run
    have start : ["top".toList] ∈ starts (twoDirs [incdeps "."] [zlib] false) [topPair] := by decide
    obtain ⟨part, -, here⟩ := exists_of_mapM each start
    rw [unfold_loop (by decide)] at here
    cases here

end CBuild.Soundness.IncludedOnce
