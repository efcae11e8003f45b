import CBuild.Model.GenCpkPackage.Walk
import CBuild.Soundness.SelfContained

/-! # Ignored folders are not packaged

`process_rootfs` takes ignored names out of the list it goes over, so the name after each one is not looked at. The
folders it examines are those without an ignored name in their path exactly when no ignored folder stands at an even
place among ignored names next to each other.
-/

namespace CBuild.Soundness.RootfsFolders

open CBuild.Files CBuild.Model.GenCpkPackage
open SelfContained hiding Folder

variable {ignoreDirs : List Text}

/-- What is left: the name after a removed one stays. -/
def skipping (ignoreDirs : List Text) : List Text → List Text
  | [] => []
  | [name] => if name ∈ ignoreDirs then [] else [name]
  | name :: next :: rest =>
    if name ∈ ignoreDirs then next :: skipping ignoreDirs rest else name :: skipping ignoreDirs (next :: rest)

theorem removeIgnored_end (front : List Text) : removeIgnored ignoreDirs front.length front = front := by
  rw [removeIgnored, dif_neg (Nat.lt_irrefl _)]

/-- One turn of the loop, at the name after those in front. -/
theorem removeIgnored_next {front rest : List Text} {name : Text} (distinct : (front ++ name :: rest).Nodup) :
    removeIgnored ignoreDirs front.length (front ++ name :: rest) =
      if name ∈ ignoreDirs then removeIgnored ignoreDirs (front.length + 1) (front ++ rest)
      else removeIgnored ignoreDirs (front.length + 1) (front ++ name :: rest) := by
  have away : name ∉ front := fun member =>
    (List.nodup_append.mp distinct).2.2 name member name (List.mem_cons_self ..) rfl
  have here : front.length < (front ++ name :: rest).length := by simp
  have found : (front ++ name :: rest)[front.length] = name := by simp
  rw [removeIgnored, dif_pos here, found, List.erase_append_right _ away, List.erase_cons_head]

theorem removeIgnored_eq (front rest : List Text) (distinct : (front ++ rest).Nodup) :
    removeIgnored ignoreDirs front.length (front ++ rest) = front ++ skipping ignoreDirs rest := by
  have grown (name : Text) : (front ++ [name]).length = front.length + 1 := by simp
  induction rest using skipping.induct ignoreDirs generalizing front with
  | case1 => rw [List.append_nil, removeIgnored_end, skipping, List.append_nil]
  | case2 name member =>
    rw [removeIgnored_next distinct, if_pos member, List.append_nil, removeIgnored, dif_neg (by omega), skipping,
      if_pos member, List.append_nil]
  | case3 name other =>
    rw [removeIgnored_next distinct, if_neg other, ← grown name, removeIgnored_end, skipping, if_neg other]
  | case4 name next rest member ih =>
    have fewer : (front ++ [next] ++ rest).Nodup := by
      rw [List.append_assoc, List.singleton_append]
      exact distinct.sublist (List.Sublist.append_left (List.sublist_cons_self ..) front)
    have later := ih (front ++ [next]) fewer fun name => by simp
    rw [grown, List.append_assoc, List.singleton_append] at later
    rw [removeIgnored_next distinct, if_pos member, later, skipping, if_pos member, List.append_assoc,
      List.singleton_append]
  | case5 name next rest other ih =>
    have later := ih (front ++ [name]) (by rwa [List.append_assoc, List.singleton_append]) fun name => by simp
    rw [grown, List.append_assoc, List.singleton_append] at later
    rw [removeIgnored_next distinct, if_neg other, later, skipping, if_neg other, List.append_assoc,
      List.singleton_append]

/-- A name that is at an even place among ignored names next to each other. -/
def Kept (ignoreDirs dirs : List Text) (name : Text) : Prop :=
  ∃ before run after, dirs = before ++ (run ++ name :: after) ∧ (∀ last ∈ before.getLast?, last ∉ ignoreDirs) ∧
    (∀ other ∈ run, other ∈ ignoreDirs) ∧ run.length % 2 = 1

section

variable {dirs : List Text} {first name : Text}

theorem last_cons {before : List Text} {last : Text} (member : last ∈ before.getLast?) : last ∈ (first :: before).getLast? := by
  rw [Option.mem_def] at member ⊢
  rw [List.getLast?_cons, member, Option.getD_some]

/-- The names after one that is not ignored are counted anew. -/
theorem kept_other (other : first ∉ ignoreDirs) : Kept ignoreDirs (first :: dirs) name ↔ Kept ignoreDirs dirs name := by
  constructor
  · rintro ⟨before, run, after, whole, separate, ignored, odd⟩
    cases before with
    | nil =>
      cases run with
      | nil => cases odd
      | cons head run =>
        obtain ⟨rfl, -⟩ := List.cons.inj whole
        exact absurd (ignored first (List.mem_cons_self ..)) other
    | cons head before =>
      obtain ⟨rfl, rfl⟩ := List.cons.inj whole
      exact ⟨before, run, after, rfl, fun last member => separate last (last_cons member), ignored, odd⟩
  · rintro ⟨before, run, after, rfl, separate, ignored, odd⟩
    refine ⟨first :: before, run, after, rfl, fun last member => ?_, ignored, odd⟩
    cases ends : before.getLast? with
    | none =>
      rw [Option.mem_def, List.getLast?_cons, ends] at member
      exact Option.some.inj member ▸ other
    | some end' =>
      rw [Option.mem_def, List.getLast?_cons, ends] at member
      exact separate last (ends.trans member)

/-- After an ignored name the next one is kept, and the count goes on. -/
theorem kept_pair {next : Text} (member : first ∈ ignoreDirs) :
    Kept ignoreDirs (first :: next :: dirs) name ↔ name = next ∨ Kept ignoreDirs dirs name := by
  constructor
  · rintro ⟨before, run, after, whole, separate, ignored, odd⟩
    cases before with
    | nil =>
      cases run with
      | nil => cases odd
      | cons head run =>
        have rest := (List.cons.inj whole).2
        cases run with
        | nil => exact .inl (List.cons.inj rest).1.symm
        | cons head' run =>
          rw [List.length_cons, List.length_cons] at odd
          exact .inr ⟨[], run, after, (List.cons.inj rest).2, nofun,
            fun other inside => ignored other (List.mem_cons_of_mem _ (List.mem_cons_of_mem _ inside)), by omega⟩
    | cons head before =>
      obtain ⟨rfl, rest⟩ := List.cons.inj whole
      cases before with
      | nil => exact absurd member (separate first rfl)
      | cons head' before =>
        exact .inr ⟨before, run, after, (List.cons.inj rest).2, fun last member => separate last (last_cons (last_cons member)),
          ignored, odd⟩
  · rintro (rfl | ⟨before, run, after, rfl, separate, ignored, odd⟩)
    · exact ⟨[], [first], dirs, rfl, nofun, fun other inside => List.mem_singleton.mp inside ▸ member, rfl⟩
    · cases before with
      | nil =>
        by_cases here : next ∈ ignoreDirs
        · refine ⟨[], first :: next :: run, after, rfl, nofun, ?_, by simp only [List.length_cons]; omega⟩
          simpa [member, here] using ignored
        · exact ⟨[first, next], run, after, rfl, fun last inside => Option.some.inj inside ▸ here, ignored, odd⟩
      | cons head before =>
        refine ⟨first :: next :: head :: before, run, after, rfl, fun last inside => separate last ?_, ignored, odd⟩
        simpa using inside

end

theorem mem_skipping {dirs : List Text} {name : Text} (ignored : name ∈ ignoreDirs) :
    name ∈ skipping ignoreDirs dirs ↔ Kept ignoreDirs dirs name := by
  have lonely {dirs : List Text} (short : dirs.length ≤ 1) : ¬ Kept ignoreDirs dirs name := by
    rintro ⟨before, run, after, rfl, -, -, odd⟩
    simp only [List.length_append, List.length_cons] at short
    omega
  induction dirs using skipping.induct ignoreDirs with
  | case1 => exact iff_of_false List.not_mem_nil (lonely (Nat.zero_le _))
  | case2 first member =>
    rw [skipping, if_pos member]
    exact iff_of_false List.not_mem_nil (lonely (Nat.le_refl _))
  | case3 first other =>
    rw [skipping, if_neg other, List.mem_singleton]
    exact iff_of_false (fun same => other (same ▸ ignored)) (lonely (Nat.le_refl _))
  | case4 first next rest member ih =>
    rw [skipping, if_pos member, List.mem_cons, kept_pair member]
    exact or_congr_right ih
  | case5 first next rest other ih =>
    have different : name ≠ first := fun same => other (same ▸ ignored)
    rw [skipping, if_neg other, List.mem_cons, or_iff_right different, kept_other other]
    exact ih

theorem skipping_nil (dirs : List Text) : skipping [] dirs = dirs := by
  induction dirs using skipping.induct [] with
  | case1 => rfl
  | case2 name member => exact absurd member List.not_mem_nil
  | case3 name other => rfl
  | case4 name next rest member ih => exact absurd member List.not_mem_nil
  | case5 name next rest other ih => rw [skipping, if_neg other, ih]

theorem skipping_sublist (dirs : List Text) : (skipping ignoreDirs dirs).Sublist dirs := by
  induction dirs using skipping.induct ignoreDirs with
  | case1 => exact .slnil
  | case2 name member => rw [skipping, if_pos member]; exact List.nil_sublist _
  | case3 name other => rw [skipping, if_neg other]
  | case4 name next rest member ih =>
    rw [skipping, if_pos member]
    exact (ih.cons_cons next).cons name
  | case5 name next rest other ih =>
    rw [skipping, if_neg other]
    exact ih.cons_cons name

theorem mem_skipping_of_not_mem {dirs : List Text} {name : Text} (other : name ∉ ignoreDirs) :
    name ∈ skipping ignoreDirs dirs ↔ name ∈ dirs := by
  induction dirs using skipping.induct ignoreDirs with
  | case1 => rfl
  | case2 first member =>
    rw [skipping, if_pos member, List.mem_singleton]
    exact iff_of_false List.not_mem_nil fun same => other (same ▸ member)
  | case3 first away => rw [skipping, if_neg away]
  | case4 first next rest member ih =>
    have different : name ≠ first := fun same => other (same ▸ member)
    rw [skipping, if_pos member, List.mem_cons, ih, List.mem_cons, List.mem_cons, or_iff_right different]
  | case5 first next rest away ih => rw [skipping, if_neg away, List.mem_cons, ih, ← List.mem_cons]

/-- The path of the folder has no ignored name. -/
def Regular (listing : Listing) (ignoreDirs : List Text) (folder : Folder) : Prop :=
  folder ∈ listing.folders ∧ ∀ name ∈ folder, name ∉ ignoreDirs

/-- In no folder without an ignored name in its path is an ignored folder kept. -/
def Separated (listing : Listing) (ignoreDirs : List Text) : Prop :=
  ∀ folder, Regular listing ignoreDirs folder → ∀ name ∈ ignoreDirs, folder ++ [name] ∈ listing.folders →
    ¬ Kept ignoreDirs (listing.listdirs folder) name

section

variable {listing : Listing} {folder : Folder} {name : Text}

theorem walkDirs_perm : (listing.walkDirs ignoreDirs folder).Perm
    ((skipping ignoreDirs (listing.listdirs folder)).filter fun name => folder ++ [name] ∈ listing.folders) := by
  have pruned : (if listing.listdirs folder ≠ [] ∧ ignoreDirs ≠ [] then removeIgnored ignoreDirs 0 (listing.listdirs folder)
      else listing.listdirs folder) = skipping ignoreDirs (listing.listdirs folder) := by
    split
    · exact removeIgnored_eq [] _ (listing.distinct folder)
    · next nothing =>
      by_cases none : listing.listdirs folder = []
      · rw [none]
        rfl
      · have empty : ignoreDirs = [] := by
          by_contra some
          exact nothing ⟨none, some⟩
        rw [empty, skipping_nil]
  rw [Listing.walkDirs, pruned]
  exact (List.perm_insertionSort _ _).filter _

/-- The names that are left in a folder, ignored ones included. -/
theorem mem_walkDirs : name ∈ listing.walkDirs ignoreDirs folder ↔
    folder ++ [name] ∈ listing.folders ∧ (name ∈ ignoreDirs → Kept ignoreDirs (listing.listdirs folder) name) := by
  rw [walkDirs_perm.mem_iff, List.mem_filter, decide_eq_true_iff, and_comm]
  refine and_congr_right fun inside => ?_
  by_cases ignored : name ∈ ignoreDirs
  · rw [mem_skipping ignored, forall_prop_of_true ignored]
  · rw [mem_skipping_of_not_mem ignored, iff_true_left (listing.listed folder name inside)]
    exact fun absurd => (ignored absurd).elim

theorem nodup_walkDirs (listing : Listing) (folder : Folder) : (listing.walkDirs ignoreDirs folder).Nodup :=
  walkDirs_perm.nodup_iff.mpr (((listing.distinct folder).sublist (skipping_sublist _)).filter _)

theorem chosen_snoc {names : List Text} : Chosen (listing.walkDirs ignoreDirs) [] (names ++ [name]) ↔
    Chosen (listing.walkDirs ignoreDirs) [] names ∧ name ∈ listing.walkDirs ignoreDirs names := by
  rw [chosen_append, List.nil_append, Chosen, Chosen, and_true]

theorem folder_of_chosen (chosen : Chosen (listing.walkDirs ignoreDirs) [] folder) : folder ∈ listing.folders := by
  cases folder using List.reverseRecOn with
  | nil => exact listing.root
  | append_singleton names name => exact (mem_walkDirs.mp (chosen_snoc.mp chosen).2).1

/-- The walk comes to every folder without an ignored name. -/
theorem chosen_of_regular (regular : Regular listing ignoreDirs folder) : Chosen (listing.walkDirs ignoreDirs) [] folder := by
  induction folder using List.reverseRecOn with
  | nil => trivial
  | append_singleton names name ih =>
    obtain ⟨inside, plain⟩ := regular
    refine chosen_snoc.mpr ⟨ih ⟨listing.closed names name inside, fun other member => plain other ?_⟩, ?_⟩
    · exact List.mem_append_left _ member
    · exact mem_walkDirs.mpr ⟨inside, fun ignored => absurd ignored (plain name (by simp))⟩

/-- It comes to others when one of them is kept. -/
theorem regular_iff_separated : (∀ folder, Chosen (listing.walkDirs ignoreDirs) [] folder → Regular listing ignoreDirs folder) ↔
    Separated listing ignoreDirs := by
  constructor
  · intro all folder regular name ignored inside kept
    have chosen := chosen_snoc.mpr ⟨chosen_of_regular regular, mem_walkDirs.mpr ⟨inside, fun _ => kept⟩⟩
    exact (all _ chosen).2 name (by simp) ignored
  · intro separated folder chosen
    induction folder using List.reverseRecOn with
    | nil => exact ⟨listing.root, nofun⟩
    | append_singleton names name ih =>
      obtain ⟨before, here⟩ := chosen_snoc.mp chosen
      obtain ⟨inside, kept⟩ := mem_walkDirs.mp here
      have regular := ih before
      refine ⟨inside, fun other member => ?_⟩
      rcases List.mem_append.mp member with earlier | last
      · exact regular.2 other earlier
      · rw [List.mem_singleton.mp last]
        exact fun ignored => separated names regular name ignored inside (kept ignored)

end

section

variable (rootfs : Rootfs Folder)

/-- A dynamic library, or a link under the name of a library. -/
def isLibrary (folder : Folder) (ifile : Text) : Bool :=
  match rootfs (folder, ifile) with
  | some (.file (.dynamic _ _)) => isLib ifile
  | some (.link _) => isLib ifile
  | _ => false

/-- The interpreter of a file, empty when there is none. -/
def interpreterAt (folder : Folder) (ifile : Text) : Text :=
  match rootfs (folder, ifile) with
  | some (.file (.dynamic interpreter _)) => interpreter.getD []
  | _ => []

theorem scanFile_spec (folder : Folder) (scan : Cpk Folder × List Text) (ifile : Text) :
    (scanFile rootfs folder scan ifile).2 = scan.2 ++ [ifile].filter (isLibrary rootfs folder) ∧
    (scanFile rootfs folder scan ifile).1.existedLibs = scan.1.existedLibs ++ [ifile].filter (isLibrary rootfs folder) ∧
    (scanFile rootfs folder scan ifile).1.processLibs = scan.1.processLibs ∧
    (scanFile rootfs folder scan ifile).1.pathes = scan.1.pathes ∧
    (scanFile rootfs folder scan ifile).1.ldso =
      if scan.1.ldso = [] then interpreterAt rootfs folder ifile else scan.1.ldso := by
  cases found : rootfs (folder, ifile) with
  | none => simp [scanFile, isLibrary, interpreterAt, found]
  | some node =>
    cases node with
    | link target => cases named : isLib ifile <;> simp [scanFile, isLibrary, interpreterAt, found, named]
    | file elf =>
      cases elf with
      | static => simp [scanFile, isLibrary, interpreterAt, found]
      | dynamic interpreter needed => cases named : isLib ifile <;> simp [scanFile, isLibrary, interpreterAt, found, named]

/-- The first name that is not empty. -/
def firstName (names : List Text) : Text := (names.find? (· ≠ [])).getD []

theorem firstName_cons (name : Text) (names : List Text) :
    firstName (name :: names) = if name = [] then firstName names else name := by
  unfold firstName
  rw [List.find?_cons]
  by_cases empty : name = [] <;> simp [empty]

theorem firstName_mem {names : List Text} (some : firstName names ≠ []) : firstName names ∈ names := by
  unfold firstName at some ⊢
  cases found : names.find? (· ≠ []) with
  | none => rw [found] at some; exact absurd rfl some
  | some name => exact List.mem_of_find?_eq_some found

theorem firstName_singleton (name : Text) : firstName [name] = name := by
  rw [firstName_cons]
  split
  · next empty => exact empty.symm
  · rfl

theorem firstName_append (name : Text) (first second : List Text) :
    firstName (name :: (first ++ second)) = firstName (firstName (name :: first) :: second) := by
  induction first generalizing name with
  | nil => rw [List.nil_append, firstName_singleton]
  | cons next first ih =>
    rw [List.cons_append, firstName_cons, firstName_cons name]
    by_cases empty : name = []
    · rw [if_pos empty, if_pos empty, ih]
    · rw [if_neg empty, if_neg empty, firstName_cons, if_neg empty]

theorem scanFiles_spec (folder : Folder) (scan : Cpk Folder × List Text) (files : List Text) :
    (files.foldl (scanFile rootfs folder) scan).2 = scan.2 ++ files.filter (isLibrary rootfs folder) ∧
    (files.foldl (scanFile rootfs folder) scan).1.existedLibs =
      scan.1.existedLibs ++ files.filter (isLibrary rootfs folder) ∧
    (files.foldl (scanFile rootfs folder) scan).1.processLibs = scan.1.processLibs ∧
    (files.foldl (scanFile rootfs folder) scan).1.pathes = scan.1.pathes ∧
    (files.foldl (scanFile rootfs folder) scan).1.ldso =
      firstName (scan.1.ldso :: files.map (interpreterAt rootfs folder)) := by
  induction files generalizing scan with
  | nil => simp [firstName_singleton]
  | cons file files ih =>
    obtain ⟨libs, existed, process, pathes, ldso⟩ := scanFile_spec rootfs folder scan file
    obtain ⟨libs', existed', process', pathes', ldso'⟩ := ih (scanFile rootfs folder scan file)
    have split : (file :: files).filter (isLibrary rootfs folder) =
        [file].filter (isLibrary rootfs folder) ++ files.filter (isLibrary rootfs folder) := List.filter_append [file] files
    rw [List.foldl_cons]
    refine ⟨?_, ?_, process'.trans process, pathes'.trans pathes, ?_⟩
    · rw [libs', libs, split, List.append_assoc]
    · rw [existed', existed, split, List.append_assoc]
    · rw [ldso', ldso, List.map_cons, firstName_cons, firstName_cons, firstName_cons]
      by_cases empty : scan.1.ldso = [] <;> simp [empty]

theorem scanDirs_spec (cpk : Cpk Folder) (folders : List (Folder × List Text)) :
    (folders.foldl (scanDir rootfs) cpk).processLibs = cpk.processLibs ++ fileItems (isLibrary rootfs) folders ∧
    (folders.foldl (scanDir rootfs) cpk).pathes =
      cpk.pathes ++ (fileItems (isLibrary rootfs) folders).map Prod.fst ∧
    (folders.foldl (scanDir rootfs) cpk).existedLibs =
      cpk.existedLibs ++ folders.flatMap (fun folder => folder.2.filter (isLibrary rootfs folder.1)) ∧
    (folders.foldl (scanDir rootfs) cpk).ldso =
      firstName (cpk.ldso :: folders.flatMap fun folder => folder.2.map (interpreterAt rootfs folder.1)) := by
  induction folders generalizing cpk with
  | nil => simp [fileItems, firstName_singleton]
  | cons folder folders ih =>
    obtain ⟨libs, existed, process, pathes, ldso⟩ := scanFiles_spec rootfs folder.1 (cpk, []) folder.2
    obtain ⟨libs', pathes', existed', ldso'⟩ := ih (scanDir rootfs cpk folder)
    rw [List.nil_append] at libs
    have split : fileItems (isLibrary rootfs) (folder :: folders) =
        fileItems (isLibrary rootfs) [folder] ++ fileItems (isLibrary rootfs) folders := by
      rw [fileItems, List.map_cons, ← List.singleton_append, List.filter_append]
      rfl
    have one : (scanDir rootfs cpk folder).processLibs = cpk.processLibs ++ fileItems (isLibrary rootfs) [folder] ∧
        (scanDir rootfs cpk folder).pathes = cpk.pathes ++ (fileItems (isLibrary rootfs) [folder]).map Prod.fst ∧
        (scanDir rootfs cpk folder).existedLibs = cpk.existedLibs ++ folder.2.filter (isLibrary rootfs folder.1) ∧
        (scanDir rootfs cpk folder).ldso = firstName (cpk.ldso :: folder.2.map (interpreterAt rootfs folder.1)) := by
      unfold scanDir
      dsimp only
      rw [libs]
      by_cases none : folder.2.filter (isLibrary rootfs folder.1) = []
      · simp [fileItems, none, process, pathes, existed, ldso]
      · simp [fileItems, none, process, pathes, existed, ldso]
    obtain ⟨libs'', pathes'', existed'', ldso''⟩ := one
    rw [List.foldl_cons]
    refine ⟨?_, ?_, ?_, ?_⟩
    · rw [libs', libs'', split, List.append_assoc]
    · rw [pathes', pathes'', split, List.map_append, List.append_assoc]
    · rw [existed', existed'', List.flatMap_cons, List.append_assoc]
    · rw [ldso', ldso'', List.flatMap_cons, firstName_append]

theorem processRootfs_spec (folders : List (Folder × List Text)) :
    (processRootfs rootfs syslibDir folders {}).processLibs = fileItems (isLibrary rootfs) folders ∧
    (∀ folder, folder ∈ (processRootfs rootfs syslibDir folders {}).pathes ↔
      folder = syslibDir ∨ ∃ item ∈ fileItems (isLibrary rootfs) folders, item.1 = folder) ∧
    (processRootfs rootfs syslibDir folders {}).ldso =
      firstName (folders.flatMap fun folder => folder.2.map (interpreterAt rootfs folder.1)) ∧
    (∀ name, name ∈ (processRootfs rootfs syslibDir folders {}).wantedLibs ↔
      ((∃ folder ∈ folders, ∃ ifile ∈ folder.2, name ∈ neededAt rootfs (folder.1, ifile)) ∨
        name = (processRootfs rootfs syslibDir folders {}).ldso ∧ name ≠ []) ∧
      ¬ ∃ folder ∈ folders, name ∈ folder.2 ∧ isLibrary rootfs folder.1 name = true) := by
  obtain ⟨libs, pathes, existed, ldso⟩ := scanDirs_spec rootfs {} folders
  refine ⟨libs, fun folder => ?_, ?_, fun name => ?_⟩
  · rw [List.nil_append] at pathes
    simp only [processRootfs]
    split
    · next there =>
      rw [pathes] at there ⊢
      rw [List.mem_map]
      refine ⟨.inr, fun either => either.elim (fun same => ?_) id⟩
      exact same ▸ List.mem_map.mp there
    · rw [pathes, List.mem_append, List.mem_singleton, List.mem_map, or_comm]
  · rw [firstName_cons, if_pos rfl] at ldso
    exact ldso
  · have known : name ∈ (folders.foldl (scanDir rootfs) {}).existedLibs ↔
        ∃ folder ∈ folders, name ∈ folder.2 ∧ isLibrary rootfs folder.1 name = true := by
      rw [existed, List.nil_append, List.mem_flatMap]
      simp only [List.mem_filter]
    have needed : name ∈ (folders.foldl (scanDir rootfs) {}).wantedLibs ↔
        ∃ folder ∈ folders, ∃ ifile ∈ folder.2, name ∈ neededAt rootfs (folder.1, ifile) :=
      mem_scanDirs.trans (or_iff_right List.not_mem_nil)
    simp only [processRootfs, List.mem_filter, decide_eq_true_eq, known]
    refine and_congr_left fun _ => ?_
    split
    · next some =>
      rw [mem_addNew, needed]
      exact or_congr_right (iff_self_and.mpr fun same => same ▸ some)
    · next empty =>
      rw [needed, or_iff_left]
      rintro ⟨rfl, some⟩
      exact empty some

omit rootfs in
theorem mem_fileItems {test : Folder → Text → Bool} {folders : List (Folder × List Text)} {item : Folder × List Text} :
    item ∈ fileItems test folders ↔
      ∃ files, (item.1, files) ∈ folders ∧ item.2 = files.filter (test item.1) ∧ item.2 ≠ [] := by
  rw [fileItems, List.mem_filter, List.mem_map, decide_eq_true_iff]
  constructor
  · rintro ⟨⟨folder, member, rfl⟩, some⟩
    exact ⟨folder.2, member, rfl, some⟩
  · rintro ⟨files, member, same, some⟩
    exact ⟨⟨(item.1, files), member, Prod.ext rfl same.symm⟩, some⟩

end

/-- The files of a folder are examined when it has no ignored name in its path, and the results are those of exactly
these files. -/
structure Packaged (listing : Listing) (rootfs : Rootfs Folder) (ignoreDirs : List Text) (result : Processed) : Prop where
  once : result.folders.Nodup
  folders : ∀ folder, folder ∈ result.folders ↔ Regular listing ignoreDirs folder
  libs : ∀ item, item ∈ result.cpk.processLibs ↔ Regular listing ignoreDirs item.1 ∧
    item.2 = (listing.listfiles item.1).filter (isLibrary rootfs item.1) ∧ item.2 ≠ []
  pathes : ∀ folder, folder ∈ result.cpk.pathes ↔ folder = syslibDir ∨ Regular listing ignoreDirs folder ∧
    ∃ ifile ∈ listing.listfiles folder, isLibrary rootfs folder ifile = true
  ldso : ∀ item, item ∈ result.processLdso ↔ item = (syslibDir, []) ∨ Regular listing ignoreDirs item.1 ∧
    item.2 = (listing.listfiles item.1).filter (hasInterpreter rootfs item.1) ∧ item.2 ≠ []
  rpath : ∀ item, item ∈ result.processRpath ↔ item = (syslibDir, []) ∨ Regular listing ignoreDirs item.1 ∧
    item.2 = (listing.listfiles item.1).filter (hasNeeded rootfs item.1) ∧ item.2 ≠ []
  interpreter : result.cpk.ldso ≠ [] → ∃ folder, Regular listing ignoreDirs folder ∧
    ∃ ifile ∈ listing.listfiles folder, interpreterAt rootfs folder ifile = result.cpk.ldso
  wanted : ∀ name, name ∈ result.cpk.wantedLibs ↔
    ((∃ folder, Regular listing ignoreDirs folder ∧
        ∃ ifile ∈ listing.listfiles folder, name ∈ neededAt rootfs (folder, ifile)) ∨
      name = result.cpk.ldso ∧ name ≠ []) ∧
    ¬ ∃ folder, Regular listing ignoreDirs folder ∧ name ∈ listing.listfiles folder ∧ isLibrary rootfs folder name = true

section

variable {listing : Listing} {rootfs : Rootfs Folder} {result : Processed} {fuel : ℕ}

theorem allPathes_eq {roots : List Folder} (distinct : roots.Nodup) : allPathes roots = roots := by
  have grow (before after : List Folder) (distinct : (before ++ after).Nodup) :
      after.foldl (fun all root => if root ∈ all then all else all ++ [root]) before = before ++ after := by
    induction after generalizing before with
    | nil => rw [List.append_nil]; rfl
    | cons root after ih =>
      have new : root ∉ before := fun member =>
        (List.nodup_append.mp distinct).2.2 root member root (List.mem_cons_self ..) rfl
      rw [List.foldl_cons, if_neg new, ih, List.append_assoc, List.singleton_append]
      rwa [List.append_assoc]
  exact grow [] roots distinct

/-- The walk comes to the folders that the names left lead to, each once. -/
theorem folders_spec (run : processRootfsDirs listing rootfs ignoreDirs fuel = some result) :
    result.folders.Nodup ∧ (∀ folder, folder ∈ result.folders ↔ Chosen (listing.walkDirs ignoreDirs) [] folder) ∧
      result.cpk = processRootfs rootfs syslibDir (result.folders.map fun root => (root, listing.listfiles root)) {} ∧
      result.processLdso = fileItems (hasInterpreter rootfs)
        (result.folders.map fun root => (root, listing.listfiles root)) ++ [(syslibDir, [])] ∧
      result.processRpath = fileItems (hasNeeded rootfs)
        (result.folders.map fun root => (root, listing.listfiles root)) ++ [(syslibDir, [])] := by
  obtain ⟨roots, walked, same⟩ := Option.bind_eq_some_iff.mp run
  have distinct := nodup_walk (nodup_walkDirs listing) walked
  obtain rfl := Option.some.inj same
  refine ⟨?_, fun folder => ?_, rfl, rfl, rfl⟩
  · exact (allPathes_eq distinct).symm ▸ distinct
  · show folder ∈ allPathes roots ↔ _
    rw [allPathes_eq distinct, mem_walk walked]
    constructor
    · rintro ⟨names, rfl, chosen⟩
      exact chosen
    · exact fun chosen => ⟨folder, rfl, chosen⟩

theorem mem_items {test : Folder → Text → Bool} {folders : List Folder} {item : Folder × List Text} :
    item ∈ fileItems test (folders.map fun root => (root, listing.listfiles root)) ↔ item.1 ∈ folders ∧
      item.2 = (listing.listfiles item.1).filter (test item.1) ∧ item.2 ≠ [] := by
  rw [mem_fileItems]
  constructor
  · rintro ⟨files, member, same, some⟩
    obtain ⟨root, inside, equal⟩ := List.mem_map.mp member
    obtain ⟨rfl, rfl⟩ := Prod.mk.inj equal
    exact ⟨inside, same, some⟩
  · rintro ⟨inside, same, some⟩
    exact ⟨_, List.mem_map_of_mem inside, same, some⟩

theorem packaged_iff (run : processRootfsDirs listing rootfs ignoreDirs fuel = some result) :
    Packaged listing rootfs ignoreDirs result ↔ Separated listing ignoreDirs := by
  obtain ⟨once, members, cpk, ldso, rpath⟩ := folders_spec run
  rw [← regular_iff_separated]
  constructor
  · exact fun packaged folder chosen => (packaged.folders folder).mp ((members folder).mpr chosen)
  · intro regular
    have folders (folder : Folder) : folder ∈ result.folders ↔ Regular listing ignoreDirs folder :=
      (members folder).trans ⟨regular folder, chosen_of_regular⟩
    obtain ⟨libs, pathes, interpreter, wanted⟩ :=
      processRootfs_spec rootfs (result.folders.map fun root => (root, listing.listfiles root))
    rw [← cpk] at libs pathes interpreter wanted
    refine ⟨once, folders, fun item => ?_, fun folder => ?_, fun item => ?_, fun item => ?_, fun some => ?_, fun name => ?_⟩
    · rw [libs, mem_items, folders]
    · rw [pathes]
      refine or_congr_right ⟨?_, ?_⟩
      · rintro ⟨item, member, rfl⟩
        obtain ⟨inside, same, some⟩ := mem_items.mp member
        obtain ⟨ifile, here⟩ := List.exists_mem_of_ne_nil _ (same ▸ some)
        exact ⟨(folders _).mp inside, ifile, List.mem_filter.mp here⟩
      · rintro ⟨inside, ifile, member, library⟩
        have some : (listing.listfiles folder).filter (isLibrary rootfs folder) ≠ [] :=
          List.ne_nil_of_mem (List.mem_filter.mpr ⟨member, library⟩)
        exact ⟨(folder, _), mem_items.mpr ⟨(folders _).mpr inside, rfl, some⟩, rfl⟩
    · rw [ldso, List.mem_append, List.mem_singleton, or_comm, mem_items, folders]
    · rw [rpath, List.mem_append, List.mem_singleton, or_comm, mem_items, folders]
    · have member := firstName_mem (interpreter ▸ some)
      obtain ⟨folder, inside, here⟩ := List.mem_flatMap.mp member
      obtain ⟨root, examined, rfl⟩ := List.mem_map.mp inside
      obtain ⟨ifile, listed, same⟩ := List.mem_map.mp here
      exact ⟨root, (folders root).mp examined, ifile, listed, same.trans interpreter.symm⟩
    · rw [wanted]
      simp only [List.mem_map, exists_exists_and_eq_and, folders]

/-- The walk of a finite rootfs ends. -/
theorem processRootfsDirs_ends (listing : Listing) (rootfs : Rootfs Folder) (ignoreDirs : List Text) :
    ∃ enough, ∀ fuel, enough ≤ fuel → ∃ result, processRootfsDirs listing rootfs ignoreDirs fuel = some result := by
  refine ⟨(listing.folders.map List.length).sum + 1, fun fuel enough => ?_⟩
  have deep (names : List Text) (chosen : Chosen (listing.walkDirs ignoreDirs) [] names) :
      names.length < (listing.folders.map List.length).sum + 1 :=
    Nat.lt_succ_of_le (List.le_sum_of_mem (List.mem_map_of_mem (folder_of_chosen chosen)))
  obtain ⟨roots, walked⟩ := walk_ends deep enough
  exact ⟨_, by rw [processRootfsDirs, walked]; rfl⟩

/-- `process_rootfs` examines the folders without an ignored name in their path, each once, and nothing else, exactly
when no ignored folder in them is at an even place among ignored names next to each other. -/
theorem ignored_left_out_iff (listing : Listing) (rootfs : Rootfs Folder) (ignoreDirs : List Text) :
    ∃ enough, ∀ fuel, enough ≤ fuel → ∃ result, processRootfsDirs listing rootfs ignoreDirs fuel = some result ∧
      (Packaged listing rootfs ignoreDirs result ↔ Separated listing ignoreDirs) := by
  obtain ⟨enough, ends⟩ := processRootfsDirs_ends listing rootfs ignoreDirs
  refine ⟨enough, fun fuel more => ?_⟩
  obtain ⟨result, run⟩ := ends fuel more
  exact ⟨result, run, packaged_iff run⟩

end

private theorem shareEtc_cases {folder : Folder} {name : Text}
    (member : folder ++ [name] ∈ [[], ["share".toList], ["etc".toList]]) :
    folder = [] ∧ name ∈ ["share".toList, "etc".toList] := by
  rcases folder with _ | ⟨first, folder⟩
  · simpa using member
  · simp at member

private def shareEtc : Listing where
  folders := [[], ["share".toList], ["etc".toList]]
  root := List.mem_cons_self ..
  closed folder name member := (shareEtc_cases member).1 ▸ List.mem_cons_self ..
  listdirs folder := if folder = [] then ["share".toList, "etc".toList] else []
  distinct folder := by split <;> decide
  listed folder name member := by
    obtain ⟨rfl, listed⟩ := shareEtc_cases member
    exact listed
  listfiles _ := []

/-- The second one is examined. -/
theorem etc_examined : ∃ result,
    processRootfsDirs shareEtc (fun _ => none) ["share".toList, "etc".toList] 2 = some result ∧
      ["etc".toList] ∈ result.folders ∧
      ¬ Packaged shareEtc (fun _ => none) ["share".toList, "etc".toList] result := by
  have deep (names : List Text)
      (chosen : Chosen (shareEtc.walkDirs ["share".toList, "etc".toList]) [] names) : names.length < 2 := by
    have short : ∀ folder ∈ shareEtc.folders, folder.length < 2 := by decide
    exact short names (folder_of_chosen chosen)
  obtain ⟨roots, walked⟩ := walk_ends deep (Nat.le_refl 2)
  have run : ∃ result, processRootfsDirs shareEtc (fun _ => none) ["share".toList, "etc".toList] 2 = some result :=
    ⟨_, by rw [processRootfsDirs, walked]; rfl⟩
  obtain ⟨result, run⟩ := run
  have kept : Kept ["share".toList, "etc".toList] (shareEtc.listdirs []) "etc".toList :=
    ⟨[], ["share".toList], [], rfl, nofun, by decide, rfl⟩
  have inside : ["etc".toList] ∈ shareEtc.folders := by decide
  have examined : ["etc".toList] ∈ result.folders :=
    ((folders_spec run).2.1 _).mpr ⟨mem_walkDirs.mpr ⟨inside, fun _ => kept⟩, trivial⟩
  exact ⟨result, run, examined, fun packaged => ((packaged.folders _).mp examined).2 _ (List.mem_singleton_self _) (by decide)⟩

end CBuild.Soundness.RootfsFolders
