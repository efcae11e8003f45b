import CBuild.Model.GenCpkPackage

/-! # Self-contained packages

A name counts as settled once a library of that name has been seen anywhere. The package is self-contained as
long as every name that rootfs provides leads to a file in the directories of RPATH, and the links in syslib
are made to names that are in syslib.
-/

namespace CBuild.Soundness.SelfContained

open CBuild.Files CBuild.Model.GenCpkPackage CBuild.Model.GenCpkPackage.Packing

variable {Dir : Type} {packing after start : Packing Dir} {name lib : Text} {elf : Elf} {real : Dir × Text}
  {folders : List (Dir × List Text)}

/-- The name is in one of the directories, and the links from there end at a file in one of them. -/
def Found (pathes : List Dir) (tree : Rootfs Dir) (name : Text) : Prop :=
  ∃ dir ∈ pathes, Leads tree (fun place => place.1 ∈ pathes) (dir, name)

/-- A file in the processed folders of rootfs, or one that has been copied. -/
def Packed (rootfs : Rootfs Dir) (folders : List (Dir × List Text)) (packing : Packing Dir) (elf : Elf) : Prop :=
  (∃ folder ∈ folders, ∃ file ∈ folder.2, rootfs (folder.1, file) = some (.file elf)) ∨
    elf ∈ packing.copied.map Prod.snd

/-- What the files need, and the interpreter. -/
def Due (rootfs : Rootfs Dir) (folders : List (Dir × List Text)) (packing : Packing Dir) (name : Text) : Prop :=
  (∃ elf, Packed rootfs folders packing elf ∧ name ∈ elf.needed) ∨ packing.ldso ≠ [] ∧ name = packing.ldso

/-- Every name that is needed is found in the package. -/
def Contained (rootfs : Rootfs Dir) (folders : List (Dir × List Text)) (packing : Packing Dir) : Prop :=
  ∀ name, Due rootfs folders packing name → Found packing.pathes packing.tree name

/-- A name that rootfs provides is found there. -/
def Provided (start : Packing Dir) (name : Text) : Prop :=
  name ∈ start.existedLibs → Found start.pathes start.tree name

section

variable [DecidableEq Dir] (system : System Dir) (syslib : Dir) (start packing : Packing Dir) (lib : Text)

/-- The library is linked to its file in syslib when that has another name. -/
def linked (reallib lib : Text) (tree : Rootfs Dir) : Rootfs Dir :=
  if lib = reallib then tree else Function.update tree (syslib, lib) (some (.link (syslib, reallib)))

/-- The library is copied to a free name, or its name in syslib leads to a file when the link has been made;
and what a copied file needs of rootfs is found there. -/
def CarefulLib : Prop :=
  ∀ item, (packing.systemLibs.find? fun item => lib ∈ item.2) = some item →
    let real := realLib system item.1 lib
    let copies := real.2 ∉ packing.existedLibs ∧ real.2 ∉ packing.unknownLibs
    (copies ∧ packing.tree (syslib, real.2) = none ∨
      Leads (linked syslib real.2 lib packing.tree) (fun place => place.1 ∈ packing.pathes) (syslib, real.2)) ∧
    (copies → ∀ elf, systemTree system real = some (.file elf) →
      (∀ name ∈ elf.needed, Provided start name) ∧
      (packing.ldso = [] → ∀ name, elf.interpreter = some name → Provided start name))

/-- Each turn is careful as long as no library is unknown. -/
def CarefulTurns : ℕ → Packing Dir → Prop
  | 0, _ => True
  | turns + 1, packing =>
    match packing.libs with
    | [] => True
    | lib :: _ =>
      (packing.unknownLibs = [] → CarefulLib system syslib start packing lib) ∧
      ∀ after, processLib system syslib packing lib = some after → CarefulTurns turns after

end

/-- The name is settled or looked for. -/
def Known (packing : Packing Dir) (name : Text) : Prop :=
  name ∈ packing.existedLibs ∨ name ∈ packing.unknownLibs ∨ name ∈ packing.libs

/-- Nothing but names that are looked for, and perhaps the interpreter, is new. -/
structure Asks (packing after : Packing Dir) : Prop where
  pathes : after.pathes = packing.pathes
  existedLibs : after.existedLibs = packing.existedLibs
  unknownLibs : after.unknownLibs = packing.unknownLibs
  tree : after.tree = packing.tree
  copied : after.copied = packing.copied
  libs : ∀ name ∈ packing.libs, name ∈ after.libs

theorem Asks.refl (packing : Packing Dir) : Asks packing packing := ⟨rfl, rfl, rfl, rfl, rfl, fun _ member => member⟩

theorem Asks.trans {middle : Packing Dir} (first : Asks packing middle) (second : Asks middle after) :
    Asks packing after :=
  ⟨second.pathes.trans first.pathes, second.existedLibs.trans first.existedLibs,
    second.unknownLibs.trans first.unknownLibs, second.tree.trans first.tree, second.copied.trans first.copied,
    fun name member => second.libs name (first.libs name member)⟩

theorem Asks.known (asks : Asks packing after) (known : Known packing name) : Known after name := by
  unfold Known
  rw [asks.existedLibs, asks.unknownLibs]
  exact known.imp_right (Or.imp_right (asks.libs name))

theorem needLib_asks (packing : Packing Dir) (name : Text) :
    Asks packing (packing.needLib name) ∧ (packing.needLib name).ldso = packing.ldso ∧
      Known (packing.needLib name) name := by
  unfold needLib
  split
  · exact ⟨⟨rfl, rfl, rfl, rfl, rfl, fun _ member => List.mem_append_left _ member⟩, rfl,
      Or.inr (Or.inr (List.mem_append_right _ (List.mem_singleton_self name)))⟩
  · next settled =>
    refine ⟨.refl packing, rfl, ?_⟩
    unfold IsNew at settled
    unfold Known
    tauto

theorem needIndirect_asks (packing : Packing Dir) (name : Text) :
    Asks packing (packing.needIndirect name) ∧ (packing.needIndirect name).ldso = packing.ldso ∧
      Known (packing.needIndirect name) name := by
  obtain ⟨asks, ldso, known⟩ := needLib_asks packing name
  exact ⟨⟨asks.pathes, asks.existedLibs, asks.unknownLibs, asks.tree, asks.copied, asks.libs⟩, ldso, known⟩

/-- What a file needs is looked for. -/
theorem needAll_asks (packing : Packing Dir) (needed : List Text) :
    Asks packing (needed.foldl needIndirect packing) ∧ (needed.foldl needIndirect packing).ldso = packing.ldso ∧
      ∀ name ∈ needed, Known (needed.foldl needIndirect packing) name := by
  induction needed generalizing packing with
  | nil => exact ⟨.refl packing, rfl, nofun⟩
  | cons rlib needed ih =>
    obtain ⟨first, ldso, known⟩ := needIndirect_asks packing rlib
    obtain ⟨rest, ldso', others⟩ := ih (packing.needIndirect rlib)
    refine ⟨first.trans rest, ldso'.trans ldso, ?_⟩
    intro name member
    obtain rfl | member := List.mem_cons.mp member
    · exact rest.known known
    · exact others name member

/-- The interpreter stays, or it is the first one and looked for. -/
theorem needInterpreter_asks (packing : Packing Dir) (elf : Elf) :
    Asks packing (packing.needInterpreter elf) ∧
      ((packing.needInterpreter elf).ldso = packing.ldso ∨
        packing.ldso = [] ∧ elf.interpreter = some (packing.needInterpreter elf).ldso ∧
          Known (packing.needInterpreter elf) (packing.needInterpreter elf).ldso) := by
  unfold needInterpreter
  split
  · next ldso named =>
    split
    · next first =>
      obtain ⟨asks, same, known⟩ := needLib_asks { packing with ldso } ldso
      refine ⟨⟨asks.pathes, asks.existedLibs, asks.unknownLibs, asks.tree, asks.copied, asks.libs⟩, Or.inr ⟨first, ?_⟩⟩
      rw [same]
      exact ⟨named, known⟩
    · exact ⟨.refl packing, Or.inl rfl⟩
  · exact ⟨.refl packing, Or.inl rfl⟩

theorem known_erase {existed : List Text} (known : Known packing name) (settled : lib ∈ existed)
    (grows : ∀ name ∈ packing.existedLibs, name ∈ existed) :
    Known { packing with existedLibs := existed, libs := packing.libs.erase lib } name := by
  obtain exists' | unknown | looked := known
  · exact Or.inl (grows name exists')
  · exact Or.inr (Or.inl unknown)
  · by_cases same : name = lib
    · exact Or.inl (same ▸ settled)
    · exact Or.inr (Or.inr ((List.mem_erase_of_ne same).mpr looked))

def neededAt (rootfs : Rootfs Dir) (place : Dir × Text) : List Text :=
  match rootfs place with
  | some (.file elf) => elf.needed
  | _ => []

theorem mem_addNew {names : List Text} {other : Text} : name ∈ addNew names other ↔ name ∈ names ∨ name = other := by
  unfold addNew
  split
  · next there => exact ⟨Or.inl, fun member => member.elim id fun same => same ▸ there⟩
  · exact List.mem_append.trans (or_congr_right List.mem_singleton)

theorem mem_foldl_addNew {names needed : List Text} : name ∈ needed.foldl addNew names ↔ name ∈ names ∨ name ∈ needed := by
  induction needed generalizing names with
  | nil => exact (or_iff_left (List.not_mem_nil)).symm
  | cons rlib needed ih => rw [List.foldl_cons, ih, mem_addNew, List.mem_cons, or_assoc]

theorem scanFile_wanted (rootfs : Rootfs Dir) (root : Dir) (scan : Cpk Dir × List Text) (ifile : Text) :
    (scanFile rootfs root scan ifile).1.wantedLibs =
      (neededAt rootfs (root, ifile)).foldl addNew scan.1.wantedLibs := by
  unfold scanFile neededAt
  dsimp only
  split
  · next found => rw [found]; split <;> rfl
  · next found => rw [found]; split <;> rfl
  · next other _ =>
    split
    · next elf found =>
      cases elf with
      | dynamic interpreter needed => exact absurd found (other interpreter needed)
      | static => rfl
    · rfl

theorem mem_scanFiles {rootfs : Rootfs Dir} {root : Dir} {files : List Text} {scan : Cpk Dir × List Text} :
    name ∈ (files.foldl (scanFile rootfs root) scan).1.wantedLibs ↔
      name ∈ scan.1.wantedLibs ∨ ∃ file ∈ files, name ∈ neededAt rootfs (root, file) := by
  induction files generalizing scan with
  | nil => simp
  | cons file files ih =>
    rw [List.foldl_cons, ih, scanFile_wanted, mem_foldl_addNew, or_assoc]
    simp only [List.mem_cons, exists_eq_or_imp]

theorem mem_scanDirs {rootfs : Rootfs Dir} {cpk : Cpk Dir} :
    name ∈ (folders.foldl (scanDir rootfs) cpk).wantedLibs ↔
      name ∈ cpk.wantedLibs ∨ ∃ folder ∈ folders, ∃ file ∈ folder.2, name ∈ neededAt rootfs (folder.1, file) := by
  induction folders generalizing cpk with
  | nil => simp
  | cons folder folders ih =>
    have head : name ∈ (scanDir rootfs cpk folder).wantedLibs ↔
        name ∈ cpk.wantedLibs ∨ ∃ file ∈ folder.2, name ∈ neededAt rootfs (folder.1, file) := by
      rw [← @mem_scanFiles _ _ rootfs folder.1 folder.2 (cpk, [])]
      unfold scanDir
      dsimp only
      split <;> rfl
    rw [List.foldl_cons, ih, head, or_assoc]
    simp only [List.mem_cons, exists_eq_or_imp]

theorem mem_neededAt {rootfs : Rootfs Dir} {place : Dir × Text} (found : rootfs place = some (.file elf))
    (needed : name ∈ elf.needed) : name ∈ neededAt rootfs place := by
  rw [neededAt, found]
  exact needed

section

variable [DecidableEq Dir] {system : System Dir} {syslib : Dir}

/-- What a copy changes. -/
structure Copied (system : System Dir) (syslib : Dir) (real : Dir × Text) (packing after : Packing Dir) (elf : Elf) :
    Prop where
  source : systemTree system real = some (.file elf)
  written : write packing.tree 40 (syslib, real.2) elf = some after.tree
  pathes : after.pathes = packing.pathes
  existedLibs : after.existedLibs = packing.existedLibs ++ [real.2]
  unknownLibs : after.unknownLibs = packing.unknownLibs
  copied : after.copied = packing.copied ++ [(real.2, elf)]
  known : ∀ name, Known packing name → Known after name
  needed : ∀ name ∈ elf.needed, Known after name
  ldso : after.ldso = packing.ldso ∨
    packing.ldso = [] ∧ elf.interpreter = some after.ldso ∧ Known after after.ldso

theorem copyLib_copied (done : copyLib system syslib packing real = some after) :
    ∃ elf, Copied system syslib real packing after elf := by
  unfold copyLib at done
  split at done
  · next elf source =>
    refine ⟨elf, ?_⟩
    obtain ⟨first, interpreter⟩ := needInterpreter_asks packing elf
    obtain ⟨rest, ldso, needed⟩ := needAll_asks (packing.needInterpreter elf) elf.needed
    have asks := first.trans rest
    dsimp only at done
    generalize elf.needed.foldl needIndirect (packing.needInterpreter elf) = asked at done asks rest ldso needed
    obtain ⟨tree, written, rfl⟩ := Option.map_eq_some_iff.mp done
    have settled (name : Text) (known : Known asked name) :
        Known { asked with existedLibs := asked.existedLibs ++ [real.2], libs := asked.libs.erase real.2 } name :=
      known_erase known (List.mem_append_right _ (List.mem_singleton_self _)) fun _ member =>
        List.mem_append_left _ member
    refine ⟨source, ?_, asks.pathes, ?_, asks.unknownLibs, ?_, ?_, ?_, ?_⟩
    · rw [← asks.tree]
      exact written
    · rw [← asks.existedLibs]
    · rw [← asks.copied]
    · exact fun name known => settled name (asks.known known)
    · exact fun name member => settled name (needed name member)
    · obtain same | ⟨none, named, known⟩ := interpreter
      · exact Or.inl (ldso.trans same)
      · exact Or.inr ⟨none, by rw [named, ← ldso], by rw [← ldso] at known; exact settled _ (rest.known known)⟩
  · cases done

/-- A library that has been copied or is there already takes nothing away, and both its names lead to it. -/
theorem leads_linked {tree middle : Rootfs Dir} {accepted : Dir × Text → Prop} {reallib : Text}
    (grows : Grows tree middle) (accept : accepted (syslib, reallib))
    (there : (∃ elf, middle (syslib, reallib) = some (.file elf)) ∨
      Leads (linked syslib reallib lib tree) accepted (syslib, reallib)) :
    Leads (linked syslib reallib lib middle) accepted (syslib, reallib) ∧
      Leads (linked syslib reallib lib middle) accepted (syslib, lib) ∧
      ∀ place, Leads tree accepted place → Leads (linked syslib reallib lib middle) accepted place := by
  unfold linked at there ⊢
  split at there
  · next same =>
    rw [if_pos same, same]
    have real : Leads middle accepted (syslib, reallib) := by
      obtain ⟨elf, found⟩ | leads := there
      · exact .file found accept
      · exact leads.grows grows
    exact ⟨real, real, fun place leads => leads.grows grows⟩
  · next other =>
    rw [if_neg other]
    have real : Leads (Function.update middle (syslib, lib) (some (.link (syslib, reallib)))) accepted
        (syslib, reallib) := by
      obtain ⟨elf, found⟩ | leads := there
      · have apart : (syslib, reallib) ≠ (syslib, lib) := fun same => other (congrArg Prod.snd same).symm
        exact .file (by rw [Function.update_of_ne apart, found]) accept
      · exact leads.grows (grows.update ..)
    exact ⟨real, .link (Function.update_self ..) real, fun place leads => .relink real (leads.grows grows)⟩

/-- What the turns keep, from the state before the first one. -/
structure Sound (rootfs : Rootfs Dir) (folders : List (Dir × List Text)) (syslib : Dir) (start packing : Packing Dir) :
    Prop where
  pathes : packing.pathes = start.pathes
  kept : ∀ place, Leads start.tree (fun place => place.1 ∈ start.pathes) place →
    Leads packing.tree (fun place => place.1 ∈ start.pathes) place
  settled : ∀ name ∈ packing.existedLibs, name ∈ start.existedLibs ∨
    Leads packing.tree (fun place => place.1 ∈ start.pathes) (syslib, name)
  known : ∀ name, Due rootfs folders packing name → Known packing name
  provided : ∀ name, Due rootfs folders packing name → Provided start name

/-- What is due after a copy was due before, or the file needs it. -/
theorem Copied.due {rootfs : Rootfs Dir} (copied : Copied system syslib real packing after elf)
    (due : Due rootfs folders after name) :
    Due rootfs folders packing name ∨ name ∈ elf.needed ∨
      packing.ldso = [] ∧ elf.interpreter = some name ∧ Known after name := by
  obtain ⟨other, packed, needed⟩ | ⟨given, rfl⟩ := due
  · obtain found | packed := packed
    · exact Or.inl (Or.inl ⟨other, Or.inl found, needed⟩)
    · rw [copied.copied, List.map_append, List.mem_append] at packed
      obtain before | now := packed
      · exact Or.inl (Or.inl ⟨other, Or.inr before, needed⟩)
      · have same : other = elf := List.mem_singleton.mp now
        exact Or.inr (Or.inl (same ▸ needed))
  · obtain same | ⟨none, named, known⟩ := copied.ldso
    · rw [same] at given ⊢
      exact Or.inl (Or.inr ⟨given, rfl⟩)
    · exact Or.inr (Or.inr ⟨none, named, known⟩)

/-- The link of a library, when it needs one. -/
theorem finish_spec {middle : Packing Dir} {reallib : Text}
    (done : after = if lib ≠ reallib then linkLib syslib middle reallib lib else middle) :
    after.tree = linked syslib reallib lib middle.tree ∧ after.pathes = middle.pathes ∧
      after.unknownLibs = middle.unknownLibs ∧ after.copied = middle.copied ∧ after.ldso = middle.ldso ∧
      (∀ name ∈ after.existedLibs, name ∈ middle.existedLibs ∨ name = lib) ∧
      ∀ name, Known middle name → Known after name := by
  unfold linked
  split at done
  · next other =>
    rw [if_neg other, done]
    refine ⟨rfl, rfl, rfl, rfl, rfl, ?_, ?_⟩
    · exact fun name member => (List.mem_append.mp member).imp_right List.mem_singleton.mp
    · exact fun name known =>
        known_erase known (List.mem_append_right _ (List.mem_singleton_self lib)) fun _ member =>
          List.mem_append_left _ member
  · next same =>
    rw [if_pos (not_not.mp same), done]
    exact ⟨rfl, rfl, rfl, rfl, rfl, fun name => Or.inl, fun name => id⟩

theorem processLib_cases (done : processLib system syslib packing lib = some after) :
    ((packing.systemLibs.find? fun item => lib ∈ item.2) = none ∧
      after = { packing with unknownLibs := packing.unknownLibs ++ [lib], libs := packing.libs.erase lib }) ∨
    ∃ item middle, (packing.systemLibs.find? fun item => lib ∈ item.2) = some item ∧
      after = (if lib ≠ (realLib system item.1 lib).2 then linkLib syslib middle (realLib system item.1 lib).2 lib
        else middle) ∧
      (((realLib system item.1 lib).2 ∉ packing.existedLibs ∧ (realLib system item.1 lib).2 ∉ packing.unknownLibs) ∧
          (∃ elf, Copied system syslib (realLib system item.1 lib) packing middle elf) ∨
        ¬ ((realLib system item.1 lib).2 ∉ packing.existedLibs ∧
            (realLib system item.1 lib).2 ∉ packing.unknownLibs) ∧ middle = packing) := by
  unfold processLib at done
  split at done
  · next item found =>
    right
    dsimp only at done
    obtain ⟨middle, copied, rfl⟩ := Option.map_eq_some_iff.mp done
    refine ⟨item, middle, found, rfl, ?_⟩
    split at copied
    · next copies => exact Or.inl ⟨copies, copyLib_copied copied⟩
    · next stays =>
      cases copied
      exact Or.inr ⟨stays, rfl⟩
  · next missing =>
    cases done
    exact Or.inl ⟨missing, rfl⟩

theorem processLib_unknown (done : processLib system syslib packing lib = some after) (known : after.unknownLibs = []) :
    packing.unknownLibs = [] := by
  obtain ⟨-, rfl⟩ | ⟨item, middle, -, final, ⟨-, elf, copied⟩ | ⟨-, rfl⟩⟩ := processLib_cases done
  · exact (List.append_eq_nil_iff.mp known).1
  · rw [(finish_spec final).2.2.1, copied.unknownLibs] at known
    exact known
  · rw [(finish_spec final).2.2.1] at known
    exact known

/-- A careful turn keeps what the turns keep. -/
theorem processLib_sound {rootfs : Rootfs Dir} (inside : syslib ∈ start.pathes)
    (sound : Sound rootfs folders syslib start packing) (careful : CarefulLib system syslib start packing lib)
    (done : processLib system syslib packing lib = some after) (known : after.unknownLibs = []) :
    Sound rootfs folders syslib start after := by
  obtain ⟨-, rfl⟩ | ⟨item, middle, found, final, source⟩ := processLib_cases done
  · cases (List.append_eq_nil_iff.mp known).2
  obtain ⟨place, provides⟩ := careful item found
  obtain ⟨tree, pathes, unknown, files, ldso, existed, looked⟩ := finish_spec final
  have due (name : Text) (due : Due rootfs folders after name) : Due rootfs folders middle name := by
    unfold Due Packed at due ⊢
    rwa [files, ldso] at due
  rw [sound.pathes] at place
  obtain ⟨copies, elf, copied⟩ | ⟨stays, rfl⟩ := source
  · obtain ⟨needed, interpreter⟩ := provides copies elf copied.source
    have there : (∃ elf, middle.tree (syslib, (realLib system item.1 lib).2) = some (.file elf)) ∨ _ :=
      place.imp_left fun free => ⟨elf, write_absent free.2 copied.written⟩
    obtain ⟨real, link, kept⟩ := leads_linked (write_grows copied.written) inside there
    rw [← tree] at real link kept
    refine ⟨pathes.trans (copied.pathes.trans sound.pathes), fun place leads => kept place (sound.kept place leads),
      ?_, ?_, ?_⟩
    · intro name member
      obtain before | rfl := existed name member
      · rw [copied.existedLibs, List.mem_append, List.mem_singleton] at before
        obtain before | rfl := before
        · exact (sound.settled name before).imp_right (kept _)
        · exact Or.inr real
      · exact Or.inr link
    · intro name is
      obtain before | need | ⟨-, -, known⟩ := copied.due (due name is)
      · exact looked name (copied.known name (sound.known name before))
      · exact looked name (copied.needed name need)
      · exact looked name known
    · intro name is
      obtain before | need | ⟨none, named, -⟩ := copied.due (due name is)
      · exact sound.provided name before
      · exact needed name need
      · exact interpreter none name named
  · obtain ⟨real, link, kept⟩ := leads_linked (Grows.refl _) inside
      (Or.inr (place.resolve_left fun free => stays free.1))
    rw [← tree] at real link kept
    refine ⟨pathes.trans sound.pathes, fun place leads => kept place (sound.kept place leads), ?_, ?_, ?_⟩
    · intro name member
      obtain before | rfl := existed name member
      · exact (sound.settled name before).imp_right (kept _)
      · exact Or.inr link
    · exact fun name is => looked name (sound.known name (due name is))
    · exact fun name is => sound.provided name (due name is)

theorem processSyslib_unknown {turns : ℕ} (done : processSyslib system syslib turns packing = some after)
    (known : after.unknownLibs = []) : packing.unknownLibs = [] := by
  induction turns generalizing packing with
  | zero => cases done
  | succ turns ih =>
    rw [processSyslib] at done
    split at done
    · cases done
      exact known
    · obtain ⟨next, first, rest⟩ := Option.bind_eq_some_iff.mp done
      exact processLib_unknown first (ih rest)

/-- Careful turns that leave no library unknown keep it to the end, where no library is looked for. -/
theorem processSyslib_sound {rootfs : Rootfs Dir} {turns : ℕ} (inside : syslib ∈ start.pathes)
    (sound : Sound rootfs folders syslib start packing) (careful : CarefulTurns system syslib start turns packing)
    (done : processSyslib system syslib turns packing = some after) (known : after.unknownLibs = []) :
    Sound rootfs folders syslib start after ∧ after.libs = [] := by
  induction turns generalizing packing with
  | zero => cases done
  | succ turns ih =>
    rw [processSyslib] at done
    rw [CarefulTurns] at careful
    split at done
    · next empty =>
      cases done
      exact ⟨sound, empty⟩
    · next lib libs first =>
      rw [first] at careful
      obtain ⟨next, turn, rest⟩ := Option.bind_eq_some_iff.mp done
      have still := processSyslib_unknown rest known
      exact ih (processLib_sound inside sound (careful.1 (processLib_unknown turn still)) turn still)
        (careful.2 next turn) rest

/-- The directories of the system change nothing else. -/
theorem processSystem_eq (system : System Dir) (tmpPathes : List Dir) (cpk : Cpk Dir) :
    ∃ systemLibs, processSystem system tmpPathes cpk = { cpk with systemLibs } := by
  have each (search : List Dir × Cpk Dir) : ∃ systemLibs,
      (tmpPathes.foldl (searchDir system) search).2 = { search.2 with systemLibs } := by
    induction tmpPathes generalizing search with
    | nil => exact ⟨search.2.systemLibs, rfl⟩
    | cons path tmpPathes ih =>
      obtain ⟨rest, same⟩ := ih (searchDir system search path)
      refine ⟨rest, same.trans ?_⟩
      unfold searchDir
      dsimp only
      split
      · rfl
      · split <;> rfl
  exact each ([], cpk)

/-- Before the first turn, what is due is there or looked for. -/
theorem scanned_sound {rootfs : Rootfs Dir} {tmpPathes : List Dir}
    (provided : ∀ name, Due rootfs folders (scanned rootfs syslib folders system tmpPathes) name →
      Provided (scanned rootfs syslib folders system tmpPathes) name) :
    syslib ∈ (scanned rootfs syslib folders system tmpPathes).pathes ∧
      Sound rootfs folders syslib (scanned rootfs syslib folders system tmpPathes)
        (scanned rootfs syslib folders system tmpPathes) := by
  obtain ⟨systemLibs, same⟩ := processSystem_eq system tmpPathes (processRootfs rootfs syslib folders {})
  have inside : syslib ∈ (scanned rootfs syslib folders system tmpPathes).pathes := by
    unfold scanned
    rw [same]
    unfold processRootfs
    dsimp only
    split
    · assumption
    · exact List.mem_append_right _ (List.mem_singleton_self syslib)
  refine ⟨inside, rfl, fun place => id, fun name => Or.inl, ?_, provided⟩
  intro name due
  unfold scanned at due ⊢
  rw [same] at due ⊢
  unfold processRootfs at due ⊢
  generalize scan : folders.foldl (scanDir rootfs) {} = cpk at due ⊢
  have wanted : name ∈ (if cpk.ldso ≠ [] then addNew cpk.wantedLibs cpk.ldso else cpk.wantedLibs) := by
    obtain ⟨elf, ⟨folder, member, file, inFolder, found⟩ | none, needed⟩ | ⟨given, rfl⟩ := due
    · have listed : name ∈ cpk.wantedLibs := by
        rw [← scan]
        exact mem_scanDirs.mpr (Or.inr ⟨folder, member, file, inFolder, mem_neededAt found needed⟩)
      split
      · exact mem_addNew.mpr (Or.inl listed)
      · exact listed
    · exact absurd none List.not_mem_nil
    · rw [if_pos given]
      exact mem_addNew.mpr (Or.inr rfl)
  by_cases there : name ∈ cpk.existedLibs
  · exact Or.inl there
  · exact Or.inr (Or.inr (List.mem_filter.mpr ⟨wanted, decide_eq_true there⟩))

/-- A CPK that is finished with careful turns and without unknown libraries is self-contained, where rootfs
provides what its own files need. -/
theorem finished_contained (rootfs : Rootfs Dir) (syslib : Dir) (folders : List (Dir × List Text))
    (system : System Dir) (tmpPathes : List Dir) (turns : ℕ) (final : Packing Dir)
    (provided : ∀ name, Due rootfs folders (scanned rootfs syslib folders system tmpPathes) name →
      Provided (scanned rootfs syslib folders system tmpPathes) name)
    (careful : CarefulTurns system syslib (scanned rootfs syslib folders system tmpPathes) turns
      (scanned rootfs syslib folders system tmpPathes))
    (done : processSyslib system syslib turns (scanned rootfs syslib folders system tmpPathes) = some final)
    (known : final.unknownLibs = []) : Contained rootfs folders final := by
  obtain ⟨inside, start⟩ := scanned_sound provided
  obtain ⟨sound, worked⟩ := processSyslib_sound inside start careful done known
  intro name due
  unfold Found
  rw [sound.pathes]
  obtain there | unknown | looked := sound.known name due
  · obtain first | leads := sound.settled name there
    · obtain ⟨dir, member, leads⟩ := sound.provided name due first
      exact ⟨dir, member, sound.kept _ leads⟩
    · exact ⟨syslib, inside, leads⟩
  · rw [known] at unknown
    cases unknown
  · rw [worked] at looked
    cases looked

end

/-- The folders of a small package and a directory of the system. -/
inductive Folder where
  | bin | lib | syslib | usrLib
  deriving DecidableEq

def program : Elf := .dynamic (some "ld.so".toList) ["libz.so.1".toList]

def zlibSystem : System Folder :=
  [((.usrLib, "ld.so".toList), .file (.dynamic none [])),
    ((.usrLib, "libz.so.1".toList), .link (.usrLib, "libz.so.1.2".toList)),
    ((.usrLib, "libz.so.1.2".toList), .file (.dynamic none []))]

def bare (place : Folder × Text) : Option (Node (Folder × Text) Elf) :=
  if place = (.bin, "app".toList) then some (.file program) else none

def bareStart : Packing Folder := scanned bare .syslib [(.bin, ["app".toList])] zlibSystem [.usrLib]

def bundled (place : Folder × Text) : Option (Node (Folder × Text) Elf) :=
  if place = (.lib, "libz.so.1.2".toList) then some (.file (.dynamic none [])) else bare place

def bundledStart : Packing Folder :=
  scanned bundled .syslib [(.bin, ["app".toList]), (.lib, ["libz.so.1.2".toList])] zlibSystem [.usrLib]

def finalOf (start : Packing Folder) : Packing Folder := (processSyslib zlibSystem .syslib 5 start).getD start

theorem bare_careful : CarefulTurns zlibSystem .syslib bareStart 5 bareStart := by
  have unprovided (name : Text) : Provided bareStart name := fun member => absurd member List.not_mem_nil
  refine ⟨fun _ => ?_, fun after done => ?_⟩
  · intro item found
    cases found
    exact ⟨Or.inl ⟨by decide, rfl⟩, fun _ elf _ => ⟨fun name _ => unprovided name, fun _ name _ => unprovided name⟩⟩
  cases done
  refine ⟨fun _ => ?_, fun after done => ?_⟩
  · intro item found
    cases found
    exact ⟨Or.inl ⟨by decide, rfl⟩, fun _ elf _ => ⟨fun name _ => unprovided name, fun _ name _ => unprovided name⟩⟩
  cases done
  trivial

/-- Alone, the program gets the interpreter and the library with its link. -/
theorem bare_contained :
    processSyslib zlibSystem .syslib 5 bareStart = some (finalOf bareStart) ∧
    (finalOf bareStart).existedLibs = ["libz.so.1.2".toList, "libz.so.1".toList, "ld.so".toList] ∧
    Contained bare [(.bin, ["app".toList])] (finalOf bareStart) :=
  ⟨rfl, rfl, finished_contained bare .syslib [(.bin, ["app".toList])] zlibSystem [.usrLib] 5 (finalOf bareStart)
    (fun _ _ member => absurd member List.not_mem_nil) bare_careful rfl rfl⟩

/-- With the file in another folder of rootfs, the link in syslib leads nowhere. -/
theorem bundled_dangles :
    processSyslib zlibSystem .syslib 5 bundledStart = some (finalOf bundledStart) ∧
    (finalOf bundledStart).unknownLibs = [] ∧
    (finalOf bundledStart).pathes = [.lib, .syslib] ∧
    ¬ Contained bundled [(.bin, ["app".toList]), (.lib, ["libz.so.1.2".toList])] (finalOf bundledStart) := by
  refine ⟨rfl, rfl, rfl, fun contained => ?_⟩
  have due : Due bundled [(.bin, ["app".toList]), (.lib, ["libz.so.1.2".toList])] (finalOf bundledStart)
      "libz.so.1".toList :=
    Or.inl ⟨program, Or.inl ⟨_, List.mem_cons_self .., _, List.mem_singleton_self _, rfl⟩, List.mem_singleton_self _⟩
  have absent : (finalOf bundledStart).tree (.lib, "libz.so.1".toList) = none := rfl
  have link : (finalOf bundledStart).tree (.syslib, "libz.so.1".toList) = some (.link (.syslib, "libz.so.1.2".toList)) :=
    rfl
  have dangling : (finalOf bundledStart).tree (.syslib, "libz.so.1.2".toList) = none := rfl
  obtain ⟨dir, member, leads⟩ := contained _ due
  have either : dir = .lib ∨ dir = .syslib := (List.mem_cons.mp member).imp_right List.mem_singleton.mp
  obtain rfl | rfl := either
  · exact Leads.absent absent leads
  · exact Leads.absent dangling (leads.of_link link)

end CBuild.Soundness.SelfContained
