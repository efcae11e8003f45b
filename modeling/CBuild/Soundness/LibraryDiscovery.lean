import CBuild.Graph.Search
import CBuild.Soundness.SelfContained

/-! # Library discovery settles every name

A turn of `process_syslib` settles the first name of the list, and puts only names on it that are not settled and not on
it. So every name is settled once, no library is copied twice, and the turns end.
-/

namespace CBuild.Soundness.LibraryDiscovery

open CBuild.Files CBuild.Model.GenCpkPackage CBuild.Model.GenCpkPackage.Packing SelfContained

variable {Dir : Type} {packing asked after : Packing Dir} {name lib : Text} {elf : Elf} {real : Dir × Text}

/-- Of the given names, those that are new are put at the end of the list. -/
structure Asked (names : List Text) (packing asked : Packing Dir) : Prop where
  existedLibs : asked.existedLibs = packing.existedLibs
  unknownLibs : asked.unknownLibs = packing.unknownLibs
  systemLibs : asked.systemLibs = packing.systemLibs
  copied : asked.copied = packing.copied
  tree : asked.tree = packing.tree
  libs : ∃ new, asked.libs = packing.libs ++ new ∧ new.Nodup ∧ ∀ name ∈ new, name ∈ names ∧ packing.IsNew name

theorem Asked.nothing (packing : Packing Dir) : Asked [] packing packing :=
  ⟨rfl, rfl, rfl, rfl, rfl, [], (List.append_nil _).symm, List.nodup_nil, nofun⟩

theorem Asked.trans {first second : List Text} {middle : Packing Dir} (one : Asked first packing middle)
    (two : Asked second middle asked) : Asked (first ++ second) packing asked := by
  obtain ⟨new, libs, distinct, inside⟩ := one.libs
  obtain ⟨new', libs', distinct', inside'⟩ := two.libs
  refine ⟨two.existedLibs.trans one.existedLibs, two.unknownLibs.trans one.unknownLibs,
    two.systemLibs.trans one.systemLibs, two.copied.trans one.copied, two.tree.trans one.tree, new ++ new', ?_, ?_, ?_⟩
  · rw [libs', libs, List.append_assoc]
  · refine List.nodup_append.mpr ⟨distinct, distinct', fun name member other member' same => ?_⟩
    refine (inside' other member').2.2.2 ?_
    rw [libs, ← same]
    exact List.mem_append_right _ member
  · intro name member
    rcases List.mem_append.mp member with earlier | later
    · exact ⟨List.mem_append_left _ (inside name earlier).1, (inside name earlier).2⟩
    · obtain ⟨wanted, existed, unknown, listed⟩ := inside' name later
      rw [one.existedLibs] at existed
      rw [one.unknownLibs] at unknown
      rw [libs] at listed
      exact ⟨List.mem_append_right _ wanted, existed, unknown, fun member => listed (List.mem_append_left _ member)⟩

theorem needLib_asked (packing : Packing Dir) (name : Text) : Asked [name] packing (packing.needLib name) := by
  unfold needLib
  split
  · next fresh =>
    refine ⟨rfl, rfl, rfl, rfl, rfl, [name], rfl, List.nodup_singleton _, fun other member => ?_⟩
    exact ⟨member, List.mem_singleton.mp member ▸ fresh⟩
  · exact ⟨rfl, rfl, rfl, rfl, rfl, [], (List.append_nil _).symm, List.nodup_nil, nofun⟩

theorem needIndirect_asked (packing : Packing Dir) (name : Text) :
    Asked [name] packing (packing.needIndirect name) := by
  have asked := needLib_asked packing name
  exact ⟨asked.existedLibs, asked.unknownLibs, asked.systemLibs, asked.copied, asked.tree, asked.libs⟩

theorem needAll_asked (packing : Packing Dir) (needed : List Text) :
    Asked needed packing (needed.foldl needIndirect packing) := by
  induction needed generalizing packing with
  | nil => exact .nothing packing
  | cons name needed ih => exact (needIndirect_asked packing name).trans (ih _)

theorem needInterpreter_asked (packing : Packing Dir) (elf : Elf) :
    Asked elf.interpreter.toList packing (packing.needInterpreter elf) := by
  unfold needInterpreter
  cases elf.interpreter with
  | none => exact .nothing packing
  | some ldso =>
    dsimp only
    split
    · have asked := needLib_asked { packing with ldso } ldso
      exact ⟨asked.existedLibs, asked.unknownLibs, asked.systemLibs, asked.copied, asked.tree, asked.libs⟩
    · exact ⟨rfl, rfl, rfl, rfl, rfl, [], (List.append_nil _).symm, List.nodup_nil, nofun⟩

/-- The state once a library has asked for what it needs. -/
def asking (packing : Packing Dir) (elf : Elf) : Packing Dir :=
  elf.needed.foldl needIndirect (packing.needInterpreter elf)

theorem asking_asked (packing : Packing Dir) (elf : Elf) :
    Asked (elf.interpreter.toList ++ elf.needed) packing (asking packing elf) :=
  (needInterpreter_asked packing elf).trans (needAll_asked _ elf.needed)

/-- The names on the list are not settled, no name is settled in two ways, and the copied libraries are settled. -/
structure Settling (packing : Packing Dir) : Prop where
  distinct : packing.libs.Nodup
  looked : ∀ name ∈ packing.libs, name ∉ packing.existedLibs ∧ name ∉ packing.unknownLibs
  apart : ∀ name ∈ packing.existedLibs, name ∉ packing.unknownLibs
  unknown : ∀ name ∈ packing.unknownLibs, ∀ item ∈ packing.systemLibs, name ∉ item.2
  once : (packing.copied.map Prod.fst).Nodup
  there : ∀ name ∈ packing.copied.map Prod.fst, name ∈ packing.existedLibs

theorem Settling.of_asked {names : List Text} (settling : Settling packing) (asks : Asked names packing asked) :
    Settling asked := by
  obtain ⟨new, libs, distinct, inside⟩ := asks.libs
  refine ⟨?_, fun name member => ?_, ?_, ?_, ?_, ?_⟩
  · rw [libs]
    exact List.nodup_append.mpr ⟨settling.distinct, distinct, fun name member other member' same =>
      (inside other member').2.2.2 (same ▸ member)⟩
  · rw [asks.existedLibs, asks.unknownLibs]
    rw [libs] at member
    rcases List.mem_append.mp member with old | fresh
    · exact settling.looked name old
    · exact ⟨(inside name fresh).2.1, (inside name fresh).2.2.1⟩
  · rw [asks.existedLibs, asks.unknownLibs]
    exact settling.apart
  · rw [asks.unknownLibs, asks.systemLibs]
    exact settling.unknown
  · rw [asks.copied]
    exact settling.once
  · rw [asks.copied, asks.existedLibs]
    exact settling.there

/-- A name that is taken off the list when it is there. -/
theorem Settling.found (settling : Settling packing) (fresh : name ∉ packing.unknownLibs) (tree : Rootfs Dir) :
    Settling { packing with tree, existedLibs := packing.existedLibs ++ [name], libs := packing.libs.erase name } where
  distinct := settling.distinct.erase name
  looked other member := by
    obtain ⟨different, inside⟩ := settling.distinct.mem_erase_iff.mp member
    obtain ⟨existed, unknown⟩ := settling.looked other inside
    refine ⟨fun again => ?_, unknown⟩
    rcases List.mem_append.mp again with before | now
    · exact existed before
    · exact different (List.mem_singleton.mp now)
  apart other member := by
    rcases List.mem_append.mp member with before | now
    · exact settling.apart other before
    · exact List.mem_singleton.mp now ▸ fresh
  unknown := settling.unknown
  once := settling.once
  there other member := List.mem_append_left _ (settling.there other member)

theorem addNew_nodup {names : List Text} (distinct : names.Nodup) (name : Text) : (addNew names name).Nodup := by
  unfold addNew
  split
  · exact distinct
  · next fresh =>
    refine List.nodup_append.mpr ⟨distinct, List.nodup_singleton _, fun other member last member' same => fresh ?_⟩
    exact List.mem_singleton.mp member' ▸ same ▸ member

theorem scanFile_nodup (rootfs : Rootfs Dir) (root : Dir) {scan : Cpk Dir × List Text} (ifile : Text)
    (start : scan.1.wantedLibs.Nodup ∧ scan.1.unknownLibs = []) :
    (scanFile rootfs root scan ifile).1.wantedLibs.Nodup ∧ (scanFile rootfs root scan ifile).1.unknownLibs = [] := by
  have unknown : (scanFile rootfs root scan ifile).1.unknownLibs = scan.1.unknownLibs := by
    unfold scanFile
    dsimp only
    split <;> try split
    all_goals rfl
  rw [scanFile_wanted, unknown]
  exact ⟨List.foldlRecOn _ _ start.1 fun _ distinct name _ => addNew_nodup distinct name, start.2⟩

theorem scanDir_nodup (rootfs : Rootfs Dir) {cpk : Cpk Dir} (folder : Dir × List Text)
    (start : cpk.wantedLibs.Nodup ∧ cpk.unknownLibs = []) :
    (scanDir rootfs cpk folder).wantedLibs.Nodup ∧ (scanDir rootfs cpk folder).unknownLibs = [] := by
  have files : (folder.2.foldl (scanFile rootfs folder.1) (cpk, [])).1.wantedLibs.Nodup ∧
      (folder.2.foldl (scanFile rootfs folder.1) (cpk, [])).1.unknownLibs = [] :=
    @List.foldlRecOn _ _ (fun scan : Cpk Dir × List Text => scan.1.wantedLibs.Nodup ∧ scan.1.unknownLibs = []) folder.2
      (scanFile rootfs folder.1) (cpk, []) start fun _ start ifile _ => scanFile_nodup rootfs folder.1 ifile start
  unfold scanDir
  dsimp only
  split <;> exact files

variable {system : System Dir}

def systemNames (system : System Dir) : List Text := system.flatMap fun entry =>
  match entry.2 with
  | .file elf => elf.interpreter.toList ++ elf.needed
  | .link _ => []

/-- What a turn does to the names. -/
structure Turn (system : System Dir) (packing after : Packing Dir) : Prop where
  settling : Settling after
  systemLibs : after.systemLibs = packing.systemLibs
  existed : ∀ name ∈ packing.existedLibs, name ∈ after.existedLibs
  unknown : ∀ name ∈ packing.unknownLibs, name ∈ after.unknownLibs
  known : ∀ name, Known packing name → Known after name
  libs : ∀ name ∈ after.libs, name ∈ packing.libs ∨ name ∈ systemNames system

theorem Turn.refl (settling : Settling packing) : Turn system packing packing :=
  ⟨settling, rfl, fun _ => id, fun _ => id, fun _ => id, fun _ => .inl⟩

theorem Turn.trans {middle : Packing Dir} (first : Turn system packing middle) (second : Turn system middle after) :
    Turn system packing after :=
  ⟨second.settling, second.systemLibs.trans first.systemLibs,
    fun name member => second.existed name (first.existed name member),
    fun name member => second.unknown name (first.unknown name member),
    fun name known => second.known name (first.known name known),
    fun name member => (second.libs name member).elim (first.libs name) .inr⟩

/-- Settling a name that is there. -/
theorem Turn.found (settling : Settling packing) (fresh : name ∉ packing.unknownLibs) (tree : Rootfs Dir) :
    Turn system packing
      { packing with tree, existedLibs := packing.existedLibs ++ [name], libs := packing.libs.erase name } :=
  ⟨settling.found fresh tree, rfl, fun _ => List.mem_append_left _, fun _ => id,
    fun _ known => known_erase known (List.mem_append_right _ (List.mem_singleton_self _)) fun _ => List.mem_append_left _,
    fun _ member => .inl (List.mem_of_mem_erase member)⟩

/-- Settling a name that no directory lists. -/
theorem Turn.missing (settling : Settling packing) (listed : name ∈ packing.libs)
    (missing : ∀ item ∈ packing.systemLibs, name ∉ item.2) :
    Turn system packing
      { packing with unknownLibs := packing.unknownLibs ++ [name], libs := packing.libs.erase name } := by
  refine ⟨⟨settling.distinct.erase name, ?_, ?_, ?_, settling.once, settling.there⟩, rfl, fun _ => id,
    fun _ => List.mem_append_left _, ?_, fun _ member => .inl (List.mem_of_mem_erase member)⟩
  · intro other member
    obtain ⟨different, inside⟩ := settling.distinct.mem_erase_iff.mp member
    obtain ⟨existed, unknown⟩ := settling.looked other inside
    refine ⟨existed, fun again => ?_⟩
    rcases List.mem_append.mp again with before | now
    · exact unknown before
    · exact different (List.mem_singleton.mp now)
  · intro other existed again
    rcases List.mem_append.mp again with before | now
    · exact settling.apart other existed before
    · exact (settling.looked name listed).1 (List.mem_singleton.mp now ▸ existed)
  · intro other member
    rcases List.mem_append.mp member with before | now
    · exact settling.unknown other before
    · exact List.mem_singleton.mp now ▸ missing
  · rintro other (existed | unknown | looked)
    · exact .inl existed
    · exact .inr (.inl (List.mem_append_left _ unknown))
    · by_cases same : other = name
      · exact .inr (.inl (List.mem_append_right _ (List.mem_singleton.mpr same)))
      · exact .inr (.inr ((List.mem_erase_of_ne same).mpr looked))

variable [DecidableEq Dir] {syslib : Dir}

theorem mem_systemNames (found : systemTree system real = some (.file elf))
    (member : name ∈ elf.interpreter.toList ++ elf.needed) : name ∈ systemNames system := by
  obtain ⟨before, rest, rfl, -⟩ := List.lookup_eq_some_iff.mp found
  exact List.mem_flatMap.mpr ⟨(real, .file elf), List.mem_append_right _ (List.mem_cons_self ..), member⟩

/-- Copying a library. -/
theorem copyLib_turn (settling : Settling packing) (fresh : real.2 ∉ packing.existedLibs)
    (known : real.2 ∉ packing.unknownLibs) (done : copyLib system syslib packing real = some after) :
    Turn system packing after ∧ real.2 ∈ after.existedLibs ∧ after.unknownLibs = packing.unknownLibs ∧
      ∀ elf, systemTree system real = some (.file elf) → ∀ name ∈ (asking packing elf).libs, Known after name := by
  unfold copyLib at done
  split at done
  · next elf source =>
    have asks := asking_asked packing elf
    obtain ⟨new, libs, -, inside⟩ := asks.libs
    obtain ⟨tree, -, rfl⟩ := Option.map_eq_some_iff.mp done
    have first : Turn system packing (asking packing elf) := by
      refine ⟨settling.of_asked asks, asks.systemLibs, ?_, ?_, ?_, ?_⟩
      · exact fun name member => asks.existedLibs ▸ member
      · exact fun name member => asks.unknownLibs ▸ member
      · rintro name (existed | unknown | listed)
        · exact .inl (asks.existedLibs ▸ existed)
        · exact .inr (.inl (asks.unknownLibs ▸ unknown))
        · exact .inr (.inr (libs ▸ List.mem_append_left new listed))
      · intro name member
        rcases List.mem_append.mp (libs ▸ member) with old | new
        · exact .inl old
        · exact .inr (mem_systemNames source (inside name new).1)
    have found : Turn system (asking packing elf) _ := .found first.settling (asks.unknownLibs ▸ known) tree
    have away : real.2 ∉ (asking packing elf).copied.map Prod.fst := fun member =>
      fresh (asks.existedLibs ▸ first.settling.there real.2 member)
    have copied : Turn system (asking packing elf)
        { asking packing elf with
          tree
          existedLibs := (asking packing elf).existedLibs ++ [real.2]
          libs := (asking packing elf).libs.erase real.2
          copied := (asking packing elf).copied ++ [(real.2, elf)] } := by
      refine ⟨{ found.settling with once := ?_, there := ?_ }, found.systemLibs, found.existed, found.unknown,
        found.known, found.libs⟩
      · rw [List.map_append]
        refine List.nodup_append.mpr ⟨first.settling.once, List.nodup_singleton _, ?_⟩
        intro name member other member' same
        have this : name = real.2 := same.trans (List.mem_singleton.mp member')
        exact away (this ▸ member)
      · intro name member
        rw [List.map_append] at member
        rcases List.mem_append.mp member with before | now
        · exact List.mem_append_left _ (first.settling.there name before)
        · exact List.mem_append_right _ now
    refine ⟨first.trans copied, List.mem_append_right _ (List.mem_singleton_self _), asks.unknownLibs, ?_⟩
    intro other source' name member
    cases source.symm.trans source'
    exact copied.known name (.inr (.inr member))
  · cases done

/-- A turn settles the name it is about. -/
theorem processLib_turn (settling : Settling packing) (listed : lib ∈ packing.libs)
    (done : processLib system syslib packing lib = some after) :
    Turn system packing after ∧ (lib ∈ after.existedLibs ∨ lib ∈ after.unknownLibs) := by
  obtain ⟨fresh, unknown⟩ := settling.looked lib listed
  unfold processLib at done
  split at done
  · next item found =>
    dsimp only at done
    obtain ⟨middle, copied, rfl⟩ := Option.map_eq_some_iff.mp done
    obtain ⟨first, same, real⟩ : Turn system packing middle ∧ middle.unknownLibs = packing.unknownLibs ∧
        (lib = (realLib system item.1 lib).2 → lib ∈ middle.existedLibs) := by
      split at copied
      · next copies =>
        obtain ⟨turn, there, same, -⟩ := copyLib_turn settling copies.1 copies.2 copied
        exact ⟨turn, same, fun real => real ▸ there⟩
      · next stays =>
        cases copied
        exact ⟨.refl settling, rfl, fun real => absurd ⟨real ▸ fresh, real ▸ unknown⟩ stays⟩
    split
    · have linked : Turn system middle (linkLib syslib middle (realLib system item.1 lib).2 lib) :=
        .found first.settling (same ▸ unknown) _
      exact ⟨first.trans linked, .inl (List.mem_append_right _ (List.mem_singleton_self lib))⟩
    · next direct => exact ⟨first, .inl (real (not_not.mp direct))⟩
  · next missing =>
    cases done
    have nowhere : ∀ item ∈ packing.systemLibs, lib ∉ item.2 := fun item member listed =>
      of_decide_eq_false (Bool.eq_false_iff.mpr (List.find?_eq_none.mp missing item member)) listed
    exact ⟨.missing settling listed nowhere, .inr (List.mem_append_right _ (List.mem_singleton_self lib))⟩

/-- What is asked for in a turn is known after it. -/
theorem processLib_asked (settling : Settling packing) {item : Dir × List Text}
    (found : (packing.systemLibs.find? fun item => lib ∈ item.2) = some item)
    (copies : (realLib system item.1 lib).2 ∉ packing.existedLibs ∧
      (realLib system item.1 lib).2 ∉ packing.unknownLibs)
    (source : systemTree system (realLib system item.1 lib) = some (.file elf))
    (member : name ∈ (asking packing elf).libs)
    (done : processLib system syslib packing lib = some after) : Known after name := by
  unfold processLib at done
  rw [found] at done
  dsimp only at done
  rw [if_pos copies] at done
  obtain ⟨middle, copied, rfl⟩ := Option.map_eq_some_iff.mp done
  obtain ⟨-, -, -, asked⟩ := copyLib_turn settling copies.1 copies.2 copied
  exact (finish_spec rfl).2.2.2.2.2.2 name (asked elf source name member)

/-- A turn stops with an error. -/
inductive Fails (system : System Dir) (syslib : Dir) : Packing Dir → Prop
  | here {packing : Packing Dir} {lib : Text} {libs : List Text} (first : packing.libs = lib :: libs)
      (error : processLib system syslib packing lib = none) : Fails system syslib packing
  | later {packing after : Packing Dir} {lib : Text} {libs : List Text} (first : packing.libs = lib :: libs)
      (turn : processLib system syslib packing lib = some after) (rest : Fails system syslib after) :
      Fails system syslib packing

/-- The name is on the list at some time, also within a turn. -/
inductive Ever (system : System Dir) (syslib : Dir) (name : Text) : Packing Dir → Prop
  | listed {packing : Packing Dir} (member : name ∈ packing.libs) : Ever system syslib name packing
  | asked {packing : Packing Dir} {lib : Text} {libs : List Text} {item : Dir × List Text} {elf : Elf}
      (first : packing.libs = lib :: libs)
      (found : (packing.systemLibs.find? fun item => lib ∈ item.2) = some item)
      (copies : (realLib system item.1 lib).2 ∉ packing.existedLibs ∧
        (realLib system item.1 lib).2 ∉ packing.unknownLibs)
      (source : systemTree system (realLib system item.1 lib) = some (.file elf))
      (member : name ∈ (asking packing elf).libs) : Ever system syslib name packing
  | later {packing after : Packing Dir} {lib : Text} {libs : List Text} (first : packing.libs = lib :: libs)
      (turn : processLib system syslib packing lib = some after) (rest : Ever system syslib name after) :
      Ever system syslib name packing

/-- With more turns than names that are not settled, the list is worked off, or a turn has failed. -/
theorem processSyslib_ends {names : List Text} (settling : Settling packing)
    (within : ∀ name ∈ packing.libs, name ∈ names) (system_within : ∀ name ∈ systemNames system, name ∈ names)
    {turns : ℕ} (enough : Graph.unseen names (packing.existedLibs ++ packing.unknownLibs) < turns) :
    (∃ after, processSyslib system syslib turns packing = some after) ∨ Fails system syslib packing := by
  induction turns generalizing packing with
  | zero => exact absurd enough (Nat.not_lt_zero _)
  | succ turns ih =>
    rw [processSyslib]
    split
    · exact .inl ⟨packing, rfl⟩
    · next lib libs first =>
      have listed : lib ∈ packing.libs := first ▸ List.mem_cons_self ..
      cases done : processLib system syslib packing lib with
      | none => exact .inr (.here first done)
      | some next =>
        obtain ⟨turn, settled⟩ := processLib_turn settling listed done
        have fresh : lib ∉ packing.existedLibs ++ packing.unknownLibs := fun member =>
          (List.mem_append.mp member).elim (settling.looked lib listed).1 (settling.looked lib listed).2
        have fewer := Graph.unseen_cons_lt (within lib listed) fresh
        have still : Graph.unseen names (next.existedLibs ++ next.unknownLibs) ≤
            Graph.unseen names (lib :: (packing.existedLibs ++ packing.unknownLibs)) := by
          refine Graph.unseen_le fun name member => ?_
          rcases List.mem_cons.mp member with rfl | member
          · exact List.mem_append.mpr settled
          · exact List.mem_append.mpr ((List.mem_append.mp member).imp (turn.existed name) (turn.unknown name))
        have within' : ∀ name ∈ next.libs, name ∈ names := fun name member =>
          (turn.libs name member).elim (within name) (system_within name)
        exact (ih turn.settling within' (by omega)).imp_right (.later first done)

/-- At the end the list is empty, and every name that has been on it is settled. -/
theorem processSyslib_turn {turns : ℕ} (settling : Settling packing)
    (done : processSyslib system syslib turns packing = some after) :
    Turn system packing after ∧ after.libs = [] ∧ ∀ name, Ever system syslib name packing → Known after name := by
  induction turns generalizing packing with
  | zero => cases done
  | succ turns ih =>
    rw [processSyslib] at done
    split at done
    · next empty =>
      cases done
      refine ⟨.refl settling, empty, fun name ever => ?_⟩
      cases ever with
      | listed member => exact .inr (.inr member)
      | asked first => rw [empty] at first; cases first
      | later first => rw [empty] at first; cases first
    · next lib libs first =>
      obtain ⟨next, one, rest⟩ := Option.bind_eq_some_iff.mp done
      obtain ⟨turn, -⟩ := processLib_turn settling (first ▸ List.mem_cons_self ..) one
      obtain ⟨turns, empty, ever⟩ := ih turn.settling rest
      refine ⟨turn.trans turns, empty, fun name before => ?_⟩
      cases before with
      | listed member => exact turns.known name (turn.known name (.inr (.inr member)))
      | asked first' found copies source member =>
        cases first.symm.trans first'
        exact turns.known name (processLib_asked settling found copies source member one)
      | later first' one' later =>
        cases first.symm.trans first'
        cases one.symm.trans one'
        exact ever name later

/-- Every library of the directories is a file or leads to one. -/
def Resolved (system : System Dir) (systemLibs : List (Dir × List Text)) : Prop :=
  ∀ item ∈ systemLibs, ∀ lib ∈ item.2, ∃ elf, systemTree system (realLib system item.1 lib) = some (.file elf)

/-- A name of syslib that is not settled is no link. -/
def Writable (syslib : Dir) (packing : Packing Dir) : Prop :=
  ∀ name, name ∉ packing.existedLibs → ∀ target, packing.tree (syslib, name) ≠ some (.link target)

theorem copyLib_writable (writable : Writable syslib packing) (source : systemTree system real = some (.file elf))
    (fresh : real.2 ∉ packing.existedLibs) :
    ∃ after, copyLib system syslib packing real = some after ∧ Writable syslib after := by
  have asks := asking_asked packing elf
  unfold copyLib
  rw [source]
  dsimp only
  have written : write (asking packing elf).tree 40 (syslib, real.2) elf =
      some (Function.update (asking packing elf).tree (syslib, real.2) (some (.file elf))) := by
    rw [asks.tree, write]
    split
    · next target link => exact absurd link (writable real.2 fresh target)
    · rfl
  refine ⟨_, Option.map_eq_some_iff.mpr ⟨_, written, rfl⟩, fun name absent target link => ?_⟩
  have other : (syslib, name) ≠ (syslib, real.2) := fun same =>
    absent (List.mem_append_right _ (List.mem_singleton.mpr (congrArg Prod.snd same)))
  dsimp only at link
  rw [Function.update_of_ne other, asks.tree] at link
  exact writable name (fun member => absent (List.mem_append_left _ (asks.existedLibs ▸ member))) target link

theorem processLib_writable (writable : Writable syslib packing) (resolved : Resolved system packing.systemLibs) :
    ∃ after, processLib system syslib packing lib = some after ∧ Writable syslib after := by
  unfold processLib
  split
  · next item found =>
    have member : item ∈ packing.systemLibs := List.mem_of_find?_eq_some found
    obtain ⟨elf, source⟩ := resolved item member lib (of_decide_eq_true (@List.find?_some _ _ item _ found))
    obtain ⟨middle, copied, free⟩ : ∃ middle, (if (realLib system item.1 lib).2 ∉ packing.existedLibs ∧
          (realLib system item.1 lib).2 ∉ packing.unknownLibs
        then copyLib system syslib packing (realLib system item.1 lib) else some packing) = some middle ∧
        Writable syslib middle := by
      split
      · next copies => exact copyLib_writable writable source copies.1
      · exact ⟨packing, rfl, writable⟩
    refine ⟨_, Option.map_eq_some_iff.mpr ⟨middle, copied, rfl⟩, ?_⟩
    split
    · intro name absent target link
      have other : (syslib, name) ≠ (syslib, lib) := fun same =>
        absent (List.mem_append_right _ (List.mem_singleton.mpr (congrArg Prod.snd same)))
      have before : middle.tree (syslib, name) = some (.link target) := (Function.update_of_ne other ..).symm.trans link
      exact free name (fun member => absent (List.mem_append_left _ member)) target before
    · exact free
  · exact ⟨_, rfl, writable⟩

theorem not_fails (settling : Settling packing) (writable : Writable syslib packing)
    (resolved : Resolved system packing.systemLibs) : ¬ Fails system syslib packing := by
  intro fails
  induction fails with
  | here first error =>
    obtain ⟨after, done, -⟩ := processLib_writable writable resolved
    rw [error] at done
    cases done
  | later first one rest ih =>
    obtain ⟨turn, -⟩ := processLib_turn settling (first ▸ List.mem_cons_self ..) one
    obtain ⟨after, done, free⟩ := processLib_writable writable resolved
    cases one.symm.trans done
    exact ih turn.settling free (turn.systemLibs ▸ resolved)

theorem scanned_settling (rootfs : Rootfs Dir) (syslib : Dir) (folders : List (Dir × List Text)) (system : System Dir)
    (tmpPathes : List Dir) : Settling (scanned rootfs syslib folders system tmpPathes) := by
  obtain ⟨systemLibs, same⟩ := processSystem_eq system tmpPathes (processRootfs rootfs syslib folders {})
  have scan : (folders.foldl (scanDir rootfs) {}).wantedLibs.Nodup ∧
      (folders.foldl (scanDir rootfs) {}).unknownLibs = [] :=
    @List.foldlRecOn _ _ (fun cpk : Cpk Dir => cpk.wantedLibs.Nodup ∧ cpk.unknownLibs = []) folders (scanDir rootfs) {}
      ⟨List.nodup_nil, rfl⟩ fun _ start folder _ => scanDir_nodup rootfs folder start
  have unknown : (scanned rootfs syslib folders system tmpPathes).unknownLibs = [] := by
    unfold scanned
    rw [same]
    exact scan.2
  have looked : ∀ name ∈ (scanned rootfs syslib folders system tmpPathes).libs,
      name ∉ (scanned rootfs syslib folders system tmpPathes).existedLibs := by
    unfold scanned
    rw [same]
    exact fun name member => of_decide_eq_true (List.mem_filter.mp member).2
  refine ⟨?_, fun name member => ⟨looked name member, unknown ▸ List.not_mem_nil⟩,
    fun name _ => unknown ▸ List.not_mem_nil, fun name member => ?_, List.nodup_nil, nofun⟩
  · unfold scanned
    rw [same]
    refine List.Nodup.filter _ ?_
    split
    · exact addNew_nodup scan.1 _
    · exact scan.1
  · rw [unknown] at member
    cases member

/-- Library discovery ends, or a turn fails because a library of the system is no file; at the end each name that has
been on the list is settled in one of the two ways, those that no directory lists as unknown, and no file has been
copied twice. -/
theorem every_name_settled (rootfs : Rootfs Dir) (syslib : Dir) (folders : List (Dir × List Text))
    (system : System Dir) (tmpPathes : List Dir) :
    let start := scanned rootfs syslib folders system tmpPathes
    ((∃ turns after, processSyslib system syslib turns start = some after) ∨ Fails system syslib start) ∧
    (Resolved system start.systemLibs → Writable syslib start → ¬ Fails system syslib start) ∧
    ∀ turns after, processSyslib system syslib turns start = some after →
      (∀ name, Ever system syslib name start → Xor (name ∈ after.existedLibs) (name ∈ after.unknownLibs)) ∧
      (∀ name ∈ after.unknownLibs, ∀ item ∈ start.systemLibs, name ∉ item.2) ∧
      (after.copied.map Prod.fst).Nodup := by
  intro start
  have settling : Settling start := scanned_settling rootfs syslib folders system tmpPathes
  refine ⟨?_, fun resolved writable => not_fails settling writable resolved, fun turns after done => ?_⟩
  · have ends := @processSyslib_ends _ start system _ syslib (start.libs ++ systemNames system) settling
      (fun _ => List.mem_append_left _) (fun _ => List.mem_append_right _) _ (Nat.lt_succ_self _)
    exact ends.imp_left fun done => ⟨_, done⟩
  · obtain ⟨turn, empty, ever⟩ := processSyslib_turn settling done
    refine ⟨fun name before => ?_, turn.systemLibs ▸ turn.settling.unknown, turn.settling.once⟩
    rcases ever name before with existed | unknown | listed
    · exact .inl ⟨existed, turn.settling.apart name existed⟩
    · exact .inr ⟨unknown, fun existed => turn.settling.apart name existed unknown⟩
    · rw [empty] at listed
      cases listed

/-- The program needs a library that the system has as a link to its file, and the interpreter. -/
theorem bare_settled :
    (processSyslib zlibSystem .syslib 5 bareStart = some (finalOf bareStart)) ∧
    Xor ("libz.so.1".toList ∈ (finalOf bareStart).existedLibs) ("libz.so.1".toList ∈ (finalOf bareStart).unknownLibs) :=
  ⟨rfl, ((every_name_settled bare .syslib [(.bin, ["app".toList])] zlibSystem [.usrLib]).2.2 5 (finalOf bareStart) rfl).1
    "libz.so.1".toList (.listed (by decide))⟩

end CBuild.Soundness.LibraryDiscovery
