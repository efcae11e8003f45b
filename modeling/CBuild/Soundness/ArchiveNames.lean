import CBuild.Model.ProcessCache.Archives

/-! # Whose archive a pattern finds

The parts of an archive's name are joined by two dashes, which names and versions may contain. A pattern
`<prefix>--<package>--*--*.tar.gz` finds an archive exactly when its first part begins the name before the checksum;
packages keep to their own archives exactly when no pattern begins the name of another package's archive.
-/

namespace CBuild.Soundness.ArchiveNames

open CBuild.Text CBuild.Model.ProcessCache

/-- Before the last part, which has no dash, there is room for all that another division puts before its last part. -/
theorem prefix_of_same {first last before after : Text} (plain : '-' ∉ last)
    (same : first ++ ("--".toList ++ last) = before ++ ("--".toList ++ after)) : before <+: first := by
  rw [← List.append_assoc, ← List.append_assoc] at same
  rcases List.append_eq_append_iff.mp same with ⟨middle, split, rest⟩ | ⟨middle, split, rest⟩
  · have empty : middle = [] := by
      rcases List.eq_nil_or_concat middle with nil | ⟨front, c, rfl⟩
      · exact nil
      · have ends : before ++ ['-'] ++ ['-'] = first ++ "--".toList ++ front ++ [c] := by simpa using split
        obtain rfl : '-' = c := List.head_eq_of_cons_eq (List.append_inj_right' ends rfl)
        exact absurd (rest ▸ by simp) plain
    rw [empty, List.append_nil] at split
    exact (List.append_inj_left' split rfl) ▸ List.prefix_refl _
  · have short : before.length ≤ first.length := by
      have lengths := congrArg List.length split
      simp only [List.length_append] at lengths
      omega
    refine @List.prefix_of_prefix_length_le _ _ _ (first ++ "--".toList) ?_ (List.prefix_append ..) short
    rw [split, List.append_assoc]
    exact List.prefix_append ..

theorem md5_plain (md5 : Md5) : '-' ∉ md5.text := fun dash => absurd (md5.word '-' dash) (by decide)

/-- A pattern finds an archive exactly when it begins the name before the checksum. -/
theorem fits_iff (prefixname packname : Text) (file : CacheFile Md5) :
    (archivePattern prefixname packname).fits (archiveName file) = true ↔
      patternStem prefixname packname <+: archiveStem file := by
  rw [archivePattern, Glob.fits_literal_append]
  simp only [Glob.fits_star_append, Glob.fits_literal_append, Glob.fits_literal]
  constructor
  · rintro ⟨rest, name, version, _, rfl, _, rfl, checksum, _, rfl, rfl⟩
    have same : archiveStem file ++ ("--".toList ++ file.checksum.text) =
        (patternStem prefixname packname ++ version) ++ ("--".toList ++ checksum) := by
      refine @List.append_cancel_right _ _ ".tar.gz".toList _ ?_
      simpa [archiveName] using name
    exact (List.prefix_append ..).trans (prefix_of_same (md5_plain file.checksum) same)
  · rintro ⟨rest, stem⟩
    refine ⟨_, ?_, rest, _, rfl, _, rfl, file.checksum.text, _, rfl, rfl⟩
    rw [archiveName, ← stem, List.append_assoc]

section

variable (o : CacheOptions) (files : List (CacheFile Md5)) (packname : Text)

/-- The prefixes that `del_cache` looks under, which are those that `push_cache` puts archives under. -/
def ownPrefixes : List String := if o.native then [o.machine] else o.cacheGrades

/-- The prefixes that `get_one_depend_checksum` looks under. -/
def readPrefixes : List String :=
  if o.native = false ∧ ¬ "-native".toList <:+: packname then o.cacheGrades else [o.machine]

variable {o files packname}

theorem mem_listArchives {prefixname : Text} {file : CacheFile Md5} :
    file ∈ listArchives files prefixname packname ↔
      file ∈ files ∧ patternStem prefixname packname <+: archiveStem file := by
  rw [listArchives, List.mem_filter, fits_iff]

theorem removeArchives_list (prefixname : Text) : removeArchives files (listArchives files prefixname packname) =
    files.filter fun file => ¬ patternStem prefixname packname <+: archiveStem file := by
  refine List.filter_congr fun file member => ?_
  rw [decide_eq_decide, not_iff_not]
  constructor
  · intro named
    obtain ⟨other, listed, same⟩ := List.mem_map.mp named
    have found := (List.mem_filter.mp listed).2
    rw [same] at found
    exact (fits_iff _ _ _).mp found
  · intro found
    exact List.mem_map_of_mem (mem_listArchives.mpr ⟨member, found⟩)

theorem delArchives_eq : delArchives o packname files = files.filter fun file =>
    ∀ prefixname ∈ ownPrefixes o, ¬ patternStem prefixname.toList packname <+: archiveStem file := by
  have grades (grades : List String) : grades.foldl (fun files prefixname =>
      removeArchives files (listArchives files prefixname.toList packname)) files = files.filter fun file =>
        ∀ prefixname ∈ grades, ¬ patternStem prefixname.toList packname <+: archiveStem file := by
    induction grades generalizing files with
    | nil => simp
    | cons first grades ih =>
      rw [List.foldl_cons, ih, removeArchives_list, List.filter_filter]
      exact List.filter_congr fun file _ => by simp [Bool.and_comm]
  cases native : o.native with
  | true => simpa [delArchives, ownPrefixes, native] using removeArchives_list o.machine.toList
  | false => simpa [delArchives, ownPrefixes, native] using grades o.cacheGrades

/-- Of a line that ends in the name of an archive the checksum is left. -/
theorem sedChecksum_name (before : Text) (file : CacheFile Md5) :
    sedChecksum (before ++ archiveName file) = file.checksum.text := by
  have line : before ++ archiveName file =
      (before ++ archiveStem file ++ ['-', '-'] ++ file.checksum.text) ++ ".tar.gz".toList := by
    simp [archiveName]
  have cut : (before ++ archiveName file).take ((before ++ archiveName file).length - 7) =
      before ++ archiveStem file ++ ['-', '-'] ++ file.checksum.text := by
    rw [line, List.length_append]
    exact List.take_left' (by simp)
  have word : ∀ c ∈ file.checksum.text.reverse, (c.isAlphanum || c = '_') = true := by
    intro c member
    rw [file.checksum.word c (List.mem_reverse.mp member), Bool.true_or]
  rw [sedChecksum, cut, List.reverse_append, List.takeWhile_append_of_pos word]
  simp

/-- The line that is appended for some archives is the checksum of the last one. -/
theorem echoChecksum_concat (listed : List (CacheFile Md5)) (last : CacheFile Md5) :
    echoChecksum (listed ++ [last]) = last.checksum.text := by
  have ends : ∃ before, [' '].intercalate ((listed ++ [last]).map archiveName) = before ++ archiveName last := by
    induction listed with
    | nil => exact ⟨[], by simp⟩
    | cons first listed ih =>
      obtain ⟨before, same⟩ := ih
      refine ⟨archiveName first ++ [' '] ++ before, ?_⟩
      rw [List.cons_append, List.map_cons, List.intercalate_cons_of_ne_nil (by simp), same, List.append_assoc _ before]
  obtain ⟨before, same⟩ := ends
  rw [echoChecksum, same, sedChecksum_name]

/-- Either nothing is listed, or the line is the checksum of an archive that is. -/
theorem echoChecksum_mem {listed : List (CacheFile Md5)} (some : listed ≠ []) :
    ∃ file ∈ listed, echoChecksum listed = file.checksum.text := by
  obtain ⟨front, last, rfl⟩ := List.eq_nil_or_concat listed |>.resolve_left some
  rw [List.concat_eq_append]
  exact ⟨last, by simp, echoChecksum_concat front last⟩

/-- What is read from an empty `depcache`: nothing is found, or what the first prefix finds that finds something. -/
inductive Reads (files : List (CacheFile Md5)) (packname : Text) :
    List String → List (CacheFile Md5) × List Text → Prop
  | nothing {prefixes : List String}
      (absent : ∀ prefixname ∈ prefixes, listArchives files prefixname.toList packname = []) :
      Reads files packname prefixes ([], [])
  | found {prefixes : List String} {prefixname : String} (member : prefixname ∈ prefixes)
      (some : listArchives files prefixname.toList packname ≠ []) :
      Reads files packname prefixes (listArchives files prefixname.toList packname,
        [echoChecksum (listArchives files prefixname.toList packname)])

theorem tryGrades_reads (grades : List String) : Reads files packname grades (tryGrades files packname grades []) := by
  induction grades with
  | nil => exact .nothing nofun
  | cons first grades ih =>
    rw [tryGrades]
    split
    · next some => exact .found (List.mem_cons_self ..) some
    · next none =>
      have nothing : listArchives files first.toList packname = [] := not_not.mp none
      generalize tryGrades files packname grades [] = result at ih ⊢
      cases ih with
      | nothing absent => exact .nothing (List.forall_mem_cons.mpr ⟨nothing, absent⟩)
      | found member some => exact .found (List.mem_cons_of_mem _ member) some

theorem getOneDependChecksum_reads (named : packname ≠ []) :
    Reads files packname (readPrefixes o packname) (getOneDependChecksum o files packname []) := by
  rw [getOneDependChecksum, if_neg named, readPrefixes]
  split
  · exact tryGrades_reads o.cacheGrades
  · by_cases nothing : listArchives files o.machine.toList packname = []
    · simp only [nothing, ne_eq, not_true_eq_false, if_false]
      refine .nothing fun prefixname member => ?_
      rw [List.mem_singleton.mp member, nothing]
    · simp only [ne_eq, nothing, not_false_eq_true, if_true]
      exact .found (List.mem_singleton_self _) nothing

end

/-- A package under its name, with whether it is built for the host; the script gives such a package its suffix. -/
structure Package where
  packname : String
  native : Bool
  named : packname.toList ≠ []
  suffix : native = true → "-native".toList <:+ packname.toList

section

variable (machine : String) (cacheGrades : List String)

/-- What `push_cache` has put there: archives of the packages, whose versions are words of the shell. -/
structure Pushed (packages : List Package) (files : List (CacheFile Md5)) : Prop where
  owner : ∀ file ∈ files, ∃ package ∈ packages, file.packname = package.packname ∧
    file.cachePrefix ∈ ownPrefixes ⟨machine, package.native, cacheGrades⟩
  version : ∀ file ∈ files, ∀ c ∈ file.version.toList, blank c = false ∧ c ∉ "/*?[\\".toList

/-- `del_cache` of a package removes its archives and no others, and `get_one_depend_checksum` lists only its
archives and appends a checksum of one. -/
structure Separate (packages : List Package) (files : List (CacheFile Md5)) : Prop where
  deleted : ∀ package ∈ packages,
    delArchives ⟨machine, package.native, cacheGrades⟩ package.packname.toList files =
      files.filter (·.packname ≠ package.packname)
  read : ∀ package ∈ packages, ∀ native listed lines,
    getOneDependChecksum ⟨machine, native, cacheGrades⟩ files package.packname.toList [] = (listed, lines) →
      (∀ file ∈ listed, file.packname = package.packname) ∧
        ∀ line ∈ lines, ∃ file ∈ files, file.packname = package.packname ∧ line = file.checksum.text

/-- The prefixes that archives of the package are looked for under: by its own `del_cache`, and for packages that
depend on it. -/
def usedPrefixes (package : Package) : List String :=
  ownPrefixes ⟨machine, package.native, cacheGrades⟩ ++
    (readPrefixes ⟨machine, false, cacheGrades⟩ package.packname.toList ++
      readPrefixes ⟨machine, true, cacheGrades⟩ package.packname.toList)

/-- No `<prefix>--<package>--` begins the name of an archive of another package. -/
def Apart (packages : List Package) (files : List (CacheFile Md5)) : Prop :=
  ∀ package ∈ packages, ∀ prefixname ∈ usedPrefixes machine cacheGrades package, ∀ file ∈ files,
    patternStem prefixname.toList package.packname.toList <+: archiveStem file → file.packname = package.packname

variable {machine cacheGrades} {packages : List Package} {files : List (CacheFile Md5)} {package : Package}

/-- Others look for a package where its own `del_cache` does, or under the name of the machine. -/
theorem readPrefixes_cases (native : Bool) : readPrefixes ⟨machine, native, cacheGrades⟩ package.packname.toList =
      ownPrefixes ⟨machine, package.native, cacheGrades⟩ ∨
    readPrefixes ⟨machine, native, cacheGrades⟩ package.packname.toList = [machine] := by
  unfold readPrefixes
  split
  · next both =>
    cases built : package.native with
    | false => exact .inl rfl
    | true => exact absurd (package.suffix built).isInfix both.2
  · exact .inr rfl

theorem mem_ownPrefixes (distinct : (packages.map (·.packname)).Nodup)
    (pushed : Pushed machine cacheGrades packages files) (member : package ∈ packages) {file : CacheFile Md5}
    (inside : file ∈ files) (own : file.packname = package.packname) :
    file.cachePrefix ∈ ownPrefixes ⟨machine, package.native, cacheGrades⟩ := by
  obtain ⟨owner, isPackage, named, prefixed⟩ := pushed.owner file inside
  rwa [List.inj_on_of_nodup_map distinct isPackage member (named.symm.trans own)] at prefixed

theorem own_found (file : CacheFile Md5) :
    patternStem file.cachePrefix.toList file.packname.toList <+: archiveStem file := by
  simp [patternStem, archiveStem]

/-- What `del_cache` of a package finds is its own. -/
theorem Separate.own_deleted (separate : Separate machine cacheGrades packages files) (member : package ∈ packages)
    {prefixname : String} (own : prefixname ∈ ownPrefixes ⟨machine, package.native, cacheGrades⟩)
    {file : CacheFile Md5} (inside : file ∈ files)
    (found : patternStem prefixname.toList package.packname.toList <+: archiveStem file) :
    file.packname = package.packname := by
  by_contra other
  have kept : file ∈ delArchives ⟨machine, package.native, cacheGrades⟩ package.packname.toList files := by
    rw [separate.deleted package member]
    exact List.mem_filter.mpr ⟨inside, by simpa using other⟩
  rw [delArchives_eq, List.mem_filter] at kept
  exact of_decide_eq_true kept.2 prefixname own found

/-- What is found where `get_one_depend_checksum` looks for the package is its own. -/
theorem Separate.own_read (separate : Separate machine cacheGrades packages files) (member : package ∈ packages)
    {native : Bool} {prefixname : String}
    (reads : prefixname ∈ readPrefixes ⟨machine, native, cacheGrades⟩ package.packname.toList)
    {file : CacheFile Md5} (inside : file ∈ files)
    (found : patternStem prefixname.toList package.packname.toList <+: archiveStem file) :
    file.packname = package.packname := by
  rcases @readPrefixes_cases machine cacheGrades package native with same | same
  · exact separate.own_deleted member (same ▸ reads) inside found
  · rw [same, List.mem_singleton] at reads
    subst reads
    have listed := mem_listArchives.mpr ⟨inside, found⟩
    have result := @getOneDependChecksum_reads ⟨prefixname, native, cacheGrades⟩ files _ package.named
    rw [same] at result
    generalize output : getOneDependChecksum _ files _ [] = pair at result
    cases result with
    | nothing absent =>
      rw [absent prefixname (List.mem_singleton_self _)] at listed
      cases listed
    | found first some =>
      rw [List.mem_singleton.mp first] at output
      exact (separate.read package member native _ _ output).1 file listed

theorem mem_usedPrefixes {native : Bool} {prefixname : String}
    (reads : prefixname ∈ readPrefixes ⟨machine, native, cacheGrades⟩ package.packname.toList) :
    prefixname ∈ usedPrefixes machine cacheGrades package := by
  refine List.mem_append_right _ ?_
  cases native with
  | false => exact List.mem_append_left _ reads
  | true => exact List.mem_append_right _ reads

theorem Apart.deleted (apart : Apart machine cacheGrades packages files)
    (distinct : (packages.map (·.packname)).Nodup) (pushed : Pushed machine cacheGrades packages files)
    (member : package ∈ packages) :
    delArchives ⟨machine, package.native, cacheGrades⟩ package.packname.toList files =
      files.filter (·.packname ≠ package.packname) := by
  rw [delArchives_eq]
  refine List.filter_congr fun file inside => decide_eq_decide.mpr ⟨fun kept own => ?_, fun other prefixname own found => ?_⟩
  · exact kept file.cachePrefix (mem_ownPrefixes distinct pushed member inside own) (own ▸ own_found file)
  · exact other (apart package member prefixname (List.mem_append_left _ own) file inside found)

theorem Apart.read (apart : Apart machine cacheGrades packages files) (member : package ∈ packages) {native : Bool}
    {listed : List (CacheFile Md5)} {lines : List Text}
    (reads : getOneDependChecksum ⟨machine, native, cacheGrades⟩ files package.packname.toList [] = (listed, lines)) :
    (∀ file ∈ listed, file.packname = package.packname) ∧
      ∀ line ∈ lines, ∃ file ∈ files, file.packname = package.packname ∧ line = file.checksum.text := by
  have own : ∀ prefixname ∈ readPrefixes ⟨machine, native, cacheGrades⟩ package.packname.toList,
      ∀ file ∈ listArchives files prefixname.toList package.packname.toList, file.packname = package.packname :=
    fun prefixname read file listed =>
      apart package member prefixname (mem_usedPrefixes read) file (mem_listArchives.mp listed).1 (mem_listArchives.mp listed).2
  have result := @getOneDependChecksum_reads ⟨machine, native, cacheGrades⟩ files _ package.named
  rw [reads] at result
  cases result with
  | nothing => exact ⟨nofun, nofun⟩
  | @found prefixname read some =>
    refine ⟨own prefixname read, fun line appended => ?_⟩
    obtain ⟨file, listed, same⟩ := echoChecksum_mem some
    rw [List.mem_singleton.mp appended]
    exact ⟨file, (mem_listArchives.mp listed).1, own prefixname read file listed, same⟩

variable (machine cacheGrades packages files)

/-- Packages keep to their own archives exactly when no pattern begins the name of another package's archive. -/
theorem separate_iff (distinct : (packages.map (·.packname)).Nodup)
    (pushed : Pushed machine cacheGrades packages files) :
    Separate machine cacheGrades packages files ↔ Apart machine cacheGrades packages files := by
  constructor
  · intro separate package member prefixname used file inside found
    rcases List.mem_append.mp used with own | reads
    · exact separate.own_deleted member own inside found
    · rcases List.mem_append.mp reads with reads | reads
      · exact separate.own_read member reads inside found
      · exact separate.own_read member reads inside found
  · intro apart
    exact ⟨fun package member => apart.deleted distinct pushed member,
      fun package member native listed lines reads => apart.read member reads⟩

end

/-- There are no two dashes in a row in it, and it does not end in one. -/
def Plain (part : Text) : Prop := ¬ "--".toList <:+: part ++ ['-']

instance : DecidablePred Plain := fun _ => inferInstanceAs (Decidable (¬ _))

theorem eq_of_plain {first second rest rest' : Text} (plain : Plain first) (plain' : Plain second)
    (same : first ++ ("--".toList ++ rest) = second ++ ("--".toList ++ rest')) : first = second := by
  -- the longer one would go on with a dash
  have shorter {first second rest rest' middle : Text} (plain : Plain second) (split : second = first ++ middle)
      (goesOn : "--".toList ++ rest = middle ++ ("--".toList ++ rest')) : middle = [] := by
    cases middle with
    | nil => rfl
    | cons c middle =>
      obtain rfl : '-' = c := List.head_eq_of_cons_eq goesOn
      cases middle with
      | nil => exact absurd (split ▸ ⟨first, [], by simp⟩) plain
      | cons d middle =>
        obtain rfl : '-' = d := List.head_eq_of_cons_eq (List.tail_eq_of_cons_eq goesOn)
        exact absurd (split ▸ ⟨first, middle ++ ['-'], by simp⟩) plain
  rcases List.append_eq_append_iff.mp same with ⟨middle, split, goesOn⟩ | ⟨middle, split, goesOn⟩
  · rw [shorter plain' split goesOn, List.append_nil] at split
    exact split.symm
  · rw [shorter plain split goesOn, List.append_nil] at split
    exact split

section

variable {machine : String} {cacheGrades : List String} {packages : List Package} {files : List (CacheFile Md5)}

theorem mem_of_ownPrefixes {native : Bool} {prefixname : String}
    (own : prefixname ∈ ownPrefixes ⟨machine, native, cacheGrades⟩) : prefixname ∈ machine :: cacheGrades := by
  cases native with
  | true => exact List.mem_singleton.mp own ▸ List.mem_cons_self ..
  | false => exact List.mem_cons_of_mem _ own

theorem mem_of_usedPrefixes {package : Package} {prefixname : String}
    (used : prefixname ∈ usedPrefixes machine cacheGrades package) : prefixname ∈ machine :: cacheGrades := by
  have read (native : Bool) (reads : prefixname ∈ readPrefixes ⟨machine, native, cacheGrades⟩ package.packname.toList) :
      prefixname ∈ machine :: cacheGrades := by
    rcases @readPrefixes_cases machine cacheGrades package native with same | same
    · exact mem_of_ownPrefixes (same ▸ reads)
    · rw [same] at reads
      exact List.mem_singleton.mp reads ▸ List.mem_cons_self ..
  rcases List.mem_append.mp used with own | reads
  · exact mem_of_ownPrefixes own
  · exact (List.mem_append.mp reads).elim (read false) (read true)

/-- Packages and prefixes with plain names keep apart, whatever the versions. -/
theorem apart_of_plain (names : ∀ package ∈ packages, Plain package.packname.toList)
    (prefixes : ∀ prefixname ∈ machine :: cacheGrades, Plain prefixname.toList)
    (pushed : Pushed machine cacheGrades packages files) : Apart machine cacheGrades packages files := by
  rintro package member prefixname used file inside ⟨rest, same⟩
  obtain ⟨owner, isPackage, named, prefixed⟩ := pushed.owner file inside
  rw [patternStem, archiveStem, List.append_assoc, List.append_assoc, List.append_assoc, List.append_assoc] at same
  have samePrefix :=
    eq_of_plain (prefixes _ (mem_of_usedPrefixes used)) (prefixes _ (mem_of_ownPrefixes prefixed)) same
  rw [samePrefix] at same
  have rests := List.append_cancel_left (List.append_cancel_left same)
  have sameName := eq_of_plain (names package member) (named ▸ names owner isPackage)
    (rests.trans (List.append_assoc ..))
  exact String.toList_inj.mp sameName.symm

end

def package (packname : String) (named : packname.toList ≠ []) : Package := ⟨packname, false, named, nofun⟩

def md5 (text : String) (nonempty : text.toList ≠ []) (word : ∀ c ∈ text.toList, c.isAlphanum = true) : Md5 :=
  ⟨text.toList, nonempty, word⟩

def archive (packname : String) : CacheFile Md5 := ⟨"arm", packname, "1.0-rc--2", md5 "0a1b" (by decide) (by decide)⟩

theorem appAndLib_separate :
    Separate "x86_64" ["arm"] [package "app" (by decide), package "app-lib" (by decide)]
      [archive "app", archive "app-lib"] := by
  have pushed : Pushed "x86_64" ["arm"] [package "app" (by decide), package "app-lib" (by decide)]
      [archive "app", archive "app-lib"] := ⟨by decide, by decide⟩
  exact (separate_iff "x86_64" ["arm"] _ _ (by decide) pushed).mpr (apart_of_plain (by decide) (by decide) pushed)

/-- Removing the archives of `app` removes that of `app--lib`. -/
theorem appAndDashes_meet :
    ¬ Separate "x86_64" ["arm"] [package "app" (by decide), package "app--lib" (by decide)] [archive "app--lib"] := by
  intro separate
  have deleted := separate.deleted (package "app" (by decide)) (List.mem_cons_self ..)
  exact absurd (congrArg List.length deleted) (by decide)

end CBuild.Soundness.ArchiveNames
