import CBuild.Soundness.ProgramSearch

/-! # Which loader starts the program

The first configuration file with a setting decides alone. A linker that does not exist leads to `ld.so`; a linker that
cannot be started, or an rpath without a linker, does not.
-/

namespace CBuild.Soundness.LoaderFallback

open CBuild.Model.Execld ProgramSearch

section

variable (system : System) (old : Option Text) (argv : List Text) (progPath : Text) (cfg : Config)

def settings (cfgPath : Text) : Config := (readCfg system cfgPath {}).getD {}

/-- The configuration has a linker that can be started. -/
def Supplies (linkerPath : Text) : Prop :=
  ∃ linker, cfg.linker = some linker ∧ linkerPath = makeAbs system (getDirname progPath) linker ∧
    system.startable linkerPath

/-- The configuration has a linker that does not exist. -/
def Missing : Prop :=
  ∃ linker, cfg.linker = some linker ∧ ¬ system.fileExists (makeAbs system (getDirname progPath) linker)

def libraryPath (dirs : List Text) : Option Text :=
  let there := (dirs.map (makeAbs system (getDirname progPath))).filter system.dirExists
  if there = [] then old else some ([':'].intercalate (there ++ old.toList.filter (· ≠ [])))

/-- The program is started through the linker with these directories. -/
def Starts (linkerPath : Text) (dirs : List Text) : Prop :=
  launch system old argv progPath =
    .started linkerPath (linkerPath :: progPath :: argv.drop 1) (libraryPath system old progPath dirs)

/-- The directories of the fallback are the defaults or those of a configuration. -/
def Offered (dirs : List Text) : Prop :=
  dirs = defaults (getDirname progPath) ∨ ∃ raw, dirs = splitRpath (some raw) ∧
    ((settings system (cfg1 progPath)).rpathRaw = some raw ∨ (settings system (cfg2 progPath)).rpathRaw = some raw)

/-- The first linker that a configuration supplies is used, and `ld.so` if there is none. -/
structure Reached : Prop where
  first : ∀ path, Supplies system progPath (settings system (cfg1 progPath)) path →
    Starts system old argv progPath path (splitRpath (settings system (cfg1 progPath)).rpathRaw)
  second : (∀ path, ¬ Supplies system progPath (settings system (cfg1 progPath)) path) →
    ∀ path, Supplies system progPath (settings system (cfg2 progPath)) path →
      ∃ dirs, Starts system old argv progPath path dirs ∧
        (dirs = splitRpath (settings system (cfg2 progPath)).rpathRaw ∨ dirs = defaults (getDirname progPath))
  fallback : (∀ path, ¬ Supplies system progPath (settings system (cfg1 progPath)) path) →
    (∀ path, ¬ Supplies system progPath (settings system (cfg2 progPath)) path) →
    system.startable (ldso progPath) →
      ∃ dirs, Starts system old argv progPath (ldso progPath) dirs ∧ Offered system progPath dirs

def chosen : Config :=
  if (settings system (cfg1 progPath)).isSet then settings system (cfg1 progPath) else settings system (cfg2 progPath)

/-- The first file supplies a linker; or the second one does and the first has no settings, or a linker that does not
exist where the second has `ld.so`; or none does, and `ld.so` is not to be started or the configuration that decides has
no settings or a linker that does not exist. -/
def Suited : Prop :=
  (∃ path, Supplies system progPath (settings system (cfg1 progPath)) path) ∨
  (∃ path, Supplies system progPath (settings system (cfg2 progPath)) path ∧
    ((settings system (cfg1 progPath)).isSet = false ∨
      Missing system progPath (settings system (cfg1 progPath)) ∧ path = ldso progPath)) ∨
  (∀ path, ¬ Supplies system progPath (settings system (cfg1 progPath)) path) ∧
    (∀ path, ¬ Supplies system progPath (settings system (cfg2 progPath)) path) ∧
    (system.startable (ldso progPath) →
      (chosen system progPath).isSet = false ∨ Missing system progPath (chosen system progPath))

end

variable {system : System} {old : Option Text} {argv : List Text} {progPath path : Text} {cfg : Config}

theorem eq_of_not_set (unset : cfg.isSet = false) : cfg = {} := by
  obtain ⟨linker, rpathRaw⟩ := cfg
  cases linker with
  | some _ => cases unset
  | none =>
    cases rpathRaw with
    | some _ => cases unset
    | none => rfl

theorem findCfg_eq (system : System) (progPath : Text) :
    findCfg system progPath = (chosen system progPath, (chosen system progPath).isSet) := by
  unfold findCfg chosen
  dsimp only
  by_cases first : (settings system (cfg1 progPath)).isSet
  · have first' : ((readCfg system (cfg1 progPath) {}).getD {}).isSet := first
    rw [if_pos first', if_pos first, first]
    rfl
  · have empty : (readCfg system (cfg1 progPath) {}).getD {} = {} := eq_of_not_set (Bool.eq_false_iff.mpr first)
    rw [if_neg first, empty]
    rfl

theorem startable_exists (startable : system.startable path) : system.fileExists path := by
  unfold System.startable at startable
  unfold System.fileExists
  split at startable
  · next found => rw [found]; rfl
  · cases startable

theorem buildLibraryPath_eq (system : System) (old : Option Text) (progPath : Text) (dirs : List Text) :
    (buildLibraryPath system (getDirname progPath) dirs old).or old = libraryPath system old progPath dirs := by
  unfold buildLibraryPath libraryPath
  dsimp only
  split
  · rfl
  · next given =>
    rw [Option.some_or]
    congr 1
    cases old with
    | none => simp
    | some text =>
      by_cases empty : text = []
      · simp [empty]
      · obtain ⟨dir, dirs, there⟩ := List.exists_cons_of_ne_nil given
        have ends (dir : Text) (dirs : List Text) :
            [':'].intercalate (dir :: dirs) ++ ':' :: text = [':'].intercalate (dir :: dirs ++ [text]) := by
          induction dirs generalizing dir with
          | nil => simp
          | cons next dirs ih =>
            rw [List.cons_append, List.cons_append, List.intercalate_cons_cons, List.intercalate_cons_cons,
              ← List.cons_append, ← ih]
            simp
        rw [there]
        simpa [empty] using ends dir dirs

/-- A loader that can be started is started. -/
theorem starts_of_findLinker {dirs : List Text} (found : findLinker system progPath = some (path, dirs))
    (startable : system.startable path) : Starts system old argv progPath path dirs := by
  unfold Starts launch
  rw [found]
  dsimp only
  rw [exec, if_pos startable, buildLibraryPath_eq]

/-- What is started through a loader has been found with it. -/
theorem findLinker_of_starts {dirs : List Text} (starts : Starts system old argv progPath path dirs) :
    ∃ rpaths, findLinker system progPath = some (path, rpaths) ∧ system.startable path := by
  unfold Starts launch exec at starts
  split at starts
  · next linkerPath rpaths found =>
    split at starts
    · next startable =>
      injection starts with same
      subst same
      exact ⟨rpaths, found, startable⟩
    · cases starts
  · split at starts
    · have same : argv = path :: progPath :: argv.drop 1 := by injection starts
      have length := congrArg List.length same
      rw [List.length_cons, List.length_cons, List.length_drop] at length
      omega
    · cases starts

/-- What is found for the configuration that decides. -/
theorem findLinker_cases (system : System) (progPath : Text) :
    (∃ linker, (chosen system progPath).linker = some linker ∧
      system.fileExists (makeAbs system (getDirname progPath) linker) ∧
      findLinker system progPath = some (makeAbs system (getDirname progPath) linker,
        splitRpath (chosen system progPath).rpathRaw)) ∨
    ((chosen system progPath).isSet = false ∨ Missing system progPath (chosen system progPath)) ∧
      findLinker system progPath = (if system.fileExecutable (ldso progPath) then
        some (ldso progPath, defaults (getDirname progPath)) else none) ∨
    (chosen system progPath).isSet = true ∧ (chosen system progPath).linker = none ∧ findLinker system progPath = none := by
  cases set : (chosen system progPath).isSet with
  | false =>
    refine Or.inr (Or.inl ⟨Or.inl rfl, ?_⟩)
    unfold findLinker
    rw [findCfg_eq, set]
  | true =>
    cases linker : (chosen system progPath).linker with
    | none =>
      refine Or.inr (Or.inr ⟨rfl, rfl, ?_⟩)
      unfold findLinker
      rw [findCfg_eq]
      dsimp only
      rw [set, linker]
    | some text =>
      have found : findLinker system progPath = if system.fileExists (makeAbs system (getDirname progPath) text) then
          some (makeAbs system (getDirname progPath) text, splitRpath (chosen system progPath).rpathRaw)
          else if system.fileExecutable (ldso progPath) then some (ldso progPath, defaults (getDirname progPath))
          else none := by
        unfold findLinker
        rw [findCfg_eq]
        dsimp only
        rw [set, linker]
      by_cases there : system.fileExists (makeAbs system (getDirname progPath) text)
      · rw [if_pos there] at found
        exact Or.inl ⟨text, rfl, there, found⟩
      · rw [if_neg there] at found
        exact Or.inr (Or.inl ⟨Or.inr ⟨text, linker, there⟩, found⟩)

theorem isSet_of_linker {linker : Text} (given : cfg.linker = some linker) : cfg.isSet = true := by
  unfold Config.isSet
  rw [given]
  rfl

/-- The linker of the configuration that decides. -/
theorem findLinker_supplied (supplies : Supplies system progPath (chosen system progPath) path) :
    findLinker system progPath = some (path, splitRpath (chosen system progPath).rpathRaw) := by
  obtain ⟨linker, given, rfl, startable⟩ := supplies
  rcases findLinker_cases system progPath with ⟨other, given', -, found⟩ | ⟨unset | ⟨other, given', missing⟩, -⟩ | ⟨-, none, -⟩
  · cases given.symm.trans given'
    exact found
  · rw [isSet_of_linker given] at unset
    cases unset
  · cases given.symm.trans given'
    exact absurd (startable_exists startable) missing
  · rw [given] at none
    cases none

/-- `ld.so` with the default directories. -/
theorem findLinker_fallback
    (falls : (chosen system progPath).isSet = false ∨ Missing system progPath (chosen system progPath))
    (startable : system.startable (ldso progPath)) :
    findLinker system progPath = some (ldso progPath, defaults (getDirname progPath)) := by
  rcases findLinker_cases system progPath with ⟨linker, given, there, -⟩ | ⟨-, found⟩ | ⟨set, none, -⟩
  · rcases falls with unset | ⟨other, given', missing⟩
    · rw [isSet_of_linker given] at unset
      cases unset
    · cases given.symm.trans given'
      exact absurd there missing
  · rw [found, if_pos (startable_accessible startable)]
  · rcases falls with unset | ⟨other, given', -⟩
    · rw [set] at unset
      cases unset
    · rw [none] at given'
      cases given'

/-- A loader that is found and can be started is one that is supplied, or `ld.so`. -/
theorem supplies_or_falls {rpaths : List Text} (found : findLinker system progPath = some (path, rpaths))
    (startable : system.startable path) : Supplies system progPath (chosen system progPath) path ∨
      ((chosen system progPath).isSet = false ∨ Missing system progPath (chosen system progPath)) ∧
        path = ldso progPath := by
  rcases findLinker_cases system progPath with ⟨linker, given, -, found'⟩ | ⟨falls, found'⟩ | ⟨-, -, found'⟩
  · cases found.symm.trans found'
    exact Or.inl ⟨linker, given, rfl, startable⟩
  · rw [found] at found'
    split at found'
    · cases found'
      exact Or.inr ⟨falls, rfl⟩
    · cases found'
  · cases found.symm.trans found'

theorem chosen_first (set : (settings system (cfg1 progPath)).isSet = true) :
    chosen system progPath = settings system (cfg1 progPath) := if_pos set

theorem chosen_second (unset : (settings system (cfg1 progPath)).isSet = false) :
    chosen system progPath = settings system (cfg2 progPath) := if_neg (Bool.eq_false_iff.mp unset)

theorem chosen_either (system : System) (progPath : Text) : chosen system progPath = settings system (cfg1 progPath) ∨
    chosen system progPath = settings system (cfg2 progPath) := by
  unfold chosen
  split
  · exact Or.inl rfl
  · exact Or.inr rfl

theorem suited_of_reached (reached : Reached system old argv progPath) : Suited system progPath := by
  by_cases one : ∃ path, Supplies system progPath (settings system (cfg1 progPath)) path
  · exact Or.inl one
  have none := not_exists.mp one
  by_cases two : ∃ path, Supplies system progPath (settings system (cfg2 progPath)) path
  · obtain ⟨path, supplies⟩ := two
    refine Or.inr (Or.inl ⟨path, supplies, ?_⟩)
    cases set : (settings system (cfg1 progPath)).isSet with
    | false => exact Or.inl rfl
    | true =>
      obtain ⟨dirs, starts, -⟩ := reached.second none path supplies
      obtain ⟨rpaths, found, startable⟩ := findLinker_of_starts starts
      have decides := supplies_or_falls found startable
      rw [chosen_first set] at decides
      rcases decides with supplied | ⟨unset | missing, same⟩
      · exact absurd supplied (none path)
      · rw [set] at unset
        cases unset
      · exact Or.inr ⟨missing, same⟩
  · have none' := not_exists.mp two
    refine Or.inr (Or.inr ⟨none, none', fun startable => ?_⟩)
    obtain ⟨dirs, starts, -⟩ := reached.fallback none none' startable
    obtain ⟨rpaths, found, -⟩ := findLinker_of_starts starts
    rcases supplies_or_falls found startable with supplied | ⟨falls, -⟩
    · rcases chosen_either system progPath with same | same
      · exact absurd (same ▸ supplied) (none _)
      · exact absurd (same ▸ supplied) (none' _)
    · exact falls

theorem reached_of_suited (suited : Suited system progPath) : Reached system old argv progPath := by
  refine ⟨fun path supplies => ?_, fun none path supplies => ?_, fun none none' startable => ?_⟩
  · have ⟨linker, given, _, startable⟩ := supplies
    have same := chosen_first (isSet_of_linker given)
    rw [← same] at supplies ⊢
    exact starts_of_findLinker (findLinker_supplied supplies) startable
  · rcases suited with ⟨other, supplies'⟩ | ⟨other, supplies', decides⟩ | ⟨-, none', -⟩
    · exact absurd supplies' (none other)
    · have ⟨linker, given, isLinker, startable⟩ := supplies
      obtain ⟨linker', given', same, -⟩ := supplies'
      cases given.symm.trans given'
      rcases decides with unset | ⟨missing, here⟩
      · rw [← chosen_second unset] at supplies ⊢
        exact ⟨_, starts_of_findLinker (findLinker_supplied supplies) startable, Or.inl rfl⟩
      · have ⟨first, isFirst, _⟩ := missing
        rw [← chosen_first (isSet_of_linker isFirst)] at missing
        have falls := findLinker_fallback (Or.inr missing) (here ▸ same ▸ isLinker ▸ startable)
        rw [← here, same, ← isLinker] at falls
        exact ⟨_, starts_of_findLinker falls startable, Or.inr rfl⟩
    · exact absurd supplies (none' path)
  · rcases suited with ⟨other, supplies⟩ | ⟨other, supplies, -⟩ | ⟨-, -, falls⟩
    · exact absurd supplies (none other)
    · exact absurd supplies (none' other)
    · exact ⟨_, starts_of_findLinker (findLinker_fallback (falls startable) startable) startable, Or.inl rfl⟩

/-- The loader is reached exactly when the configuration files are suited. -/
theorem reached_iff (system : System) (old : Option Text) (argv : List Text) (progPath : Text) :
    Reached system old argv progPath ↔ Suited system progPath :=
  ⟨suited_of_reached, reached_of_suited⟩

/-- The program has its `ld.so`, and a configuration with the directory of its libraries. -/
def bundle : System := listed
  [("/app/prog".toList, .regular true none), ("/app/ld.so".toList, .regular true none),
    ("/app/ld.cfg".toList, .regular false (some "rpath=\"lib\"".toList))]

/-- The program is started without its `ld.so`. -/
theorem bundle_unreached : ¬ Reached bundle none ["prog".toList] "/app/prog".toList := by
  intro reached
  have first : settings bundle (cfg1 "/app/prog".toList) = {} := rfl
  have second : settings bundle (cfg2 "/app/prog".toList) = { rpathRaw := some "lib".toList } := rfl
  obtain ⟨dirs, starts, -⟩ := reached.fallback
    (fun path supplies => by
      rw [first] at supplies
      obtain ⟨linker, given, -⟩ := supplies
      cases given)
    (fun path supplies => by
      rw [second] at supplies
      obtain ⟨linker, given, -⟩ := supplies
      cases given)
    (by decide)
  obtain ⟨rpaths, found, -⟩ := findLinker_of_starts starts
  have none : findLinker bundle "/app/prog".toList = none := rfl
  rw [none] at found
  cases found

end CBuild.Soundness.LoaderFallback
