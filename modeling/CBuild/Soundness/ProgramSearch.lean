import CBuild.Model.Execld

/-! # The program that the shell would run

`execvp` looks in the elements of `PATH` one after the other, an empty one is the current directory, and it starts the
first regular file that is executable. `execld` leaves out the empty elements and takes what `access` accepts.
-/

namespace CBuild.Soundness.ProgramSearch

open CBuild.Model.Execld

variable {system : System} {path name element other found : Text} {before after elements : List Text}

def execPath (element name : Text) : Text := if element = [] then name else element ++ '/' :: name

/-- The file that `execvp` starts. -/
def searched (system : System) (path name : Text) : Option Text :=
  if name = [] then none else ((path.splitOnP (· = ':')).map (execPath · name)).find? system.startable

/-- `execld` finds that file, and none only if there is none. -/
def Agrees (system : System) (path name : Text) : Prop :=
  (∀ wanted, searched system path name = some wanted → ∃ found,
    resolveProgramPath system (some path) name = some found ∧ system.realpath found = system.realpath wanted) ∧
  (searched system path name = none → resolveProgramPath system (some path) name = none)

/-- Nothing is accessible at the elements that are not empty, and nothing is started in the current directory; or the
first that is accessible is a file, and the same one as in the current directory when that comes earlier and has one. -/
def Plain (system : System) (path name : Text) : Prop :=
  (∀ element ∈ path.splitOnP (· = ':'), element ≠ [] → ¬ system.fileExecutable (joinPath element name)) ∧
    ([] ∈ path.splitOnP (· = ':') → ¬ system.startable name) ∨
  name ≠ [] ∧ ∃ before element after, path.splitOnP (· = ':') = before ++ element :: after ∧ element ≠ [] ∧
    (∀ other ∈ before, other ≠ [] → ¬ system.fileExecutable (joinPath other name)) ∧
    system.startable (joinPath element name) ∧
    ([] ∈ before → system.startable name → system.realpath name = system.realpath (joinPath element name))

theorem startable_accessible (startable : system.startable path) : system.fileExecutable path := by
  unfold System.startable at startable
  unfold System.fileExecutable
  split at startable
  · next found => rw [found]; exact startable
  · cases startable

theorem startable_congr (same : system.realpath path = system.realpath other) :
    system.startable path = system.startable other := by
  unfold System.startable System.kind
  rw [same]

theorem not_startable_nil : ¬ system.startable [] := by
  unfold System.startable System.kind
  rw [system.empty]
  exact Bool.false_ne_true

/-- Both paths of an element lead to the same file. -/
theorem realpath_joinPath (given : element ≠ []) (named : name ≠ []) (plain : '/' ∉ name) :
    system.realpath (joinPath element name) = system.realpath (execPath element name) := by
  have relative : name.head? ≠ some '/' := fun slash => plain (List.mem_of_head? slash)
  unfold joinPath execPath
  rw [if_neg named, if_neg relative, if_neg given]
  by_cases slash : element.getLast? = some '/'
  · obtain ⟨dir, rfl⟩ := List.getLast?_eq_some_iff.mp slash
    rw [if_neg fun both => both.2 slash, List.append_nil, List.append_assoc, List.append_assoc]
    exact (system.slashes dir name).symm
  · rw [if_pos ⟨given, slash⟩, List.append_assoc]
    rfl

theorem not_startable_of_not_accessible (given : element ≠ []) (named : name ≠ []) (plain : '/' ∉ name)
    (none : ¬ system.fileExecutable (joinPath element name)) : ¬ system.startable (execPath element name) :=
  fun startable => none (startable_accessible (startable_congr (realpath_joinPath given named plain) ▸ startable))

/-- What `execld` finds is the first that is accessible. -/
theorem resolveProgramPath_eq (plain : '/' ∉ name) : resolveProgramPath system (some path) name =
    ((path.splitOnP (· = ':')).find? fun element => element ≠ [] && system.fileExecutable (joinPath element name)).map
      (joinPath · name) := by
  unfold resolveProgramPath
  rw [if_neg plain]
  cases path with
  | nil => rfl
  | cons c path =>
    unfold resolveProgramInPath strtok
    dsimp only
    rw [List.find?_map, List.find?_filter]
    simp only [Bool.decide_and, Bool.decide_eq_true, Function.comp_apply]

/-- `execvp` starts the file in the current directory if that comes earlier, else the file of the element. -/
theorem searched_eq (named : name ≠ []) (plain : '/' ∉ name)
    (split : path.splitOnP (· = ':') = before ++ element :: after) (given : element ≠ [])
    (none : ∀ other ∈ before, other ≠ [] → ¬ system.fileExecutable (joinPath other name))
    (startable : system.startable (joinPath element name)) : ∃ wanted, searched system path name = some wanted ∧
      ([] ∈ before → system.startable name → wanted = name) ∧
      (¬ ([] ∈ before ∧ system.startable name) → system.realpath wanted = system.realpath (joinPath element name)) := by
  have first : system.startable (execPath element name) := by
    rw [← startable_congr (realpath_joinPath given named plain)]
    exact startable
  unfold searched
  rw [if_neg named, split, List.map_append, List.find?_append]
  cases found : (before.map (execPath · name)).find? system.startable with
  | some wanted =>
    obtain ⟨other, member, rfl⟩ := List.mem_map.mp (List.mem_of_find?_eq_some found)
    have starts : system.startable (execPath other name) := List.find?_some found
    have isEmpty : other = [] := by
      by_contra nonempty
      exact not_startable_of_not_accessible nonempty named plain (none other member nonempty) starts
    subst isEmpty
    exact ⟨name, rfl, fun _ _ => rfl, fun absent => absurd ⟨member, starts⟩ absent⟩
  | none =>
    refine ⟨execPath element name, ?_, fun member starts => ?_, fun _ => (realpath_joinPath given named plain).symm⟩
    · rw [Option.none_or, List.map_cons, List.find?_cons_of_pos first]
    · exact absurd starts (List.find?_eq_none.mp found name (List.mem_map.mpr ⟨[], member, rfl⟩))

/-- The first element that is accessible for `execld`. -/
def accessible (system : System) (path name : Text) : Option Text :=
  (path.splitOnP (· = ':')).find? fun element => element ≠ [] && system.fileExecutable (joinPath element name)

theorem accessible_eq_none : accessible system path name = none ↔
    ∀ element ∈ path.splitOnP (· = ':'), element ≠ [] → ¬ system.fileExecutable (joinPath element name) := by
  unfold accessible
  rw [List.find?_eq_none]
  refine forall₂_congr fun element _ => ?_
  simp

theorem accessible_eq_some : accessible system path name = some element ↔
    (element ≠ [] ∧ system.fileExecutable (joinPath element name)) ∧
      ∃ before after, path.splitOnP (· = ':') = before ++ element :: after ∧
        ∀ other ∈ before, other ≠ [] → ¬ system.fileExecutable (joinPath other name) := by
  unfold accessible
  rw [List.find?_eq_some_iff_append]
  simp [or_iff_not_imp_left]

/-- Where nothing is accessible, the current directory decides. -/
theorem agrees_iff_of_none (plain : '/' ∉ name) (found : accessible system path name = none) :
    Agrees system path name ↔ Plain system path name := by
  have nowhere := accessible_eq_none.mp found
  have misses : resolveProgramPath system (some path) name = none := by
    rw [resolveProgramPath_eq plain, ← accessible, found, Option.map_none]
  unfold Agrees
  rw [misses]
  constructor
  · rintro ⟨finds, -⟩
    refine Or.inl ⟨nowhere, fun member startable => ?_⟩
    have named : name ≠ [] := fun empty => not_startable_nil (empty ▸ startable)
    have starts : ((path.splitOnP (· = ':')).map (execPath · name)).find? system.startable ≠ none := fun none =>
      List.find?_eq_none.mp none name (List.mem_map.mpr ⟨[], member, rfl⟩) startable
    obtain ⟨wanted, first⟩ := Option.ne_none_iff_exists'.mp starts
    obtain ⟨_, absurd', -⟩ := finds wanted (by rw [searched, if_neg named, first])
    cases absurd'
  · rintro (⟨-, current⟩ | ⟨-, before, element, after, split, given, -, startable, -⟩)
    · refine ⟨fun wanted first => ?_, fun _ => rfl⟩
      unfold searched at first
      split at first
      · cases first
      · next named =>
        obtain ⟨element, member, rfl⟩ := List.mem_map.mp (List.mem_of_find?_eq_some first)
        have starts : system.startable (execPath element name) := List.find?_some first
        by_cases given : element = []
        · subst given
          exact absurd starts (current member)
        · exact absurd starts (not_startable_of_not_accessible given named plain (nowhere element member given))
    · have member : element ∈ path.splitOnP (· = ':') := split ▸ List.mem_append_right _ (List.mem_cons_self ..)
      exact absurd (startable_accessible startable) (nowhere element member given)

/-- Where something is accessible, it has to be the file that is started. -/
theorem agrees_iff_of_some (plain : '/' ∉ name) (found : accessible system path name = some element) :
    Agrees system path name ↔ Plain system path name := by
  obtain ⟨given, before, after, split, none⟩ := accessible_eq_some.mp found
  have hits : resolveProgramPath system (some path) name = some (joinPath element name) := by
    rw [resolveProgramPath_eq plain, ← accessible, found, Option.map_some]
  unfold Agrees
  rw [hits]
  constructor
  · rintro ⟨finds, misses⟩
    have hit : searched system path name ≠ Option.none := fun empty => by cases misses empty
    obtain ⟨wanted, first⟩ := Option.ne_none_iff_exists'.mp hit
    obtain ⟨_, same, real⟩ := finds wanted first
    cases same
    have named : name ≠ [] := fun empty => by rw [searched, if_pos empty] at first; cases first
    have starts : system.startable (joinPath element name) := by
      rw [startable_congr real]
      rw [searched, if_neg named] at first
      exact List.find?_some first
    refine Or.inr ⟨named, before, element, after, split, given.1, none, starts, fun member here => ?_⟩
    obtain ⟨_, first', current, -⟩ := searched_eq named plain split given.1 none starts
    cases first.symm.trans first'
    rw [real, current member here]
  · rintro (⟨nowhere, -⟩ | ⟨named, before', element', after', split', given', none', starts, same⟩)
    · have member : element ∈ path.splitOnP (· = ':') := split ▸ List.mem_append_right _ (List.mem_cons_self ..)
      exact absurd given.2 (nowhere element member given.1)
    · have again : accessible system path name = some element' :=
        accessible_eq_some.mpr ⟨⟨given', startable_accessible starts⟩, before', after', split', none'⟩
      have same' : element = element' := Option.some_inj.mp (found.symm.trans again)
      subst same'
      obtain ⟨wanted, first, current, otherwise⟩ := searched_eq named plain split' given' none' starts
      refine ⟨fun wanted' first' => ⟨_, rfl, ?_⟩, fun empty => ?_⟩
      · cases first.symm.trans first'
        by_cases here : [] ∈ before' ∧ system.startable name
        · rw [current here.1 here.2, same here.1 here.2]
        · exact (otherwise here).symm
      · rw [first] at empty
        cases empty

/-- `execld` finds the program of the shell exactly when the elements are plain. -/
theorem agrees_iff (system : System) (path name : Text) (plain : '/' ∉ name) :
    Agrees system path name ↔ Plain system path name := by
  cases found : accessible system path name with
  | none => exact agrees_iff_of_none plain found
  | some element => exact agrees_iff_of_some plain found

/-- A path without doubled slashes. -/
def squeeze : Text → Text
  | [] => []
  | c :: rest => if c = '/' ∧ (squeeze rest).head? = some '/' then squeeze rest else c :: squeeze rest

theorem squeeze_append (first : Text) {second third : Text} (same : squeeze second = squeeze third) :
    squeeze (first ++ second) = squeeze (first ++ third) := by
  induction first with
  | nil => exact same
  | cons c first ih => rw [List.cons_append, List.cons_append, squeeze, squeeze, ih]

theorem squeeze_slashes (text : Text) : squeeze ('/' :: '/' :: text) = squeeze ('/' :: text) := by
  have begins : (squeeze ('/' :: text)).head? = some '/' := by
    rw [squeeze]
    split
    · next both => exact both.2
    · rfl
  rw [squeeze, if_pos ⟨rfl, begins⟩]

def listed (paths : List (Text × Kind)) : System where
  realpath path := if path ≠ [] ∧ squeeze path ∈ paths.map Prod.fst then some (squeeze path) else none
  entry path := (paths.lookup path).getD (.directory true)
  empty := rfl
  slashes first second := by
    have nonempty (rest : Text) : first ++ '/' :: rest ≠ [] := List.append_ne_nil_of_right_ne_nil _ (List.cons_ne_nil _ _)
    rw [squeeze_append first (squeeze_slashes second)]
    simp only [ne_eq, nonempty, not_false_eq_true, true_and]

/-- The tool is in `/usr/bin`, and an earlier element has a directory of its name. -/
def tools : System := listed
  [("/opt/tool".toList, .directory true), ("/usr/bin/tool".toList, .regular true none)]

/-- With `/usr/bin` alone, the tool is found. -/
theorem tool_found : Agrees tools "/usr/bin".toList "tool".toList := by
  refine (agrees_iff tools "/usr/bin".toList "tool".toList (by decide)).mpr (Or.inr ⟨by decide, [], "/usr/bin".toList, [],
    by decide, by decide, nofun, by decide, nofun⟩)

/-- The directory is found. -/
theorem directory_found : ¬ Agrees tools "/opt:/usr/bin".toList "tool".toList := by
  have wanted : searched tools "/opt:/usr/bin".toList "tool".toList = some "/usr/bin/tool".toList := by decide
  have found : resolveProgramPath tools (some "/opt:/usr/bin".toList) "tool".toList = some "/opt/tool".toList := by decide
  rintro ⟨finds, -⟩
  obtain ⟨other, found', same⟩ := finds _ wanted
  cases found.symm.trans found'
  revert same
  decide

end CBuild.Soundness.ProgramSearch
