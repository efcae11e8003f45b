import CBuild.Graph.Acyclic
import CBuild.Model.ProcessCache.DependWalk
import CBuild.Soundness.ArchiveNames
import CBuild.Soundness.TargetLine

/-! # The dependences in the cache key

`get_depend_checksum` appends the checksum of the nearest packages with an archive, along the enabled dependences of
the package. With a list of names by hand its loop is over the word `depends` instead.
-/

namespace CBuild.Soundness.DependWalk

open CBuild.Text CBuild.Graph CBuild.Model.GenBuildChain CBuild.Model.ProcessCache CBuild.Soundness.ArchiveNames
open CBuild.Soundness.TargetLine

section

variable (i : DependInput)

/-- `.config` assigns `y` to the symbol. -/
def Assigned (symbol : Text) : Prop := symbol ++ "=y".toList ∈ i.confpath

instance (symbol : Text) : Decidable (Assigned i symbol) := inferInstanceAs (Decidable (_ ∈ _))

/-- What the `|` in front of a name tells: the name is also that of a prebuilt package, or of an unpatching one. -/
def partner (dep : Text) : Text :=
  if patchPart <:+: dep then replace patchPart unpatchPart dep else prebuildPart ++ dep

/-- The name in a word, and the condition after `@`. -/
def wordParts : Text → Text × Text
  | '?' :: dep | '|' :: dep => (dep, [])
  | word => (((splitOn ['@'] word)[0]?).getD [], ((splitOn ['@'] word)[1]?).getD [])

/-- The package that a word of Target is for, when the symbol of its name is assigned `y` in `.config`. -/
def enabledDep (word : Text) : Option Text :=
  let (dep, condition) := wordParts word
  if Assigned i (configSymbol dep) then if condition = [] ∨ Assigned i condition then some dep else none
  else if word.head? = some '|' ∧ Assigned i (configSymbol (partner dep)) then some (partner dep)
  else none

def lineWords (name : Text) : List Text :=
  (i.targetpath.filter fun line => name ++ "=\"".toList <+: line).flatMap fun line =>
    words ((beforeLast ['"'] (line.drop (name.length + 2))).getD [])

/-- The enabled packages that the words are for. -/
def enabledDeps (name : Text) : List Text := ((lineWords i name).filterMap (enabledDep i)).filter (· ≠ [])

/-- The second is an enabled dependence of the first. -/
def Enabled (first second : Text) : Prop := second ∈ enabledDeps i first

/-- The checksum of the archive of a package, in the order of the grades or under the name of the host. -/
def archiveOf (name : Text) : Option Md5 :=
  (readPrefixes i.toCacheOptions name).findSome? fun prefixname =>
    (i.files.find? fun file => file.packname.toList = name ∧ file.cachePrefix = prefixname).map (·.checksum)

/-- For each of some dependences the checksum of its archive; without one, what its own dependences give. -/
inductive Appends : List Text → List Md5 → Prop
  | nil : Appends [] []
  | cached {name : Text} {names : List Text} {md5 : Md5} {rest : List Md5} :
      archiveOf i name = some md5 → Appends names rest → Appends (name :: names) (md5 :: rest)
  | walked {name : Text} {names : List Text} {below rest : List Md5} :
      archiveOf i name = none → Appends (enabledDeps i name) below → Appends names rest →
      Appends (name :: names) (below ++ rest)

/-- The names on enabled dependence paths from some names, as far as there is no archive. -/
inductive Looks (names : List Text) : Text → Prop
  | here {name : Text} : name ∈ names → Looks names name
  | next {name other : Text} : Looks names name → archiveOf i name = none → other ∈ enabledDeps i name →
      Looks names other

/-- No line of Target is taken for that of the package because of a dot in its name. -/
def OwnLines (name : Text) : Prop :=
  ∀ line ∈ i.targetpath, grepPrefix (name ++ "=\"".toList) line = true → name ++ "=\"".toList <+: line

/-- The symbols that the script looks for tell what is assigned: `tr` makes the symbol of the name, and that of its
prebuilt package. A patching package is enabled, or neither is its unpatching one, nor the symbol found for it. -/
structure Readable (word : Text) : Prop where
  name : grepOnce i.confpath (dashSymbol (translate (wordParts word).1)) = true ↔
    Assigned i (configSymbol (wordParts word).1)
  condition : (wordParts word).2 ≠ [] →
    (grepOnce i.confpath (wordParts word).2 = true ↔ Assigned i (wordParts word).2)
  prebuilt : word.head? = some '|' → ¬ patchPart <:+: (wordParts word).1 →
    (grepOnce i.confpath (dashSymbol (translate (prebuildPart ++ (wordParts word).1))) = true ↔
      Assigned i (configSymbol (prebuildPart ++ (wordParts word).1)))
  patching : word.head? = some '|' → patchPart <:+: (wordParts word).1 →
    Assigned i (configSymbol (wordParts word).1) ∨
      grepOnce i.confpath (dashSymbol
        (replace "_PATCH_".toList "_UNPATCH_".toList (translate (wordParts word).1))) = false ∧
      ¬ Assigned i (configSymbol (replace patchPart unpatchPart (wordParts word).1))

/-- The patterns for a package find no archive of another one. -/
def OwnArchives (name : Text) : Prop :=
  ∀ prefixname ∈ readPrefixes i.toCacheOptions name, ∀ file ∈ i.files,
    patternStem prefixname.toList name <+: archiveStem file → file.packname.toList = name ∧ file.cachePrefix = prefixname

def walkedDeps : List Text :=
  if i.depends = [] then enabledDeps i i.packname
  else if i.depends = "none".toList then []
  else ["depends".toList]

/-- The line of a package is not taken for that of another one, and its words can be read. -/
structure OwnWords (name : Text) : Prop where
  lines : OwnLines i name
  words : ∀ word ∈ lineWords i name, Readable i word

/-- Where the script looks, names are not confused. -/
structure Clear : Prop where
  root : i.depends = [] → OwnWords i i.packname
  archives : ∀ name, Looks i (walkedDeps i) name → OwnArchives i name
  lines : ∀ name, Looks i (walkedDeps i) name → archiveOf i name = none → OwnWords i name

end

variable {i : DependInput} {name : Text} {names : List Text}

/-- `depcache` and the appended lines tell whether there is an archive. -/
inductive Found : Option Md5 → List (CacheFile Md5) × List Text → Prop
  | nothing : Found none ([], [])
  | archive {md5 : Md5} {depcache : List (CacheFile Md5)} : depcache ≠ [] → Found (some md5) (depcache, [md5.text])

theorem Looks.mono {more : List Text} (subset : ∀ name ∈ names, Looks i more name) {other : Text}
    (looks : Looks i names other) : Looks i more other := by
  induction looks with
  | here member => exact subset _ member
  | next _ none member ih => exact .next ih none member

theorem enabledDeps_named {other : Text} (member : other ∈ enabledDeps i name) : other ≠ [] := by
  simpa using (List.mem_filter.mp member).2

/-- Where the script looks from some names, they are not confused. -/
structure ClearFrom (i : DependInput) (names : List Text) : Prop where
  named : ∀ name ∈ names, name ≠ []
  archives : ∀ name, Looks i names name → OwnArchives i name
  lines : ∀ name, Looks i names name → archiveOf i name = none → OwnWords i name

theorem ClearFrom.tail (clear : ClearFrom i (name :: names)) : ClearFrom i names where
  named other member := clear.named other (List.mem_cons_of_mem _ member)
  archives other looks := clear.archives other (looks.mono fun _ member => .here (List.mem_cons_of_mem _ member))
  lines other looks := clear.lines other (looks.mono fun _ member => .here (List.mem_cons_of_mem _ member))

theorem ClearFrom.down (clear : ClearFrom i (name :: names)) (none : archiveOf i name = none) :
    ClearFrom i (enabledDeps i name) where
  named _ member := enabledDeps_named member
  archives other looks := clear.archives other (looks.mono fun _ member => .next (.here (List.mem_cons_self ..)) none member)
  lines other looks := clear.lines other (looks.mono fun _ member => .next (.here (List.mem_cons_self ..)) none member)

section

variable {auto : Text → List (CacheFile Md5) → Option (List (CacheFile Md5) × List Text)}
  {depcache after : List (CacheFile Md5)} {lines : List Text}

end

theorem Appends.unique {first second : List Md5} (one : Appends i names first) (other : Appends i names second) :
    first = second := by
  induction one generalizing second with
  | nil =>
    cases other
    rfl
  | cached archive _ ih =>
    cases other with
    | cached archive' rest =>
      rw [archive] at archive'
      cases archive'
      rw [ih rest]
    | walked none => simp [archive] at none
  | walked none _ _ down ih =>
    cases other with
    | cached archive => simp [archive] at none
    | walked _ below rest => rw [down below, ih rest]

theorem Looks.cases {other : Text} (looks : Looks i (name :: names) other) :
    other = name ∨ Looks i names other ∨ archiveOf i name = none ∧ Looks i (enabledDeps i name) other := by
  induction looks with
  | here member => exact (List.mem_cons.mp member).imp id fun member => .inl (.here member)
  | next _ none member ih =>
    rcases ih with rfl | later | ⟨above, below⟩
    · exact .inr (.inr ⟨none, .here member⟩)
    · exact .inr (.inl (.next later none member))
    · exact .inr (.inr ⟨above, .next below none member⟩)

theorem Clear.from (clear : Clear i) : ClearFrom i (walkedDeps i) where
  named name member := by
    unfold walkedDeps at member
    split at member
    · exact enabledDeps_named member
    · split at member
      · cases member
      · rw [List.mem_singleton.mp member]
        decide
  archives := clear.archives
  lines := clear.lines

variable (i)

end CBuild.Soundness.DependWalk
