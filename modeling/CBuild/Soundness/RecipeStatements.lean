import CBuild.Soundness.RecipeDeps

/-! # The statements of a recipe

A recipe is made of `DEPENDS` and `PACKAGECONFIG` statements and of others. `analyze_recipe` finds the words of the
first, each once, and the features of the second, however the statements are spread over lines.
-/

namespace CBuild.Soundness.RecipeStatements

open CBuild.Text CBuild.Text.Folding CBuild.Model CBuild.Model.GenBuildChain CBuild.Model.GenPackageInfos
  CBuild.Model.ConvertRecipe
  LineFolding RecipeDeps

variable {line text group first rest : Text} {c : Char} {info info' : PkgInfo} {kind : Kind}

def addEach (depends items : List Text) : List Text :=
  items.foldl (fun depends item => if item ∈ depends then depends else depends ++ [item]) depends

theorem addEach_eq (depends items : List Text) :
    addEach depends items = depends ++ (items.filter (· ∉ depends)).eraseDups := by
  induction items generalizing depends with
  | nil => exact (List.append_nil _).symm
  | cons item items ih =>
    change addEach (if item ∈ depends then depends else depends ++ [item]) items = _
    by_cases known : item ∈ depends
    · rw [if_pos known, ih, List.filter_cons_of_neg (by simpa using known)]
    · rw [if_neg known, ih, List.filter_cons_of_pos (by simpa using known), List.eraseDups_cons, List.filter_filter,
        List.append_assoc, List.singleton_append]
      congr 4
      funext other
      by_cases same : other = item <;> simp [same]

/-- Words that are left out do not change the others. -/
theorem filter_addEach (kept : Text → Bool) (depends items : List Text) :
    (addEach depends items).filter kept = addEach (depends.filter kept) (items.filter kept) := by
  induction items generalizing depends with
  | nil => rfl
  | cons item items ih =>
    change (addEach (if item ∈ depends then depends else depends ++ [item]) items).filter kept = _
    rw [ih]
    cases keep : kept item with
    | false =>
      rw [List.filter_cons_of_neg (by rw [keep]; exact Bool.false_ne_true)]
      split
      · rfl
      · rw [List.filter_append, List.filter_cons_of_neg (by rw [keep]; exact Bool.false_ne_true), List.filter_nil,
          List.append_nil]
    | true =>
      rw [List.filter_cons_of_pos keep]
      have same : item ∈ depends.filter kept ↔ item ∈ depends := by rw [List.mem_filter, keep, eq_self, and_true]
      change _ = addEach (if item ∈ depends.filter kept then _ else _) _
      simp only [same]
      split
      · rfl
      · rw [List.filter_append, List.filter_cons_of_pos keep, List.filter_nil]

theorem addEach_append (depends first second : List Text) :
    addEach depends (first ++ second) = addEach (addEach depends first) second := List.foldl_append

/-- What a line adds to the text of an open statement. -/
def joined (group val : Text) : Text := if val = [] then group else if group = [] then val else group ++ ' ' :: val

theorem words_joined (group val : Text) : words (joined group val) = words group ++ words val := by
  unfold joined
  split
  · rename_i none
    rw [none]
    exact (List.append_nil _).symm
  split
  · rename_i none
    rw [none]
    rfl
  · exact words_append (by decide) group val

/-- The value of a statement: parts with a backslash behind them, and a last one with another character. -/
structure Value where
  parts : List Text
  last : Text
  closing : Char
  closes : closing ≠ '\\'

/-- The lines of a value, the first behind a head. -/
def valueLines (last : Text) (closing : Char) : Text → List Text → List Text
  | head, [] => [head ++ last ++ [closing]]
  | head, part :: parts => (head ++ part ++ ['\\']) :: valueLines last closing [] parts

def Value.lines (value : Value) (head : Text) : List Text := valueLines value.last value.closing head value.parts

def Value.words (value : Value) : List Text := (value.parts ++ [value.last]).flatMap Text.words

/-- The last lines of a statement that is open. -/
theorem readLines_open (value : Value) (group : Text) (info : PkgInfo) :
    ∃ group', words group' = words group ++ value.words ∧
      (value.lines []).foldl Analyzer.readLine ⟨some kind, group, info⟩ = ⟨none, group', info.store group' kind⟩ := by
  obtain ⟨parts, last, closing, closes⟩ := value
  unfold Value.lines Value.words
  dsimp only
  induction parts generalizing group with
  | nil =>
    refine ⟨joined group (strip last), ?_, ?_⟩
    · rw [words_joined, List.nil_append, List.flatMap_singleton]
      exact congrArg _ (words_bare last)
    · rw [valueLines, List.foldl_cons, List.foldl_nil, List.nil_append, Analyzer.readLine]
      dsimp only
      rw [List.dropLast_concat, List.getLast?_concat, if_neg fun same => closes (Option.some.inj same)]
      rfl
  | cons part parts ih =>
    obtain ⟨group', same, run⟩ := ih (joined group (strip part))
    refine ⟨group', ?_, ?_⟩
    · rw [same, words_joined, List.cons_append, List.flatMap_cons, List.append_assoc]
      exact congrArg (fun words' => words group ++ (words' ++ _)) (words_bare part)
    · rw [valueLines, List.foldl_cons, ← run]
      refine congrArg (List.foldl _ · _) ?_
      rw [List.nil_append, Analyzer.readLine]
      dsimp only
      rw [List.dropLast_concat, List.getLast?_concat, if_pos rfl]
      rfl

/-- A statement on its first line, where the regular expression takes what is behind the head. -/
theorem readLines_value (value : Value) (head lastGroup : Text) (info info' : PkgInfo)
    (opens : ∀ text last, (value.parts ++ [value.last]).head? = some text → (last = '\\' ∨ last = value.closing) →
      Analyzer.beginLine ⟨none, lastGroup, info⟩ (head ++ text ++ [last]) =
        Analyzer.start ⟨none, lastGroup, info'⟩ kind (text ++ [last])) :
    ∃ group lastGroup', words group = value.words ∧
      (value.lines head).foldl Analyzer.readLine ⟨none, lastGroup, info⟩ =
        ⟨none, lastGroup', info'.store group kind⟩ := by
  obtain ⟨parts, last, closing, closes⟩ := value
  cases parts with
  | nil =>
    refine ⟨strip last, lastGroup, ?_, ?_⟩
    · exact (words_bare last).trans (List.flatMap_singleton ..).symm
    · change Analyzer.beginLine _ (head ++ last ++ [closing]) = _
      rw [opens last closing rfl (.inr rfl), Analyzer.start, List.getLast?_concat, List.dropLast_concat,
        if_neg fun same => closes (Option.some.inj same)]
  | cons part parts =>
    obtain ⟨group, same, run⟩ := @readLines_open kind ⟨parts, last, closing, closes⟩ (strip part) info'
    refine ⟨group, group, ?_, ?_⟩
    · exact same.trans (congrArg (· ++ _) (words_bare part))
    · rw [← run]
      change List.foldl _ (Analyzer.beginLine _ (head ++ part ++ ['\\'])) _ = _
      rw [opens part '\\' rfl (.inl rfl), Analyzer.start, List.getLast?_concat, List.dropLast_concat, if_pos rfl]
      rfl

/-- Neither word begins the other. -/
def Apart (word word' : String) : Prop := ¬ word.toList <+: word'.toList ∧ ¬ word'.toList <+: word.toList

instance instDecidableApart (word word' : String) : Decidable (Apart word word') :=
  inferInstanceAs (Decidable (_ ∧ _))

theorem Apart.behind {word word' : String} (apart : Apart word word') (begins : word'.toList <+: line) :
    behind word line = none :=
  behind_none fun other => (List.prefix_or_prefix_of_prefix other begins).elim apart.1 apart.2

theorem matchOpen_apart {word word' : String} (apart : Apart word word') (begins : word'.toList <+: line) :
    matchOpen word line = none := by
  rw [matchOpen, apart.behind begins]
  rfl

theorem matchClosed_apart {word word' : String} (apart : Apart word word') (begins : word'.toList <+: line) :
    matchClosed word line = none := by
  rw [matchClosed, matchOpen_apart apart begins]
  rfl

theorem matchFlags_apart {word : String} (apart : Apart "EXTRA_OE" word) (begins : word.toList <+: line) :
    matchFlags line = none := by
  rw [matchFlags, apart.behind begins]
  rfl

theorem matchDepends_apart {word : String} (runtime : Apart "RDEPENDS" word) (apart : Apart "DEPENDS" word)
    (begins : word.toList <+: line) : matchDepends line = none := by
  rw [matchDepends, runtime.behind begins, apart.behind begins]
  rfl

theorem behind_some {word : String} (found : behind word line = some rest) : line = word.toList ++ rest := by
  unfold behind at found
  split at found
  · rename_i begins
    obtain ⟨rest', rfl⟩ := List.isPrefixOf_iff_prefix.mp begins
    rw [List.drop_left] at found
    rw [Option.some.inj found]
  · cases found

theorem skip_suffix (text : Text) : skip text <:+ text := List.dropWhile_suffix blank

theorem matchValue_suffix (found : matchValue text = some group) : '"' :: group <:+ text := by
  have split : "\"".toList = ['"'] := by decide
  have whole := behind_some found
  rw [split, List.singleton_append] at whole
  exact whole ▸ skip_suffix text

theorem matchOpen_some {name : String} (found : matchOpen name line = some group) :
    name.toList <+: line ∧ '"' :: group <:+ line := by
  unfold matchOpen at found
  obtain ⟨rest, assigned, value⟩ := Option.bind_eq_some_iff.mp found
  obtain ⟨rest', named, assigned⟩ := Option.bind_eq_some_iff.mp assigned
  have later : rest <:+ rest' := (List.suffix_append ..).trans (behind_some assigned ▸ skip_suffix rest')
  have whole := behind_some named
  exact ⟨whole ▸ List.prefix_append .., (matchValue_suffix value).trans (later.trans (whole ▸ List.suffix_append ..))⟩

theorem lastAssigned_suffix {last : Char} (found : lastAssigned last text = some group) : '"' :: group <:+ text := by
  induction text generalizing last with
  | nil =>
    rw [lastAssigned] at found
    split at found
    · exact matchValue_suffix found
    · cases found
  | cons c text ih =>
    rw [lastAssigned, Option.or_eq_some_iff] at found
    rcases found with later | ⟨-, here⟩
    · exact (ih later).trans (List.suffix_cons ..)
    · split at here
      · exact matchValue_suffix here
      · cases here

theorem matchAssigned_suffix (found : matchAssigned text = some group) : '"' :: group <:+ text := by
  cases text with
  | nil => cases found
  | cons c text =>
    rw [matchAssigned] at found
    split at found
    · exact (lastAssigned_suffix found).trans (List.suffix_cons ..)
    · cases found

theorem matchFlags_some {method : Text} (found : matchFlags line = some (method, group)) :
    "EXTRA_OE".toList <+: line ∧ '"' :: group <:+ line := by
  unfold matchFlags at found
  obtain ⟨rest, named, chosen⟩ := Option.bind_eq_some_iff.mp found
  obtain ⟨name, -, chosen⟩ := List.exists_of_findSome?_eq_some chosen
  obtain ⟨value, taken, pair⟩ := Option.map_eq_some_iff.mp chosen
  obtain ⟨rfl, rfl⟩ := Prod.mk.inj pair
  obtain ⟨rest', method, assigned⟩ := Option.bind_eq_some_iff.mp taken
  have whole := behind_some named
  have later := behind_some method
  exact ⟨whole ▸ List.prefix_append .., (matchAssigned_suffix assigned).trans
    ((later ▸ List.suffix_append ..).trans (whole ▸ List.suffix_append ..))⟩

/-- A value goes on where its line does. -/
theorem getLast?_value (value : '"' :: group <:+ line) : group.getLast? = some '\\' ↔ line.getLast? = some '\\' := by
  rw [← getLast?_suffix value (List.cons_ne_nil _ _), List.getLast?_cons]
  cases group.getLast? with
  | none => decide
  | some c => rfl

/-- The lines that open a statement of another kind, which goes on behind a backslash. -/
def opensOther (line : Text) : Bool :=
  (matchOpen "LIC_FILES_CHKSUM" line).isSome || (matchOpen "DESCRIPTION" line).isSome || (matchFlags line).isSome

/-- What the conversion keeps of the dependences. -/
structure Same (info info' : PkgInfo) : Prop where
  package : info'.package = info.package
  depends : info'.depends = info.depends
  pkgconfig : info'.pkgconfig = info.pkgconfig

theorem Same.trans {info'' : PkgInfo} (first : Same info info') (second : Same info' info'') : Same info info'' :=
  ⟨second.package.trans first.package, second.depends.trans first.depends, second.pkgconfig.trans first.pkgconfig⟩

theorem store_same (other : kind ≠ .depends) (info : PkgInfo) (group : Text) : Same info (info.store group kind) := by
  cases kind with
  | depends => exact absurd rfl other
  | _ => exact ⟨rfl, rfl, rfl⟩

variable {lastGroup : Text}

theorem start_closed (other : kind ≠ .depends) (ends : group.getLast? ≠ some '\\') (same : Same info info') :
    ∃ info'', Same info info'' ∧ Analyzer.start ⟨none, lastGroup, info'⟩ kind group = ⟨none, lastGroup, info''⟩ := by
  refine ⟨info'.store (strip group.dropLast) kind, same.trans (store_same other info' _), ?_⟩
  rw [Analyzer.start, if_neg ends]

/-- A line of no dependences and no feature, which opens nothing. -/
structure Aside where
  line : Text
  depends : matchDepends line = none
  feature : matchPkgconfig line = none
  ends : opensOther line = true → line.getLast? ≠ some '\\'

theorem beginLine_aside (aside : Aside) (lastGroup : Text) (info : PkgInfo) :
    ∃ info', Same info info' ∧ Analyzer.beginLine ⟨none, lastGroup, info⟩ aside.line = ⟨none, lastGroup, info'⟩ := by
  have whole : Same info info := ⟨rfl, rfl, rfl⟩
  unfold Analyzer.beginLine
  cases matchClosed "LICENSE" aside.line with
  | some group => exact ⟨{ info with license := strip group }, ⟨rfl, rfl, rfl⟩, rfl⟩
  | none =>
  cases licfile : matchOpen "LIC_FILES_CHKSUM" aside.line with
  | some group =>
    have ends := aside.ends (by rw [opensOther, licfile]; rfl)
    exact start_closed (by decide) (fun last => ends ((getLast?_value (matchOpen_some licfile).2).mp last)) whole
  | none =>
  cases matchClosed "HOMEPAGE" aside.line with
  | some group => exact ⟨{ info with homepage := strip group }, ⟨rfl, rfl, rfl⟩, rfl⟩
  | none =>
  cases description : matchOpen "DESCRIPTION" aside.line with
  | some group =>
    have ends := aside.ends (by rw [opensOther, licfile, description]; rfl)
    exact start_closed (by decide) (fun last => ends ((getLast?_value (matchOpen_some description).2).mp last)) whole
  | none =>
  cases matchOpen "SRC_URI" aside.line with
  | some group => exact ⟨{ info with srcuri := strip group.dropLast }, ⟨rfl, rfl, rfl⟩, rfl⟩
  | none =>
  cases flags : matchFlags aside.line with
  | some found =>
    have ends := aside.ends (by rw [opensOther, licfile, description, flags]; rfl)
    have same : Same info { info with method := found.1 } := ⟨rfl, rfl, rfl⟩
    exact start_closed (by decide) (fun last => ends ((getLast?_value (matchFlags_some flags).2).mp last)) same
  | none =>
  rw [aside.depends, aside.feature]
  exact ⟨info, whole, rfl⟩

/-- A statement of another kind on several lines. -/
structure Long where
  first : Text
  opens : opensOther first = true
  ends : first.getLast? = some '\\'
  others : Value

theorem start_open (ends : group.getLast? = some '\\') (info' : PkgInfo) :
    Analyzer.start ⟨none, lastGroup, info'⟩ kind group = ⟨some kind, strip group.dropLast, info'⟩ := by
  rw [Analyzer.start, if_pos ends]

theorem beginLine_long (long : Long) (lastGroup : Text) (info : PkgInfo) :
    ∃ kind group info', kind ≠ .depends ∧ Same info info' ∧
      Analyzer.beginLine ⟨none, lastGroup, info⟩ long.first = ⟨some kind, group, info'⟩ := by
  have opens := long.opens
  rw [opensOther, Bool.or_eq_true, Bool.or_eq_true, Option.isSome_iff_exists, Option.isSome_iff_exists,
    Option.isSome_iff_exists] at opens
  have ends {group : Text} (value : '"' :: group <:+ long.first) := (getLast?_value value).mpr long.ends
  unfold Analyzer.beginLine
  rcases opens with (⟨group, licfile⟩ | ⟨group, description⟩) | ⟨⟨method, group⟩, flags⟩
  · obtain ⟨begins, value⟩ := matchOpen_some licfile
    rw [matchClosed_apart (by decide) begins, licfile]
    exact ⟨.licfile, _, info, by decide, ⟨rfl, rfl, rfl⟩, start_open (ends value) info⟩
  · obtain ⟨begins, value⟩ := matchOpen_some description
    rw [matchClosed_apart (by decide) begins, matchOpen_apart (by decide) begins, matchClosed_apart (by decide) begins,
      description]
    exact ⟨.description, _, info, by decide, ⟨rfl, rfl, rfl⟩, start_open (ends value) info⟩
  · obtain ⟨begins, value⟩ := matchFlags_some flags
    rw [matchClosed_apart (by decide) begins, matchOpen_apart (by decide) begins, matchClosed_apart (by decide) begins,
      matchOpen_apart (by decide) begins, matchOpen_apart (by decide) begins, flags]
    exact ⟨.flags, _, { info with method }, by decide, ⟨rfl, rfl, rfl⟩, start_open (ends value) _⟩

theorem readLines_long (long : Long) (lastGroup : Text) (info : PkgInfo) :
    ∃ lastGroup' info', Same info info' ∧ (long.first :: long.others.lines []).foldl Analyzer.readLine
      ⟨none, lastGroup, info⟩ = ⟨none, lastGroup', info'⟩ := by
  obtain ⟨kind, group, info', other, same, begun⟩ := beginLine_long long lastGroup info
  obtain ⟨group', -, run⟩ := @readLines_open kind long.others group info'
  refine ⟨group', _, same.trans (store_same other info' group'), ?_⟩
  rw [List.foldl_cons, ← run]
  exact congrArg (List.foldl _ · _) begun

/-- What is in front of the value of a `DEPENDS` statement: its name, an operation that ends in `=`, blanks, a mark. -/
structure DependsHead where
  name : String
  named : name = "DEPENDS" ∨ name = "RDEPENDS"
  operation : Text
  begins : ∀ c, (operation ++ ['=']).head? = some c → oneOf "=:+" c = true ∨ blank c = true
  gap : Text
  blanks : Blank gap

def DependsHead.start (head : DependsHead) : Text :=
  head.name.toList ++ (head.operation ++ '=' :: (head.gap ++ ['"']))

theorem lastAssigned_none {last : Char} (other : last ≠ '=') (absent : '=' ∉ text) : lastAssigned last text = none := by
  induction text generalizing last with
  | nil => exact if_neg other
  | cons c text ih =>
    obtain ⟨here, later⟩ := not_or.mp (mt List.mem_cons.mpr absent)
    rw [lastAssigned, ih (Ne.symm here) later, if_neg other]
    rfl

theorem matchValue_line {gap : Text} (blanks : Blank gap) (group : Text) :
    matchValue (gap ++ '"' :: group) = some group := by
  rw [matchValue, skip_blank blanks, skip_other (by decide)]
  exact behind_append "\"" group

/-- The last `=` in front of a quotation mark is the one of the statement. -/
theorem lastAssigned_line {gap : Text} (blanks : Blank gap) (absent : '=' ∉ group) (last : Char) (operation : Text) :
    lastAssigned last (operation ++ '=' :: (gap ++ '"' :: group)) = some group := by
  induction operation generalizing last with
  | nil =>
    have later : lastAssigned '=' (gap ++ '"' :: group) = some group := by
      have plain : '=' ∉ gap ++ '"' :: group := fun member => by
        rcases List.mem_append.mp member with inside | inside
        · exact absurd (blanks _ inside) (by decide)
        · exact absent ((List.mem_cons.mp inside).resolve_left (by decide))
      have found := matchValue_line blanks group
      cases whole : gap ++ '"' :: group with
      | nil => exact absurd whole (List.append_ne_nil_of_right_ne_nil _ (List.cons_ne_nil _ _))
      | cons c rest =>
        rw [whole] at plain found
        obtain ⟨here, later⟩ := not_or.mp (mt List.mem_cons.mpr plain)
        rw [lastAssigned, lastAssigned_none (Ne.symm here) later, if_pos rfl, found]
        rfl
    rw [List.nil_append, lastAssigned, later]
    rfl
  | cons c operation ih =>
    rw [List.cons_append, lastAssigned, ih c]
    rfl

theorem matchAssigned_line (head : DependsHead) (absent : '=' ∉ group) :
    matchAssigned (head.operation ++ '=' :: (head.gap ++ '"' :: group)) = some group := by
  have begins := head.begins
  cases split : head.operation with
  | nil =>
    rw [split] at begins
    have whole := lastAssigned_line head.blanks absent ' ' []
    rw [List.nil_append, lastAssigned, if_neg (by decide), Option.or_none] at whole
    rw [List.nil_append, matchAssigned, if_pos (by decide)]
    exact whole
  | cons c operation =>
    rw [split] at begins
    have shown : (oneOf "=:+" c || blank c) = true := Bool.or_eq_true _ _ |>.mpr (begins c rfl)
    rw [List.cons_append, matchAssigned, if_pos shown]
    exact lastAssigned_line head.blanks absent c operation

theorem matchDepends_line (head : DependsHead) (absent : '=' ∉ group) :
    matchDepends (head.start ++ group) = some group := by
  have split : head.start ++ group = head.name.toList ++ (head.operation ++ '=' :: (head.gap ++ '"' :: group)) := by
    simp only [DependsHead.start, List.append_assoc, List.cons_append, List.nil_append]
  rw [split, matchDepends]
  rcases head.named with named | named
  · rw [named, @Apart.behind _ "RDEPENDS" "DEPENDS" (by decide) (List.prefix_append ..), behind_append]
    exact matchAssigned_line head absent
  · rw [named, behind_append]
    exact matchAssigned_line head absent

theorem beginLine_depends (head : DependsHead) (absent : '=' ∉ group) (lastGroup : Text) (info : PkgInfo) :
    Analyzer.beginLine ⟨none, lastGroup, info⟩ (head.start ++ group) =
      Analyzer.start ⟨none, lastGroup, info⟩ .depends group := by
  have begins : head.name.toList <+: head.start ++ group := (List.prefix_append ..).trans (List.prefix_append ..)
  have apart (word : String) (runtime : Apart word "RDEPENDS") (plain : Apart word "DEPENDS") : Apart word head.name :=
    head.named.elim (fun named => named ▸ plain) fun named => named ▸ runtime
  unfold Analyzer.beginLine
  rw [matchClosed_apart (apart _ (by decide) (by decide)) begins,
    matchOpen_apart (apart _ (by decide) (by decide)) begins,
    matchClosed_apart (apart _ (by decide) (by decide)) begins,
    matchOpen_apart (apart _ (by decide) (by decide)) begins,
    matchOpen_apart (apart _ (by decide) (by decide)) begins, matchFlags_apart (apart _ (by decide) (by decide)) begins,
    matchDepends_line head absent]

/-- A `DEPENDS` statement; its first line has no other `=`. -/
structure Depends where
  head : DependsHead
  value : Value
  plain : ∀ text, (value.parts ++ [value.last]).head? = some text → '=' ∉ text
  closing : value.closing ≠ '='

theorem readLines_depends (depends : Depends) (lastGroup : Text) (info : PkgInfo) :
    ∃ group lastGroup', words group = depends.value.words ∧
      (depends.value.lines depends.head.start).foldl Analyzer.readLine ⟨none, lastGroup, info⟩ =
        ⟨none, lastGroup', info.store group .depends⟩ := by
  refine readLines_value depends.value depends.head.start lastGroup info info fun text last first ends => ?_
  have absent : '=' ∉ text ++ [last] := fun member => by
    rcases List.mem_append.mp member with inside | inside
    · exact depends.plain text first inside
    · have same := List.mem_singleton.mp inside
      rcases ends with rfl | rfl
      · exact absurd same (by decide)
      · exact depends.closing same.symm
  rw [List.append_assoc]
  exact beginLine_depends depends.head absent lastGroup info

/-- A `PACKAGECONFIG` statement. -/
structure FeatureLine where
  name : Text
  value : Text
  gap : Text
  gap' : Text
  behind : Text
  some : name ≠ []
  chars : ∀ c ∈ name, (blank c || wordChar c || oneOf "-./" c) = true
  blanks : Blank gap
  blanks' : Blank gap'
  closes : '"' ∉ behind

def FeatureLine.whole (feature : FeatureLine) : Text :=
  "PACKAGECONFIG[".toList ++ (feature.name ++ ']' :: (feature.gap ++ '=' :: (feature.gap' ++ '"' ::
    (feature.value ++ '"' :: feature.behind))))

theorem matchPkgconfig_line (feature : FeatureLine) :
    matchPkgconfig feature.whole = some (feature.name, feature.value) := by
  have char (c : Char) (rest : Text) : behind (String.singleton c) (c :: rest) = some rest := by
    have whole := behind_append (String.singleton c) rest
    rwa [String.toList_singleton, List.singleton_append] at whole
  have taken : span1 (fun c => blank c || wordChar c || oneOf "-./" c) (feature.name ++ ']' :: (feature.gap ++ '=' ::
      (feature.gap' ++ '"' :: (feature.value ++ '"' :: feature.behind)))) =
        some (feature.name, ']' :: (feature.gap ++ '=' :: (feature.gap' ++ '"' ::
          (feature.value ++ '"' :: feature.behind)))) := by
    rw [span1, span, List.takeWhile_append_of_pos feature.chars, List.takeWhile_cons_of_neg (by decide),
      List.append_nil,
      List.dropWhile_append_of_pos feature.chars, List.dropWhile_cons_of_neg (by decide), if_neg feature.some]
  unfold matchPkgconfig FeatureLine.whole
  rw [behind_append]
  simp only [Option.bind_eq_bind, Option.bind_some, taken]
  rw [show "]" = String.singleton ']' from rfl, char]
  simp only [Option.bind_some]
  rw [skip_blank feature.blanks, skip_other (by decide), show "=" = String.singleton '=' from rfl, char]
  simp only [Option.bind_some]
  rw [matchValue_line feature.blanks']
  simp only [Option.bind_some]
  rw [beforeLast_char feature.closes]
  rfl

theorem readLine_feature (feature : FeatureLine) (lastGroup : Text) (info : PkgInfo) :
    Analyzer.beginLine ⟨none, lastGroup, info⟩ feature.whole = ⟨none, lastGroup,
      { info with pkgconfig := info.pkgconfig ++ [featureOf feature.name feature.value] }⟩ := by
  have begins : "PACKAGECONFIG[".toList <+: feature.whole := List.prefix_append ..
  unfold Analyzer.beginLine
  rw [matchClosed_apart (by decide) begins, matchOpen_apart (by decide) begins, matchClosed_apart (by decide) begins,
    matchOpen_apart (by decide) begins, matchOpen_apart (by decide) begins, matchFlags_apart (by decide) begins,
    matchDepends_apart (by decide) (by decide) begins, matchPkgconfig_line]

/-- The parts of a recipe. -/
inductive Block where
  | depends (statement : Depends)
  | feature (statement : FeatureLine)
  | long (statement : Long)
  | aside (other : Aside)

def Block.lines : Block → List Text
  | .depends statement => statement.value.lines statement.head.start
  | .feature statement => [statement.whole]
  | .long statement => statement.first :: statement.others.lines []
  | .aside other => [other.line]

def Block.words : Block → List Text
  | .depends statement => (statement.value.words.map unvirtual).filter (· ≠ [])
  | _ => []

def Block.features : Block → List ConvertRecipe.Feature
  | .feature statement => [featureOf statement.name statement.value]
  | _ => []

/-- What a part adds. -/
structure Adds (words : List Text) (features : List ConvertRecipe.Feature) (info info' : PkgInfo) : Prop where
  package : info'.package = info.package
  depends : info'.depends.filter (· ≠ []) = addEach (info.depends.filter (· ≠ [])) words
  pkgconfig : info'.pkgconfig = info.pkgconfig ++ features

theorem Same.adds (same : Same info info') : Adds [] [] info info' :=
  ⟨same.package, congrArg _ same.depends, same.pkgconfig.trans (List.append_nil _).symm⟩

theorem filter_resplit (text : Text) : (resplit text).filter (· ≠ []) = words text := by
  unfold resplit
  split
  · rename_i none
    rw [none]
    rfl
  · have words_some : (words text).filter (· ≠ []) = words text := by
      rw [words, List.filter_filter]
      exact List.filter_congr fun word _ => Bool.and_self _
    rw [List.filter_append, List.filter_append, words_some]
    split <;> split <;> simp

theorem words_unvirtual (text : Text) : words (unvirtual text) = ((words text).map unvirtual).filter (· ≠ []) :=
  words_replace (by decide) [] (by decide) (fun c member => absurd member List.not_mem_nil) text

/-- One part of a recipe is read. -/
theorem readLines_block (block : Block) (lastGroup : Text) (info : PkgInfo) :
    ∃ lastGroup' info', Adds block.words block.features info info' ∧
      block.lines.foldl Analyzer.readLine ⟨none, lastGroup, info⟩ = ⟨none, lastGroup', info'⟩ := by
  cases block with
  | depends depends =>
    obtain ⟨group, lastGroup', same, run⟩ := readLines_depends depends lastGroup info
    refine ⟨lastGroup', info.store group .depends, ⟨rfl, ?_, (List.append_nil _).symm⟩, run⟩
    change (addEach info.depends (resplit (unvirtual group))).filter _ =
      addEach _ ((depends.value.words.map _).filter _)
    rw [filter_addEach, filter_resplit, words_unvirtual, same]
  | feature feature =>
    have run := readLine_feature feature lastGroup info
    refine ⟨lastGroup, { info with pkgconfig := info.pkgconfig ++ [featureOf feature.name feature.value] }, ?_, run⟩
    exact ⟨rfl, rfl, rfl⟩
  | long long =>
    obtain ⟨lastGroup', info', same, run⟩ := readLines_long long lastGroup info
    exact ⟨lastGroup', info', same.adds, run⟩
  | aside aside =>
    obtain ⟨info', same, run⟩ := beginLine_aside aside lastGroup info
    exact ⟨lastGroup, info', same.adds, run⟩

theorem readLines_blocks (blocks : List Block) (lastGroup : Text) (info : PkgInfo) :
    ∃ lastGroup' info', Adds (blocks.flatMap Block.words) (blocks.flatMap Block.features) info info' ∧
      (blocks.flatMap Block.lines).foldl Analyzer.readLine ⟨none, lastGroup, info⟩ = ⟨none, lastGroup', info'⟩ := by
  induction blocks generalizing lastGroup info with
  | nil => exact ⟨lastGroup, info, Same.adds ⟨rfl, rfl, rfl⟩, rfl⟩
  | cons block blocks ih =>
    obtain ⟨lastGroup', info', first, run⟩ := readLines_block block lastGroup info
    obtain ⟨lastGroup'', info'', rest, run'⟩ := ih lastGroup' info'
    refine ⟨lastGroup'', info'', ⟨rest.package.trans first.package, ?_, ?_⟩, ?_⟩
    · rw [rest.depends, first.depends, List.flatMap_cons, addEach_append]
    · rw [rest.pkgconfig, first.pkgconfig, List.flatMap_cons, List.append_assoc]
    · rw [List.flatMap_cons, List.foldl_append, run, run']

variable {blocks : List Block} {basename : Text}

/-- What is known of a recipe: each name once, in the order of the recipe, and all features. -/
theorem analyzeRecipe_blocks (basename : Text) (blocks : List Block) :
    (analyzeRecipe basename (blocks.flatMap Block.lines)).package = packageOf basename ∧
    (analyzeRecipe basename (blocks.flatMap Block.lines)).depends.filter (· ≠ []) =
      (blocks.flatMap Block.words).eraseDups ∧
    (analyzeRecipe basename (blocks.flatMap Block.lines)).pkgconfig = blocks.flatMap Block.features := by
  obtain ⟨lastGroup, info, adds, run⟩ := readLines_blocks blocks [] { package := packageOf basename }
  have whole : analyzeRecipe basename (blocks.flatMap Block.lines) = info := congrArg Analyzer.info run
  rw [whole]
  refine ⟨adds.package, adds.depends.trans ?_, adds.pkgconfig⟩
  rw [List.filter_nil, addEach_eq, List.nil_append]
  simp

/-- The names of a recipe are such as `mk.deps` files have. -/
structure Admitted (basename : Text) (blocks : List Block) : Prop where
  package : Named (packageOf basename)
  depends : ∀ name ∈ blocks.flatMap Block.words, Named name ∧ name ∉ keywords
  features : ∀ feature ∈ blocks.flatMap Block.features,
    (∀ c ∈ feature.name, nameChar c = true) ∧ ∀ pkg ∈ feature.pkgs, Named pkg

def conditions (basename : Text) (blocks : List Block) : List Text :=
  (blocks.flatMap Block.features).flatMap fun feature => feature.pkgs.map fun pkg =>
    pkg ++ "@@CONFIG_".toList ++ (toupper (packageOf basename) ++ "_FT_".toList ++ toupper feature.name)

theorem Admitted.suited (admitted : Admitted basename blocks) :
    Suited (analyzeRecipe basename (blocks.flatMap Block.lines)) := by
  obtain ⟨package, depends, pkgconfig⟩ := analyzeRecipe_blocks basename blocks
  refine ⟨package ▸ admitted.package, fun dep listed => or_iff_not_imp_left.mpr fun some => ?_,
    pkgconfig ▸ admitted.features⟩
  have kept : dep ∈ (blocks.flatMap Block.words).eraseDups := by
    rw [← depends]
    exact List.mem_filter.mpr ⟨listed, decide_eq_true some⟩
  exact admitted.depends dep (List.mem_eraseDups.mp kept)

private def licenseLine : Text := "LICENSE = \"MIT\"".toList

private theorem license_depends : matchDepends licenseLine = none := by decide

private theorem license_feature : matchPkgconfig licenseLine = none := by decide

private theorem license_ends : opensOther licenseLine = true → licenseLine.getLast? ≠ some '\\' := by decide

private def license : Aside := ⟨licenseLine, license_depends, license_feature, license_ends⟩

private theorem mark_closes : '"' ≠ '\\' := by decide

private theorem options_opens : opensOther "EXTRA_OECONF = \"--disable-nls \\".toList = true := by decide

private theorem options_ends : "EXTRA_OECONF = \"--disable-nls \\".toList.getLast? = some '\\' := by decide

private def options : Long :=
  ⟨"EXTRA_OECONF = \"--disable-nls \\".toList, options_opens, options_ends,
    ⟨[], "    --with-x=y".toList, '"', mark_closes⟩⟩

instance instDecidableNamed (name : Text) : Decidable (Named name) :=
  decidable_of_iff (name ≠ [] ∧ ∀ c ∈ name, sharedChar c = true)
    ⟨fun named => ⟨named.1, named.2⟩, fun named => ⟨named.some, named.chars⟩⟩

end CBuild.Soundness.RecipeStatements
