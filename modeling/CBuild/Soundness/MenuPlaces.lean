import CBuild.Data.List
import CBuild.Soundness.KconfigNesting

/-! # The menus that an entry stands in

`gen_kconfig` opens a menu for each directory above an item and closes those that the next item is not
below. It compares an item with the menus open before it, and it keeps them all when they are the
item's own directories with the last one; among the members of a menu it takes every path for empty.
-/

namespace CBuild.Soundness.MenuPlaces

open CBuild.Text CBuild.Model.GenBuildChain CBuild.Soundness.KconfigNesting

/-- The titles of the open menus, innermost first, behind a line. -/
def menusBehind : List Text → Line → List Text
  | stack, .menu title => title :: stack
  | stack, .endmenu => stack.tail
  | stack, _ => stack

def entryOf (line : Line) : Option Item :=
  match event line with
  | some (.entry item) => some item
  | _ => none

/-- The entries of the file, each with the titles of the menus that it stands in, outermost first. -/
def entries : List Text → List Line → List (Item × List Text)
  | _, [] => []
  | stack, line :: lines =>
    (entryOf line).toList.map (·, stack.reverse) ++ entries (menusBehind stack line) lines

/-- The components of the path of an item below a directory, without the keywords. -/
def components (keywords : List Text) (prefixStr : Text) (item : Item) : List Text :=
  let own := if prefixStr = [] then [] else splitOn ['/'] prefixStr
  let dirs := splitOn ['/'] item.spath
  (if own <+: dirs then dirs.drop own.length else dirs).filter (· ∉ keywords)

/-- The menus an item belongs in: all components but the last, up to the depth. -/
def place (keywords : List Text) (maxDepth : ℤ) (prefixStr : Text) (item : Item) : List Text :=
  let dirs := components keywords prefixStr item
  dirs.take (min maxDepth (dirs.length - 1)).toNat

/-- The menus that an item of a call belongs in. -/
def ownPlace (keywords : List Text) (choiceFlag : Bool) (maxDepth : ℤ) (prefixStr : Text) (item : Item) : List Text :=
  if choiceFlag then [] else place keywords maxDepth prefixStr item

/-- The depth for the members of an item in open menus. -/
def innerDepth (choiceFlag : Bool) (maxDepth : ℤ) (curDirs : List Text) (item : Item) : ℤ :=
  if choiceFlag then maxDepth else memberDepth maxDepth curDirs item

/-- The item is in order behind one that belongs in `previous`. -/
def Follows (keywords : List Text) (choiceFlag : Bool) (maxDepth : ℤ) (prefixStr : Text) (item : Item)
    (previous : List Text) : Prop :=
  choiceFlag = false → if prefixStr = [] then
      components keywords [] item = [] ∨ ¬ components keywords [] item <+: previous
    else ownPlace keywords choiceFlag maxDepth prefixStr item = []

/-- The entries of a call and the menus that they belong in; the members of a choice stand where the
choice stands. -/
def places (keywords : List Text) :
    Forest → Bool → ℤ → Text → List Text → List (Item × List Text)
  | .nil, _, _, _, _ => []
  | .cons item member rest, choiceFlag, maxDepth, prefixStr, outside =>
    let own := ownPlace keywords choiceFlag maxDepth prefixStr item
    (item, outside ++ own) ::
      ((if item.vtype.isChoice || item.vtype.isMenu then
          places keywords member item.vtype.isChoice (innerDepth choiceFlag maxDepth own item) item.spath
            (outside ++ own)
        else []) ++
        places keywords rest choiceFlag maxDepth prefixStr outside)

/-- No item lies in the directories above the item before it, and no member of a menu needs menus. -/
def Ordered (keywords : List Text) : Forest → Bool → ℤ → Text → List Text → Prop
  | .nil, _, _, _, _ => True
  | .cons item member rest, choiceFlag, maxDepth, prefixStr, previous =>
    let own := ownPlace keywords choiceFlag maxDepth prefixStr item
    Follows keywords choiceFlag maxDepth prefixStr item previous ∧
    ((item.vtype.isChoice || item.vtype.isMenu) = true →
      Ordered keywords member item.vtype.isChoice (innerDepth choiceFlag maxDepth own item) item.spath []) ∧
    Ordered keywords rest choiceFlag maxDepth prefixStr own

variable {settings : KconfigSettings} {item : Item} {choiceFlag : Bool} {before between after stack : List Text}
  {placed placed' : List (Item × List Text)} {lines lines' : List Line} {line : Line}

/-- What a part of the file does: between two stacks of menus, and with which entries. -/
structure Shows (before after : List Text) (placed : List (Item × List Text)) (lines : List Line) : Prop where
  menus : lines.foldl menusBehind before = after
  shown : entries before lines = placed

/-- A part without entries that closes the menus it opens. -/
def Quiet (lines : List Line) : Prop := ∀ stack, Shows stack stack [] lines

theorem entries_append (stack : List Text) (lines lines' : List Line) :
    entries stack (lines ++ lines') = entries stack lines ++ entries (lines.foldl menusBehind stack) lines' := by
  induction lines generalizing stack with
  | nil => rfl
  | cons line lines ih => rw [List.cons_append, entries, entries, ih, List.append_assoc, List.foldl_cons]

theorem Shows.append (first : Shows before between placed lines) (second : Shows between after placed' lines') :
    Shows before after (placed ++ placed') (lines ++ lines') where
  menus := by rw [List.foldl_append, first.menus, second.menus]
  shown := by rw [entries_append, first.menus, first.shown, second.shown]

theorem Shows.quiet (first : Shows before between placed lines) (second : Quiet lines') :
    Shows before between placed (lines ++ lines') := by
  simpa using first.append (second between)

theorem Quiet.shows (first : Quiet lines) (second : Shows before after placed lines') :
    Shows before after placed (lines ++ lines') := by
  simpa using (first before).append second

theorem Quiet.append (first : Quiet lines) (second : Quiet lines') : Quiet (lines ++ lines') :=
  fun stack => first.shows (second stack)

theorem Quiet.nil : Quiet [] := fun _ => ⟨rfl, rfl⟩

/-- One line that is neither an entry nor a menu. -/
theorem Quiet.single (other : entryOf line = none) (stays : ∀ stack, menusBehind stack line = stack) :
    Quiet [line] := fun stack => ⟨stays stack, by simp [entries, other]⟩

theorem Quiet.still (all : ∀ line ∈ lines, Still line) : Quiet lines := by
  induction lines with
  | nil => exact Quiet.nil
  | cons line lines ih =>
    obtain ⟨here, rest⟩ := List.forall_mem_cons.mp all
    obtain ⟨text, rfl | rfl | rfl⟩ := here
    all_goals exact (Quiet.single rfl fun _ => rfl).append (ih rest)

/-- A menu that is opened and closed. -/
theorem Quiet.inMenu (title : Text) (inner : Quiet lines) : Quiet (.menu title :: (lines ++ [.endmenu])) := fun stack => by
  have opens : Shows stack (title :: stack) [] [.menu title] := ⟨rfl, rfl⟩
  have closes : Shows (title :: stack) stack [] [.endmenu] := ⟨rfl, rfl⟩
  exact opens.append ((inner (title :: stack)).append closes)

/-- The block of an item's options has no entry of an item. -/
theorem confBlock_quiet (choiceFlag : Bool) (item : Item) : Quiet (confBlock settings choiceFlag item) := by
  have features : Quiet (writeFeatureKconfig settings item) := Quiet.still (writeFeatureKconfig_still settings item)
  have ends : Quiet [.endif, .blank] := fun _ => ⟨rfl, rfl⟩
  have cond (expr : Text) : Quiet [.cond (some item) expr] := fun _ => ⟨rfl, rfl⟩
  have source (path : Text) : Quiet [.source path] := fun _ => ⟨rfl, rfl⟩
  have menu (expr title : Text) (lines : List Line) (quiet : Quiet lines) :
      Quiet ([.cond (some item) expr, .menu title] ++ lines ++ [.endmenu, .endif, .blank]) := by
    simpa using (cond expr).append ((quiet.inMenu title).append ends)
  have options : Quiet ((if item.conf ≠ [] then [Line.source item.conf] else []) ++
      writeFeatureKconfig settings item) := by
    split
    · exact (source _).append features
    · exact features
  by_cases given : item.conf ≠ [] ∨ writeFeatureKconfig settings item ≠ []
  · rw [confBlock, if_pos given]
    by_cases shared : item.conf = "kconfig".toList
    · rw [if_pos shared]
      by_cases last : (checkSharedKconfig settings.registry item.target).2.getLast? = some item.target
      · rw [if_pos last]
        exact menu _ _ (.source _ :: writeFeatureKconfig settings item) ((source _).append features)
      · rw [if_neg last]
        exact Quiet.nil
    · rw [if_neg shared]
      cases choiceFlag with
      | true => exact menu _ _ _ options
      | false => simpa using (cond (prependedSymbol settings.prependFlag item.target)).append (options.append ends)
  · rw [confBlock, if_neg given]
    exact Quiet.nil

/-- An entry stands in the menus that are open. -/
theorem Shows.entry {body : List Line} (made : entryBody settings item = some body) :
    Shows stack stack [(item, stack.reverse)] (entryHead settings choiceFlag item ++ body) := by
  obtain ⟨first, rest, head, still, named, _⟩ := entryHead_cons settings choiceFlag item
  have stays : menusBehind stack first = stack := by cases first <;> first | rfl | cases named
  have one : Shows stack stack [(item, stack.reverse)] [first] :=
    ⟨stays, by simp [entries, entryOf, named]⟩
  have plain : Quiet (rest ++ body) := (Quiet.still still).append (Quiet.still (entryBody_still made))
  rw [head]
  exact one.quiet plain

variable {dirs curDirs : List Text} {maxDepth : ℤ}

theorem Shows.leaveMenus (curDirs stack : List Text) : Shows (curDirs ++ stack) stack [] (leaveMenus curDirs) := by
  induction curDirs with
  | nil => exact Quiet.nil stack
  | cons dir curDirs ih =>
    have closes : Shows (dir :: curDirs ++ stack) (curDirs ++ stack) [] [.endmenu, .blank] := ⟨rfl, rfl⟩
    exact closes.append ih

theorem Shows.closeMenus (dirs curDirs stack : List Text) :
    Shows (curDirs ++ stack) ((closeMenus dirs curDirs).1 ++ stack) [] (closeMenus dirs curDirs).2 := by
  induction curDirs with
  | nil => exact Quiet.nil stack
  | cons dir curDirs ih =>
    unfold CBuild.Model.GenBuildChain.closeMenus
    split
    · exact Quiet.nil _
    · have closes : Shows (dir :: curDirs ++ stack) (curDirs ++ stack) [] [.endmenu, .blank] := ⟨rfl, rfl⟩
      exact closes.append ih

theorem Shows.openMenus (maxDepth : ℤ) (curDirs dirs stack : List Text) :
    Shows (curDirs ++ stack) ((openMenus maxDepth curDirs dirs).1 ++ stack) []
      (openMenus maxDepth curDirs dirs).2 := by
  induction dirs generalizing curDirs with
  | nil => exact Quiet.nil _
  | cons dir dirs ih =>
    cases dirs with
    | nil => exact Quiet.nil _
    | cons next dirs =>
      unfold CBuild.Model.GenBuildChain.openMenus
      split
      · have opens : Shows (curDirs ++ stack) (dir :: curDirs ++ stack) [] [.menu dir, .blank] := ⟨rfl, rfl⟩
        exact opens.append (ih (dir :: curDirs))
      · exact Quiet.nil _

theorem Shows.enterMenus (maxDepth : ℤ) (dirs curDirs stack : List Text) :
    Shows (curDirs ++ stack) ((enterMenus maxDepth dirs curDirs).1 ++ stack) []
      (enterMenus maxDepth dirs curDirs).2 :=
  (Shows.closeMenus dirs curDirs stack).append (Shows.openMenus maxDepth _ _ stack)

/-- The menus that stay open are the longest part of the open menus that the directories begin with. -/
theorem closeMenus_longest (dirs curDirs : List Text) :
    (closeMenus dirs curDirs).1 <:+ curDirs ∧ (closeMenus dirs curDirs).1.reverse <+: dirs ∧
      ∀ other, other <:+ curDirs → other.reverse <+: dirs → other.length ≤ (closeMenus dirs curDirs).1.length := by
  induction curDirs with
  | nil => exact ⟨List.suffix_rfl, List.nil_prefix, fun other inside _ => inside.length_le⟩
  | cons dir curDirs ih =>
    unfold closeMenus
    split
    · next whole => exact ⟨List.suffix_rfl, whole, fun other inside _ => inside.length_le⟩
    · next notWhole =>
      obtain ⟨inside, starts, longest⟩ := ih
      refine ⟨inside.trans (List.suffix_cons ..), starts, fun other part begins => ?_⟩
      rcases List.suffix_cons_iff.mp part with rfl | part
      · exact absurd begins notWhole
      · exact longest other part begins

/-- The menus are opened up to the depth and to the last directory. -/
theorem openMenus_reverse (maxDepth : ℤ) (curDirs dirs : List Text) :
    (openMenus maxDepth curDirs dirs).1.reverse =
      curDirs.reverse ++ dirs.take (min (maxDepth.toNat - curDirs.length) (dirs.length - 1)) := by
  induction dirs generalizing curDirs with
  | nil => simp [openMenus]
  | cons dir dirs ih =>
    cases dirs with
    | nil => simp [openMenus]
    | cons next dirs =>
      unfold openMenus
      split
      · next deeper =>
        have count : min (maxDepth.toNat - curDirs.length) ((dir :: next :: dirs).length - 1) =
            min (maxDepth.toNat - (dir :: curDirs).length) ((next :: dirs).length - 1) + 1 := by
          simp only [List.length_cons]
          omega
        rw [ih, count, List.take_succ_cons, List.reverse_cons, List.append_assoc, List.singleton_append]
      · next deepest =>
        have none : maxDepth.toNat - curDirs.length = 0 := by omega
        rw [none, Nat.zero_min, List.take_zero, List.append_nil]

/-- The depth of an entry: as many menus as stay open, or as it belongs in when that is more. -/
theorem enterMenus_reverse (maxDepth : ℤ) (dirs curDirs : List Text) (within : curDirs.length ≤ maxDepth.toNat) :
    ∃ kept, kept <+: dirs ∧ kept <+: curDirs.reverse ∧ (dirs <+: curDirs.reverse → kept = dirs) ∧
      (enterMenus maxDepth dirs curDirs).1.reverse =
        dirs.take (max kept.length (min maxDepth.toNat (dirs.length - 1))) := by
  obtain ⟨inside, starts, longest⟩ := closeMenus_longest dirs curDirs
  refine ⟨(closeMenus dirs curDirs).1.reverse, starts, List.reverse_prefix.mpr inside, fun whole => ?_, ?_⟩
  · have reached := longest dirs.reverse (List.reverse_prefix.mp (by rwa [List.reverse_reverse]))
      (by rw [List.reverse_reverse])
    refine starts.eq_of_length_le ?_
    rwa [List.length_reverse] at reached ⊢
  · have shorter := inside.length_le
    have count := starts.length_le
    rw [List.length_reverse] at count ⊢
    rw [enterMenus, openMenus_reverse]
    generalize (closeMenus dirs curDirs).1 = kept at starts shorter count
    obtain ⟨rest, rfl⟩ := starts
    have dropped : (kept.reverse ++ rest).drop kept.length = rest := by
      rw [← List.length_reverse, List.drop_left]
    have full (count : ℕ) (all : kept.length ≤ count) : kept.reverse.take count = kept.reverse :=
      List.take_of_length_le (by rwa [List.length_reverse])
    rw [dropped, List.take_append, full _ (le_max_left ..), List.length_append, List.length_reverse]
    congr 2
    omega

/-- An entry stands where it belongs, unless the menus open before it include all its directories. -/
theorem enterMenus_iff (maxDepth : ℤ) (dirs curDirs : List Text) (within : curDirs.length ≤ maxDepth.toNat) :
    (enterMenus maxDepth dirs curDirs).1.reverse = dirs.take (min maxDepth (dirs.length - 1)).toNat ↔
      dirs = [] ∨ ¬ dirs <+: curDirs.reverse := by
  obtain ⟨kept, starts, inside, whole, opened⟩ := enterMenus_reverse maxDepth dirs curDirs within
  have count := starts.length_le
  have bound := inside.length_le
  rw [List.length_reverse] at bound
  have depth : (min maxDepth (dirs.length - 1)).toNat = min maxDepth.toNat (dirs.length - 1) := by omega
  rw [opened, depth, List.take_eq_take_iff]
  by_cases all : dirs <+: curDirs.reverse
  · rw [whole all]
    have none : dirs = [] ↔ dirs.length = 0 := List.length_eq_zero_iff.symm
    simp only [all, not_true_eq_false, or_false, none]
    omega
  · have less : kept.length ≠ dirs.length := fun same => all (starts.eq_of_length same ▸ inside)
    simp only [all, not_false_eq_true, or_true, iff_true]
    omega

variable {genMember : Bool → Writer → Option Writer} {w w' w'' : Writer} {forest : Forest} {prefixStr : Text}

/-- What is appended to the file, with only blocks of options deferred. -/
def Appends (before after : List Text) (placed : List (Item × List Text)) (w w' : Writer) : Prop :=
  ∃ lines, w'.text = w.text ++ lines ∧ Quiet w'.confStr ∧ Shows before after placed lines

theorem Appends.append (first : Appends before between placed w w') (second : Appends between after placed' w' w'') :
    Appends before after (placed ++ placed') w w'' := by
  obtain ⟨lines, text, _, part⟩ := first
  obtain ⟨lines', text', quiet, part'⟩ := second
  exact ⟨lines ++ lines', by rw [text', text, List.append_assoc], quiet, part.append part'⟩

theorem Appends.write (quiet : Quiet w.confStr) (part : Shows before after placed lines) :
    Appends before after placed w (w.write lines) := ⟨lines, rfl, quiet, part⟩

theorem Appends.flush (quiet : Quiet w.confStr) : Appends stack stack [] w w.flush := by
  obtain ⟨behind, text, done, still⟩ := flush_text w
  exact ⟨_, text, done ▸ Quiet.nil, (quiet.append (Quiet.still still)) stack⟩

theorem Appends.written {body : List Line} (made : entryBody settings item = some body) (quiet : Quiet w.confStr) :
    Appends stack stack [(item, stack.reverse)] w (written settings choiceFlag item body w) := by
  have entry := Appends.write quiet (@Shows.entry settings item choiceFlag stack body made)
  have block := @confBlock_quiet settings choiceFlag item
  cases choiceFlag with
  | true =>
    obtain ⟨lines, text, _, part⟩ := entry
    exact ⟨lines, text, quiet.append block, part⟩
  | false => exact entry.append (Appends.write quiet (block stack))

/-- One item: its entry, and the entries of its members in the same menus. -/
theorem one_appends (quiet : Quiet w.confStr) {Inside : List (Item × List Text) → Prop}
    (wrote : writeOneKconfig settings choiceFlag item genMember w = some w')
    (members : (item.vtype.isChoice || item.vtype.isMenu) = true → ∀ w w', Quiet w.confStr →
      genMember item.vtype.isChoice w = some w' → ∃ placed, Inside placed ∧ Appends stack stack placed w w') :
    ∃ placed, ((item.vtype.isChoice || item.vtype.isMenu) = true → Inside placed) ∧
      ((item.vtype.isChoice || item.vtype.isMenu) = false → placed = []) ∧
      Appends stack stack ((item, stack.reverse) :: placed) w w' := by
  obtain ⟨body, made, cases⟩ := writeOneKconfig_cases wrote
  have entry := @Appends.written settings item choiceFlag stack w body made quiet
  obtain ⟨_, _, quietNow, _⟩ := id entry
  obtain ⟨leaf, rfl⟩ | ⟨choice, inner, visited, rfl⟩ | ⟨kind, inner, visited, rfl⟩ := cases
  · have plain : (item.vtype.isChoice || item.vtype.isMenu) = false := by
      rcases leaf with kind | kind <;> rw [kind] <;> rfl
    exact ⟨[], fun holds => by rw [plain] at holds; contradiction, fun _ => rfl, entry⟩
  · have holds : (item.vtype.isChoice || item.vtype.isMenu) = true := by rw [choice]; rfl
    obtain ⟨placed, inside, shown⟩ := members holds _ _ quietNow (by rw [choice]; exact visited)
    obtain ⟨_, _, quietInner, _⟩ := id shown
    have ends : Quiet [.endchoice, .blank] := fun _ => ⟨rfl, rfl⟩
    have whole := entry.append (shown.append ((Appends.write quietInner (ends stack)).append
      (Appends.flush quietInner)))
    exact ⟨placed, fun _ => inside, fun plain => by rw [holds] at plain; contradiction, by simpa using whole⟩
  · have holds : (item.vtype.isChoice || item.vtype.isMenu) = true := by rw [kind]; rfl
    have begins : Quiet [.cond none (prependedSymbol settings.prependFlag item.target), .blank] := fun _ => ⟨rfl, rfl⟩
    have ends : Quiet [.endif, .blank] := fun _ => ⟨rfl, rfl⟩
    have opened := entry.append (Appends.write quietNow (begins stack))
    obtain ⟨_, _, quietOpened, _⟩ := id opened
    obtain ⟨placed, inside, shown⟩ := members holds _ _ quietOpened (by rw [kind]; exact visited)
    obtain ⟨_, _, quietInner, _⟩ := id shown
    have whole := opened.append (shown.append (Appends.write quietInner (ends stack)))
    exact ⟨placed, fun _ => inside, fun plain => by rw [holds] at plain; contradiction, by simpa using whole⟩

theorem itemDirs_outside (keywords : List Text) (item : Item) :
    itemDirs keywords [] item = components keywords [] item := by
  unfold itemDirs components
  by_cases some : keywords = [] <;> simp [some]

/-- Among the members of a menu no menu is opened. -/
theorem enterMenus_inside (maxDepth : ℤ) (keywords : List Text) (inside : prefixStr ≠ []) (item : Item) :
    (enterMenus maxDepth (itemDirs keywords prefixStr item) []).1 = [] := by
  have few : (itemDirs keywords prefixStr item).length ≤ 1 := by
    rw [itemDirs, if_pos inside]
    split
    · exact (List.length_filter_le ..).trans (by decide)
    · decide
  obtain ⟨kept, _, within, _, opened⟩ := enterMenus_reverse maxDepth (itemDirs keywords prefixStr item) [] (Nat.zero_le _)
  have none : kept = [] := List.prefix_nil.mp within
  have noDepth : max kept.length (min maxDepth.toNat ((itemDirs keywords prefixStr item).length - 1)) = 0 := by
    rw [none, List.length_nil]
    omega
  rw [noDepth, List.take_zero] at opened
  exact List.reverse_eq_nil_iff.mp opened

theorem places_length (keywords : List Text) (forest : Forest) (choiceFlag : Bool) (maxDepth maxDepth' : ℤ)
    (prefixStr prefixStr' : Text) (outside outside' : List Text) :
    (places keywords forest choiceFlag maxDepth prefixStr outside).length =
      (places keywords forest choiceFlag maxDepth' prefixStr' outside').length := by
  induction forest generalizing choiceFlag maxDepth maxDepth' prefixStr prefixStr' outside outside' with
  | nil => rfl
  | cons item member rest memberLength restLength =>
    simp only [places, List.length_cons, List.length_append]
    rw [restLength _ _ maxDepth' _ prefixStr' _ outside']
    split
    · rw [memberLength]
    · rfl

/-- The menus open at an item are those it belongs in exactly when the item is in order. -/
theorem opened_iff {keywords : List Text} (start : prefixStr ≠ [] → curDirs = [])
    (within : curDirs.length ≤ maxDepth.toNat) :
    (enterMenus maxDepth (itemDirs keywords prefixStr item) curDirs).1.reverse =
        place keywords maxDepth prefixStr item ↔
      if prefixStr = [] then components keywords [] item = [] ∨ ¬ components keywords [] item <+: curDirs.reverse
      else place keywords maxDepth prefixStr item = [] := by
  split
  · next outside =>
    subst outside
    rw [itemDirs_outside, place, enterMenus_iff maxDepth _ _ within]
  · next inside =>
    rw [start inside, enterMenus_inside maxDepth keywords inside, List.reverse_nil, eq_comm]

theorem opened_within {dirs : List Text} (within : curDirs.length ≤ maxDepth.toNat) :
    (enterMenus maxDepth dirs curDirs).1.length ≤ maxDepth.toNat := by
  obtain ⟨kept, _, inside, _, opened⟩ := enterMenus_reverse maxDepth dirs curDirs within
  have bound := inside.length_le
  have count := congrArg List.length opened
  rw [List.length_reverse] at bound
  rw [List.length_reverse, List.length_take] at count
  omega

/-- One item of a call: the menus that are open at its entry, and what is written before, for and behind it. -/
theorem genKconfig_cons {item : Item} {member rest : Forest} (start : choiceFlag = true ∨ prefixStr ≠ [] → curDirs = [])
    (within : curDirs.length ≤ maxDepth.toNat) (quiet : Quiet w.confStr)
    (wrote : genKconfig settings (.cons item member rest) choiceFlag maxDepth prefixStr curDirs w = some w') :
    ∃ opened w₀ w₁, (∀ outside, Appends (curDirs ++ outside) (opened ++ outside) [] w w₀) ∧
      writeOneKconfig settings choiceFlag item (fun flag w =>
        genKconfig settings member flag (innerDepth choiceFlag maxDepth opened item) item.spath [] w) w₀ = some w₁ ∧
      genKconfig settings rest choiceFlag maxDepth prefixStr opened w₁ = some w' ∧
      (choiceFlag = true ∨ prefixStr ≠ [] → opened = []) ∧ opened.length ≤ maxDepth.toNat ∧
      (opened.reverse = ownPlace settings.keywords choiceFlag maxDepth prefixStr item ↔
        Follows settings.keywords choiceFlag maxDepth prefixStr item curDirs.reverse) := by
  cases choiceFlag with
  | true =>
    rw [genKconfig, if_pos rfl, Option.bind_eq_bind, Option.bind_eq_some_iff] at wrote
    obtain ⟨next, one, others⟩ := wrote
    obtain rfl := start (Or.inl rfl)
    exact ⟨[], w, next, fun outside => ⟨[], by simp, quiet, Quiet.nil outside⟩, one, others, fun _ => rfl, within,
      iff_of_true rfl fun same => by cases same⟩
  | false =>
    rw [genKconfig, if_neg Bool.false_ne_true, Option.bind_eq_bind, Option.bind_eq_some_iff] at wrote
    obtain ⟨next, one, others⟩ := wrote
    have inside (in_menu : false = true ∨ prefixStr ≠ []) : prefixStr ≠ [] := in_menu.resolve_left Bool.false_ne_true
    refine ⟨(enterMenus maxDepth (itemDirs settings.keywords prefixStr item) curDirs).1, _, next,
      fun outside => Appends.write quiet (Shows.enterMenus maxDepth _ curDirs outside), one, others, fun in_menu => ?_,
      opened_within within, ?_⟩
    · rw [start in_menu, enterMenus_inside maxDepth _ (inside in_menu)]
    · rw [ownPlace, if_neg Bool.false_ne_true, opened_iff (fun in_menu => start (Or.inr in_menu)) within, Follows,
        ownPlace, if_neg Bool.false_ne_true]
      exact ⟨fun facts _ => facts, fun facts => facts rfl⟩

theorem innerDepth_reverse (choiceFlag : Bool) (maxDepth : ℤ) (curDirs : List Text) (item : Item) :
    innerDepth choiceFlag maxDepth curDirs.reverse item = innerDepth choiceFlag maxDepth curDirs item := by
  rw [innerDepth, innerDepth, memberDepth, memberDepth, List.length_reverse]

/-- The entries of a call, in order, each in the menus that it belongs in exactly when all are in order. -/
theorem forest_appends (start : choiceFlag = true ∨ prefixStr ≠ [] → curDirs = [])
    (within : curDirs.length ≤ maxDepth.toNat) (quiet : Quiet w.confStr)
    (wrote : genKconfig settings forest choiceFlag maxDepth prefixStr curDirs w = some w') (outside : List Text) :
    ∃ placed, Appends (curDirs ++ outside) outside placed w w' ∧
      placed.length = (places settings.keywords forest choiceFlag maxDepth prefixStr outside.reverse).length ∧
      (placed = places settings.keywords forest choiceFlag maxDepth prefixStr outside.reverse ↔
        Ordered settings.keywords forest choiceFlag maxDepth prefixStr curDirs.reverse) := by
  induction forest generalizing choiceFlag maxDepth prefixStr curDirs w w' outside with
  | nil =>
    cases choiceFlag with
    | true =>
      cases wrote
      rw [start (Or.inl rfl)]
      exact ⟨[], ⟨[], by simp, quiet, Quiet.nil outside⟩, rfl, iff_of_true rfl trivial⟩
    | false =>
      cases wrote
      exact ⟨[], Appends.write quiet (Shows.leaveMenus curDirs outside), rfl, iff_of_true rfl trivial⟩
  | cons item member rest ihMember ihRest =>
    obtain ⟨opened, w₀, w₁, entered, one, others, startOpened, withinOpened, here⟩ :=
      genKconfig_cons start within quiet wrote
    obtain ⟨_, _, quietEntered, _⟩ := id (entered outside)
    obtain ⟨inside, holds, plain, shown⟩ : ∃ placed, _ ∧ _ ∧
        Appends (opened ++ outside) (opened ++ outside) ((item, (opened ++ outside).reverse) :: placed) w₀ w₁ :=
      one_appends quietEntered one fun _ w w' quiet wrote => by
        obtain ⟨placed, appends, facts⟩ := ihMember (fun _ => rfl) (Nat.zero_le _) quiet wrote (opened ++ outside)
        exact ⟨placed, facts, appends⟩
    obtain ⟨_, _, quietShown, _⟩ := id shown
    obtain ⟨restPlaced, restShown, restLength, restIff⟩ := ihRest startOpened withinOpened quietShown others outside
    refine ⟨_, (entered outside).append (shown.append restShown), ?_, ?_⟩
    · rw [places, List.nil_append, List.cons_append, List.length_cons, List.length_cons, List.length_append,
        List.length_append, restLength]
      split
      · next members =>
        rw [(holds members).1, places_length settings.keywords member _ _ _ _ _ _ _]
      · next none => rw [plain (by simpa using none)]
    · rw [places, Ordered, List.nil_append, List.cons_append, List.cons.injEq, Prod.mk.injEq,
        List.reverse_append, List.append_cancel_left_eq, ← here]
      by_cases same : opened.reverse = ownPlace settings.keywords choiceFlag maxDepth prefixStr item
      · rw [← same, ← restIff, innerDepth_reverse]
        simp only [true_and]
        split
        · next members =>
          obtain ⟨length, facts⟩ := holds members
          rw [List.reverse_append] at facts length
          rw [CBuild.Data.append_eq_iff length, facts]
          exact ⟨fun ⟨members, later⟩ => ⟨fun _ => members, later⟩, fun ⟨each, later⟩ => ⟨each members, later⟩⟩
        · next none =>
          rw [plain (by simpa using none), List.nil_append, List.nil_append]
          exact ⟨fun later => ⟨fun members => absurd members none, later⟩, And.right⟩
      · simp [same]

/-- Every entry stands in the menus of its own path exactly when no item follows one whose menus include all its
directories, and the members of the menus need no menus. -/
theorem placed_iff (settings : KconfigSettings) (forest : Forest) (maxDepth : ℤ) (prefixStr : Text)
    (text : List Line) (w : Writer)
    (wrote : genKconfig settings forest false maxDepth prefixStr [] ⟨text, []⟩ = some w) :
    entries [] (w.text.drop text.length) = places settings.keywords forest false maxDepth prefixStr [] ↔
      Ordered settings.keywords forest false maxDepth prefixStr [] := by
  obtain ⟨placed, ⟨lines, whole, _, shows⟩, _, same⟩ :=
    forest_appends (fun _ => rfl) (Nat.zero_le _) Quiet.nil wrote []
  have shown : entries [] lines = placed := shows.shown
  rw [whole, List.drop_left, shown]
  exact same

def inDirs (paths : List String) : Forest :=
  .leaves (paths.map fun path => { target := path.toList, spath := path.toList })

def menusOf (forest : Forest) (prefixStr : Text) : Writer :=
  (genKconfig { prependFlag := true, registry := {} } forest false 3 prefixStr [] {}).getD {}

/-- The directory of the second package begins with the menus of the first, but goes on. -/
theorem deeper_placed : entries [] ((menusOf (inDirs ["app/net/curl", "app/net/web/wget"]) []).text.drop 0) =
    places [] (inDirs ["app/net/curl", "app/net/web/wget"]) false 3 [] [] :=
  (placed_iff { prependFlag := true, registry := {} } (inDirs ["app/net/curl", "app/net/web/wget"]) 3 [] [] _
    (by decide +kernel)).mpr (by
      refine ⟨fun _ => ?_, nofun, fun _ => ?_, nofun, trivial⟩
      · rw [if_pos rfl]
        decide +kernel
      · rw [if_pos rfl]
        decide +kernel)

/-- Among the members of a menu in `app` no menu is opened for `net`. -/
theorem member_misplaced :
    genKconfig { prependFlag := true, registry := {} } (inDirs ["app/net/curl"]) false 3 "app".toList [] {} =
        some (menusOf (inDirs ["app/net/curl"]) "app".toList) ∧
      entries [] (menusOf (inDirs ["app/net/curl"]) "app".toList).text ≠
        places [] (inDirs ["app/net/curl"]) false 3 "app".toList [] := by
  decide +kernel

end CBuild.Soundness.MenuPlaces
