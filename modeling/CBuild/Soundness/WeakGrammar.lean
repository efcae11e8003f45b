import CBuild.Data.List
import CBuild.Model.Weakdep

/-! # The grammar of weak dependencies

The documented tokens of EXTRADEPS as data, with the text each is written as. Both parsers are run
on these texts: `__set_item_deps` followed by `check_item`, and the function of `weakdep.bbclass`.
-/

namespace CBuild.Soundness.WeakGrammar

open CBuild.Data CBuild.Text CBuild.Model.GenBuildChain CBuild.Model.Weakdep

/-- Leading markers, in any order. -/
structure Markers where
  chars : Text
  nonempty : chars ≠ []
  only : ∀ c ∈ chars, c = '&' ∨ c = '?'
  ampNum : chars.count '&' ≤ 2
  queNum : chars.count '?' ≤ 2

/-- An alternative of a selected or-token; a virtual one is written with `*`. -/
structure Alternative where
  isVirtual : Bool
  name : Name

def Alternative.text (alternative : Alternative) : Text :=
  if alternative.isVirtual then '*' :: alternative.name.text else alternative.name.text

/-- The alternatives of an or-token, of which the first may be omitted. -/
inductive Alternatives (α : Type)
  | omitted (name : Name) (rest : List α)
  | listed (first second : α) (rest : List α)

def Alternatives.parts {α : Type} (text : α → Text) : Alternatives α → List Text
  | omitted name rest => [] :: name.text :: rest.map text
  | listed first second rest => text first :: text second :: rest.map text

/-- `|` or `||`. -/
def orText (double : Bool) : Text := if double then ['|', '|'] else ['|']

/-- The tokens of the grammar: `?x`, `&x` and their combinations, `&a|b`, `a|b` and `x@c`. -/
inductive Token
  | marked (markers : Markers) (name : Name)
  | selectOr (strong double : Bool) (alternatives : Alternatives Alternative)
  | or (double : Bool) (alternatives : Alternatives Name)
  | cond (double : Bool) (dep : Name) (condition : Symbol)

namespace Token

def text : Token → Text
  | marked markers name => markers.chars ++ name.text
  | selectOr strong double alternatives =>
    (if strong then ['&', '&'] else ['&']) ++
      (orText double).intercalate (alternatives.parts Alternative.text)
  | or double alternatives => (orText double).intercalate (alternatives.parts Name.text)
  | cond double dep condition => CondDep.text ⟨double, dep, condition⟩

/-- The names a token spells out. -/
def written : Token → List Text
  | marked _ name => [name.text]
  | selectOr _ _ (.omitted name rest) => name.text :: rest.map (·.name.text)
  | selectOr _ _ (.listed first second rest) => (first :: second :: rest).map (·.name.text)
  | or _ (.omitted name rest) => name.text :: rest.map Name.text
  | or _ (.listed first second rest) => (first :: second :: rest).map Name.text
  | cond _ dep _ => [dep.text]

/-- The names a token makes weak dependences: those with `?` and the alternatives of an or-token. -/
def weakNames : Token → List Text
  | marked markers name => if '?' ∈ markers.chars then [name.text] else []
  | or _ (.omitted name rest) => ("prebuild-".toList ++ name.text) :: name.text :: rest.map Name.text
  | or _ (.listed first second rest) => (first :: second :: rest).map Name.text
  | _ => []

/-- The alternatives of a selected or-token that are not virtual. -/
def selectedNames : Token → List Text
  | selectOr _ _ (.omitted name rest) =>
    ("prebuild-".toList ++ name.text) :: ((rest.filter (!·.isVirtual)).map (·.name.text) ++ [name.text])
  | selectOr _ _ (.listed first second rest) =>
    ((first :: second :: rest).filter (!·.isVirtual)).map (·.name.text)
  | _ => []

def ideps : Token → List Text
  | cond double dep condition => [(cond double dep condition).text]
  | _ => []

end Token

theorem orText_eq (double : Bool) : ∃ rest, orText double = '|' :: rest := by
  cases double
  · exact ⟨[], rfl⟩
  · exact ⟨['|'], rfl⟩

/-- Parts of an or-token: no `|` in any, and only the first one may be empty. -/
structure OrParts (parts : List Text) : Prop where
  two : 2 ≤ parts.length
  plain : ∀ part ∈ parts, '|' ∉ part
  rest : ∀ part ∈ parts.tail, part ≠ []

private theorem not_infix_intercalate {parts : List Text} (plain : ∀ part ∈ parts, '|' ∉ part)
    (rest : ∀ part ∈ parts.tail, part ≠ []) : ¬ ['|', '|'] <:+: ['|'].intercalate parts := by
  induction parts with
  | nil => decide
  | cons part parts ih =>
    have here := plain part (List.mem_cons_self ..)
    have later := ih (fun other member => plain other (List.mem_cons_of_mem _ member))
      fun other member => rest other (List.mem_of_mem_tail member)
    cases parts with
    | nil =>
      rw [List.intercalate_singleton]
      exact fun inside => here (inside.subset (List.mem_cons_self ..))
    | cons next parts =>
      rw [List.intercalate_cons_cons, List.append_assoc]
      refine not_infix_append here fun inside => ?_
      rcases List.infix_cons_iff.mp inside with start | inside
      · obtain ⟨c, tail, rfl⟩ := List.exists_cons_of_ne_nil (rest next (List.mem_cons_self ..))
        have plainNext := plain _ (List.mem_cons_of_mem _ (List.mem_cons_self ..))
        rw [List.intercalate_cons_cons_left] at start
        have same : '|' = c := (List.cons_prefix_cons.mp (List.cons_prefix_cons.mp start).2).1
        exact plainNext (same ▸ List.mem_cons_self ..)
      · exact later inside

theorem splitStr_intercalate {double : Bool} {parts : List Text} (good : OrParts parts) :
    splitStr ((orText double).intercalate parts) = orText double := by
  obtain ⟨two, plain, rest⟩ := good
  unfold splitStr
  cases double with
  | false => exact if_neg (not_infix_intercalate plain rest)
  | true =>
    match parts, two with
    | part :: next :: parts, _ =>
      refine if_pos ⟨part, ['|', '|'].intercalate (next :: parts), ?_⟩
      exact List.intercalate_cons_cons.symm

theorem splitOn_orText {double : Bool} {parts : List Text} (good : OrParts parts) :
    splitOn (orText double) ((orText double).intercalate parts) = parts := by
  obtain ⟨sep, same⟩ := orText_eq double
  rw [same]
  refine splitOn_intercalate ?_ good.plain
  rintro rfl
  exact absurd good.two (by simp)

theorem mem_orText {double : Bool} {parts : List Text} (good : OrParts parts) :
    '|' ∈ (orText double).intercalate parts := by
  obtain ⟨sep, same⟩ := orText_eq double
  match parts, good.two with
  | part :: next :: parts, _ =>
    rw [List.intercalate_cons_cons, same]
    simp

theorem mem_intercalate_orText {double : Bool} {parts : List Text} {c : Char}
    (member : c ∈ (orText double).intercalate parts) : c = '|' ∨ ∃ part ∈ parts, c ∈ part := by
  refine (mem_intercalate member).imp_left fun inside => ?_
  cases double <;> simpa [orText] using inside

theorem markers_append {chars dep : Text} (only : ∀ c ∈ chars, c = '&' ∨ c = '?')
    (plain : ∀ c, dep.head? = some c → c ≠ '&' ∧ c ≠ '?') :
    markers (chars ++ dep) = (chars.count '&', chars.count '?', dep) := by
  have head : (chars ++ dep).takeWhile (fun c => c = '&' || c = '?') = chars := by
    rw [List.takeWhile_append_of_pos (by simpa using only)]
    cases dep with
    | nil => simp
    | cons c dep => simp [plain c rfl]
  simp [markers, head]

theorem Name.plain (name : Name) : '|' ∉ name.text ∧ name.text ≠ [] :=
  ⟨name.not_mem (by decide), name.nonempty⟩

theorem Alternative.plain (alternative : Alternative) :
    '|' ∉ alternative.text ∧ alternative.text ≠ [] := by
  obtain ⟨isVirtual, name⟩ := alternative
  have plain := Name.plain name
  cases isVirtual
  · exact plain
  · exact ⟨by simpa [Alternative.text] using plain.1, by simp [Alternative.text]⟩

namespace Alternatives

variable {α : Type} {text : α → Text}

theorem orParts (plain : ∀ a, '|' ∉ text a ∧ text a ≠ []) (alternatives : Alternatives α) :
    OrParts (alternatives.parts text) := by
  cases alternatives with
  | omitted name rest =>
    refine ⟨by simp [parts], ?_, ?_⟩
    · simpa [parts, (Name.plain name).1] using fun a _ => (plain a).1
    · simpa [parts, name.nonempty] using fun a _ => (plain a).2
  | listed first second rest =>
    refine ⟨by simp [parts], ?_, ?_⟩
    · simpa [parts, (plain first).1, (plain second).1] using fun a _ => (plain a).1
    · simpa [parts, (plain second).2] using fun a _ => (plain a).2

/-- Only `|` and the characters of its parts occur in an or-token. -/
theorem mem_text {alternatives : Alternatives α} {double : Bool} {c : Char} (bar : c ≠ '|')
    (special : nameChar c = false)
    (member : c ∈ (orText double).intercalate (alternatives.parts text)) : ∃ a, c ∈ text a := by
  rcases mem_intercalate_orText member with rfl | ⟨part, inside, here⟩
  · contradiction
  · cases alternatives with
    | omitted name rest =>
      rcases List.mem_cons.mp inside with rfl | inside
      · contradiction
      · rcases List.mem_cons.mp inside with rfl | inside
        · exact absurd here (name.not_mem special)
        · obtain ⟨a, _, rfl⟩ := List.mem_map.mp inside
          exact ⟨a, here⟩
    | listed first second rest =>
      have listed : part ∈ (first :: second :: rest).map text := inside
      obtain ⟨a, _, rfl⟩ := List.mem_map.mp listed
      exact ⟨a, here⟩

/-- The alternatives of a selected or-token, the omitted ones written out. -/
def expanded (text : α → Text) : Alternatives α → List Text
  | omitted name rest =>
    ("*build-".toList ++ name.text) :: ("prebuild-".toList ++ name.text) :: (rest.map text ++ [name.text])
  | listed first second rest => text first :: text second :: rest.map text

theorem expanded_plain (plain : ∀ a, '|' ∉ text a ∧ text a ≠ []) (alternatives : Alternatives α) :
    ∀ part ∈ alternatives.expanded text, '|' ∉ part ∧ part ≠ [] := by
  cases alternatives with
  | omitted name rest =>
    simpa [expanded, or_imp, forall_and, (Name.plain name).1, name.nonempty] using
      ⟨fun a _ => (plain a).1, fun a _ => (plain a).2⟩
  | listed first second rest =>
    simpa [expanded, or_imp, forall_and, plain first, plain second] using
      ⟨fun a _ => (plain a).1, fun a _ => (plain a).2⟩

theorem expanded_orParts (plain : ∀ a, '|' ∉ text a ∧ text a ≠ []) (alternatives : Alternatives α) :
    OrParts (alternatives.expanded text) where
  two := by cases alternatives <;> simp [expanded]
  plain part member := (expanded_plain plain alternatives part member).1
  rest part member := (expanded_plain plain alternatives part (List.mem_of_mem_tail member)).2

theorem expandSelect_eq (plain : ∀ a, '|' ∉ text a ∧ text a ≠ []) (double : Bool)
    (alternatives : Alternatives α) :
    expandSelect ((orText double).intercalate (alternatives.parts text)) =
      (alternatives.expanded text, (orText double).intercalate (alternatives.expanded text)) := by
  have good := alternatives.orParts plain
  rw [expandSelect, splitStr_intercalate good, splitOn_orText good]
  cases alternatives with
  | omitted name rest => simp [parts, expanded]
  | listed first second rest =>
    have nonempty := (plain first).2
    simp only [parts, expanded]
    split
    · simp_all
    · rfl

end Alternatives

theorem Name.no_special {c : Char} (special : nameChar c = false) : ¬ ∃ name : Name, c ∈ name.text :=
  fun ⟨name, member⟩ => name.not_mem special member

theorem Alternative.no_special {c : Char} (special : nameChar c = false) (star : c ≠ '*') :
    ¬ ∃ alternative : Alternative, c ∈ alternative.text := by
  rintro ⟨⟨isVirtual, name⟩, member⟩
  cases isVirtual
  · exact name.not_mem special member
  · exact (List.mem_cons.mp member).elim star (name.not_mem special)

theorem expandWeak_eq (double : Bool) (alternatives : Alternatives Name) :
    expandWeak ((orText double).intercalate (alternatives.parts Name.text)) =
      (Token.or double alternatives).weakNames := by
  have good := alternatives.orParts Name.plain
  rw [expandWeak, splitStr_intercalate good, splitOn_orText good]
  cases alternatives with
  | omitted name rest => rfl
  | listed first second rest =>
    have nonempty := first.nonempty
    simp only [Alternatives.parts, Token.weakNames]
    split
    · simp_all
    · rfl

theorem selectedNames_eq {subdeps : List Text} (nonempty : ∀ subdep ∈ subdeps, subdep ≠ []) :
    selectedNames subdeps = some (subdeps.filter (·.head? ≠ some '*')) := by
  induction subdeps with
  | nil => rfl
  | cons subdep subdeps ih =>
    obtain ⟨c, rest, rfl⟩ := List.exists_cons_of_ne_nil (nonempty subdep (List.mem_cons_self ..))
    have later := ih fun other member => nonempty other (List.mem_cons_of_mem _ member)
    by_cases star : c = '*' <;> simp [selectedNames, later, star]

private theorem filter_alternatives (alternatives : List Alternative) :
    (alternatives.map Alternative.text).filter (·.head? ≠ some '*') =
      (alternatives.filter (!·.isVirtual)).map (·.name.text) := by
  induction alternatives with
  | nil => rfl
  | cons alternative rest ih =>
    obtain ⟨isVirtual, name⟩ := alternative
    have plain := name.head_ne (c := '*') (by decide)
    cases isVirtual
    · simpa [Alternative.text, plain] using ih
    · simpa [Alternative.text] using ih

theorem filter_expanded (strong double : Bool) (alternatives : Alternatives Alternative) :
    (alternatives.expanded Alternative.text).filter (·.head? ≠ some '*') =
      (Token.selectOr strong double alternatives).selectedNames := by
  cases alternatives with
  | omitted name rest =>
    have plain := name.head_ne (c := '*') (by decide)
    have names := filter_alternatives rest
    simp_all [Alternatives.expanded, Token.selectedNames]
  | listed first second rest => exact filter_alternatives (first :: second :: rest)

theorem markers_marked (marks : Markers) (name : Name) :
    markers (marks.chars ++ name.text) = (marks.chars.count '&', marks.chars.count '?', name.text) :=
  markers_append marks.only fun _ first =>
    ⟨fun same => name.head_ne (by decide) (same ▸ first), fun same => name.head_ne (by decide) (same ▸ first)⟩

/-- A marker `?` is one that counts. -/
theorem Markers.count_ne_zero (marks : Markers) : marks.chars.count '?' ≠ 0 ↔ '?' ∈ marks.chars := by
  rw [← List.count_pos_iff, Nat.pos_iff_ne_zero]

theorem markers_selectOr (strong double : Bool) (alternatives : Alternatives Alternative) :
    markers (Token.selectOr strong double alternatives).text =
      (if strong then 2 else 1, 0, (orText double).intercalate (alternatives.parts Alternative.text)) := by
  have absent {c : Char} (bar : c ≠ '|') (special : nameChar c = false) (star : c ≠ '*') :
      c ∉ (orText double).intercalate (alternatives.parts Alternative.text) := fun member =>
    Alternative.no_special special star (Alternatives.mem_text bar special member)
  have first : ∀ c, ((orText double).intercalate (alternatives.parts Alternative.text)).head? = some c →
      c ≠ '&' ∧ c ≠ '?' := fun c found =>
    ⟨fun same => absent (c := '&') (by decide) (by decide) (by decide) (same ▸ List.mem_of_head? found),
      fun same => absent (c := '?') (by decide) (by decide) (by decide) (same ▸ List.mem_of_head? found)⟩
  rw [Token.text, markers_append (by cases strong <;> simp) first]
  cases strong <;> rfl

/-- An or-token of `select` or `imply` has no empty alternative. -/
def Selectable (dep : Text) : Prop := '|' ∈ dep → [] ∉ splitOn (splitStr dep) dep

/-- What reading tokens adds to an item, apart from names that contain `|`. -/
structure Reads (tokens : List Token) (item item' : Item) : Prop where
  vtype : item'.vtype = item.vtype
  awdeps : ∀ name, '|' ∉ name →
    (name ∈ item'.awdeps ↔ name ∈ item.awdeps ∨ ∃ token ∈ tokens, name ∈ token.weakNames)
  ideps : item'.ideps = item.ideps ++ tokens.flatMap Token.ideps
  wrule : ∀ rule ∈ item'.wrule, rule ∈ item.wrule ∨ ∃ token ∈ tokens, ∃ name ∈ rule, name ∈ token.written
  select : ∀ dep ∈ item'.select, dep ∈ item.select ∨ Selectable dep
  imply : ∀ dep ∈ item'.imply, dep ∈ item.imply ∨ Selectable dep

theorem Reads.nil (item : Item) : Reads [] item item where
  vtype := rfl
  awdeps := by simp
  ideps := by simp
  wrule _ member := .inl member
  select _ member := .inl member
  imply _ member := .inl member

theorem Reads.append {first second : List Token} {item item₁ item₂ : Item}
    (before : Reads first item item₁) (after : Reads second item₁ item₂) :
    Reads (first ++ second) item item₂ where
  vtype := after.vtype.trans before.vtype
  awdeps name plain := by
    rw [after.awdeps name plain, before.awdeps name plain, or_assoc]
    simp [or_and_right, exists_or]
  ideps := by rw [after.ideps, before.ideps, List.flatMap_append, List.append_assoc]
  wrule rule member := by
    rcases after.wrule rule member with member | ⟨token, inside, known⟩
    · exact (before.wrule rule member).imp_right fun ⟨token, inside, known⟩ =>
        ⟨token, List.mem_append_left _ inside, known⟩
    · exact .inr ⟨token, List.mem_append_right _ inside, known⟩
  select dep member := (after.select dep member).elim (before.select dep) .inr
  imply dep member := (after.imply dep member).elim (before.imply dep) .inr

theorem Reads.ofSelect {item : Item} {dep : Text} (selectable : Selectable dep) (strong : Bool) :
    Reads [] item (if strong then { item with select := item.select ++ [dep] }
      else { item with imply := item.imply ++ [dep] }) := by
  have added (deps : List Text) : ∀ other ∈ deps ++ [dep], other ∈ deps ∨ Selectable other := by
    intro other member
    rcases List.mem_append.mp member with member | last
    · exact .inl member
    · exact .inr (List.mem_singleton.mp last ▸ selectable)
  cases strong with
  | true =>
    exact ⟨rfl, by simp, by simp, fun _ member => .inl member, added _, fun _ member => .inl member⟩
  | false =>
    exact ⟨rfl, by simp, by simp, fun _ member => .inl member, fun _ member => .inl member, added _⟩

theorem Reads.ofWeak {token : Token} {item item' : Item} {names : List Text}
    (added : item' = { item with vwdeps := item'.vwdeps, awdeps := item.awdeps ++ names })
    (weak : ∀ name, '|' ∉ name → (name ∈ names ↔ name ∈ token.weakNames)) (none : token.ideps = []) :
    Reads [token] item item' where
  vtype := by rw [added]
  awdeps name plain := by rw [added]; simp [weak name plain]
  ideps := by rw [added]; simp [none]
  wrule _ member := .inl (by rw [added] at member; exact member)
  select _ member := .inl (by rw [added] at member; exact member)
  imply _ member := .inl (by rw [added] at member; exact member)

theorem addAlternatives_eq {item : Item} {dep : Text} {subdeps : List Text}
    (nonempty : ∀ subdep ∈ subdeps, subdep ≠ []) :
    ∃ weak selected : List Text, (∀ name ∈ selected, name = dep) ∧
      item.addAlternatives dep subdeps =
        some { item with vwdeps := item.vwdeps ++ weak, awdeps := item.awdeps ++ selected } := by
  induction subdeps generalizing item with
  | nil => exact ⟨[], [], by simp, by simp [Item.addAlternatives]⟩
  | cons subdep subdeps ih =>
    obtain ⟨c, rest, rfl⟩ := List.exists_cons_of_ne_nil (nonempty subdep (List.mem_cons_self ..))
    have later := fun item : Item =>
      @ih item fun other member => nonempty other (List.mem_cons_of_mem _ member)
    rw [Item.addAlternatives]
    split
    · obtain ⟨weak, selected, whole, same⟩ := later { item with vwdeps := item.vwdeps ++ [dep.drop 1] }
      exact ⟨dep.drop 1 :: weak, selected, whole, by rw [same]; simp⟩
    · obtain ⟨weak, selected, whole, same⟩ := later { item with awdeps := item.awdeps ++ [dep] }
      exact ⟨weak, dep :: selected, by simpa using whole, by rw [same]; simp⟩

/-- No keyword contains a marker, so a token with one goes to the chain of tests. -/
theorem setItemDep_special {reg : Registry} {item : Item} {c : Char} {rest : Text} (plain : c ≠ '*')
    (special : ∃ d ∈ c :: rest, nameChar d = false) :
    setItemDep reg item (c :: rest) =
      if c = '!' then some (reg, { item with cdeps := item.cdeps ++ [rest] })
      else if '@' ∈ c :: rest then some (reg, { item with ideps := item.ideps ++ [c :: rest] })
      else if c = '&' || c = '?' then
        (item.addMarked false (c :: rest)).map fun item => (reg, item)
      else if '=' ∈ c :: rest then some (reg, { item with edeps := item.edeps ++ [c :: rest] })
      else if '|' ∈ c :: rest then
        let subdeps := expandWeak (c :: rest)
        let item := item.addWeak false subdeps
        some (reg, { item with wrule := item.wrule ++ [subdeps] })
      else some (reg, item.addStrong false (c :: rest)) := by
  have notKeyword (word : Text) (named : word.all nameChar) : c :: rest ≠ word := by
    rintro rfl
    obtain ⟨d, inside, other⟩ := special
    exact absurd (List.all_eq_true.mp named d inside) (by simp [other])
  have isVirtual : ¬ (c :: rest).head? = some '*' := by simpa using plain
  unfold setItemDep
  simp only [isVirtual, decide_false, if_false, notKeyword "kconfig".toList (by decide),
    notKeyword "nokconfig".toList (by decide), notKeyword "versioncfg".toList (by decide),
    notKeyword "featurecfg".toList (by decide), notKeyword "unselect".toList (by decide),
    notKeyword "selected".toList (by decide)]

theorem addMarked_marked (item : Item) (marks : Markers) (name : Name) :
    ∃ item', item.addMarked false (marks.chars ++ name.text) = some item' ∧
      Reads [.marked marks name] item item' := by
  have read := markers_marked marks name
  have plain := (Name.plain name).1
  have selectable : Selectable name.text := fun or => absurd or plain
  have query := marks.count_ne_zero
  obtain ⟨item₁, selected, before⟩ : ∃ item₁,
      (if marks.chars.count '&' = 2 || marks.chars.count '&' = 1 then
        some (if marks.chars.count '&' = 2 then { item with select := item.select ++ [name.text] }
          else { item with imply := item.imply ++ [name.text] }) else some item) = some item₁ ∧
      Reads [] item item₁ := by
    split
    · exact ⟨_, rfl, by simpa using Reads.ofSelect selectable (marks.chars.count '&' = 2)⟩
    · exact ⟨item, rfl, .nil item⟩
  refine ⟨if marks.chars.count '?' ≠ 0 then item₁.addWeak false [name.text] else item₁, ?_, ?_⟩
  · simp only [Item.addMarked, read, plain, if_false]
    split at selected
    · next amp => rw [if_pos amp, ← Option.some.inj selected]; rfl
    · next amp => rw [if_neg amp, ← Option.some.inj selected]; rfl
  · refine before.append (@Reads.ofWeak _ _ _ (if '?' ∈ marks.chars then [name.text] else []) ?_ ?_ rfl)
    · simp only [query]
      split <;> simp [Item.addWeak]
    · simp [Token.weakNames]

theorem addMarked_selectOr (item : Item) (strong double : Bool)
    (alternatives : Alternatives Alternative) :
    ∃ item', item.addMarked false (Token.selectOr strong double alternatives).text = some item' ∧
      Reads [.selectOr strong double alternatives] item item' := by
  have written := alternatives.orParts Alternative.plain
  have good := alternatives.expanded_orParts Alternative.plain
  have read := markers_selectOr strong double alternatives
  obtain ⟨weak, selected, whole, added⟩ := @addAlternatives_eq item
    ((orText double).intercalate (alternatives.expanded Alternative.text)) _
    fun part member => (alternatives.expanded_plain Alternative.plain part member).2
  have selectable : Selectable ((orText double).intercalate (alternatives.expanded Alternative.text)) := by
    intro _ empty
    rw [splitStr_intercalate good, splitOn_orText good] at empty
    exact (alternatives.expanded_plain Alternative.plain _ empty).2 rfl
  refine ⟨_, ?_, (@Reads.ofWeak (.selectOr strong double alternatives) _
    { item with vwdeps := item.vwdeps ++ weak, awdeps := item.awdeps ++ selected } selected
    rfl ?_ rfl).append (.ofSelect selectable strong)⟩
  · rw [Item.addMarked, read]
    cases strong <;>
      simp [mem_orText written, Alternatives.expandSelect_eq Alternative.plain, added]
  · intro name plain
    simp only [Token.weakNames, List.not_mem_nil, iff_false]
    intro member
    exact plain (whole name member ▸ mem_orText good)

/-- How a token begins, and the marker that tells it from a bare name. -/
theorem Token.text_cases (token : Token) :
    ∃ c rest, token.text = c :: rest ∧ c ≠ '*' ∧ c ≠ '!' ∧ (∃ d ∈ token.text, nameChar d = false) ∧
      match token with
      | .marked .. | .selectOr .. => (c = '&' ∨ c = '?') ∧ '@' ∉ token.text
      | .or .. => (c ≠ '&' ∧ c ≠ '?') ∧ '|' ∈ token.text ∧ '@' ∉ token.text ∧ '=' ∉ token.text
      | .cond .. => (c ≠ '&' ∧ c ≠ '?') ∧ '@' ∈ token.text ∧ '|' ∉ token.text := by
  cases token with
  | marked marks name =>
    obtain ⟨c, rest, same⟩ := List.exists_cons_of_ne_nil marks.nonempty
    have head := marks.only c (same ▸ List.mem_cons_self ..)
    have at_ : '@' ∉ marks.chars := fun member => absurd (marks.only _ member) (by decide)
    refine ⟨c, rest ++ name.text, by rw [Token.text, same]; rfl, ?_, ?_, ⟨c, ?_, ?_⟩, head, ?_⟩
    · rcases head with rfl | rfl <;> decide
    · rcases head with rfl | rfl <;> decide
    · rw [Token.text, same]; exact List.mem_cons_self ..
    · rcases head with rfl | rfl <;> decide
    · simp [Token.text, at_, name.not_mem (c := '@') (by decide)]
  | selectOr strong double alternatives =>
    have absent : '@' ∉ (orText double).intercalate (alternatives.parts Alternative.text) := fun member =>
      Alternative.no_special (by decide) (by decide)
        (Alternatives.mem_text (c := '@') (by decide) (by decide) member)
    cases strong with
    | true => exact ⟨_, _, rfl, by decide, by decide, ⟨'&', by simp [Token.text], by decide⟩, by decide,
        by simpa [Token.text] using absent⟩
    | false => exact ⟨_, _, rfl, by decide, by decide, ⟨'&', by simp [Token.text], by decide⟩, by decide,
        by simpa [Token.text] using absent⟩
  | or double alternatives =>
    have bar := @mem_orText double _ (alternatives.orParts Name.plain)
    have absent {c : Char} (other : c ≠ '|') (special : nameChar c = false) :
        c ∉ (Token.or double alternatives).text := fun member =>
      Name.no_special special (Alternatives.mem_text other special member)
    obtain ⟨c, rest, same⟩ := List.exists_cons_of_ne_nil (List.ne_nil_of_mem bar)
    have head {d : Char} (other : d ≠ '|') (special : nameChar d = false) : c ≠ d := fun equal =>
      absent other special (by rw [Token.text, same, equal]; exact List.mem_cons_self ..)
    exact ⟨c, rest, same, head (by decide) (by decide), head (by decide) (by decide), ⟨'|', bar, by decide⟩,
      ⟨head (by decide) (by decide), head (by decide) (by decide)⟩, bar,
      absent (by decide) (by decide), absent (by decide) (by decide)⟩
  | cond double dep condition =>
    obtain ⟨c, rest, same⟩ := List.exists_cons_of_ne_nil dep.nonempty
    have head {d : Char} (special : nameChar d = false) : c ≠ d := fun equal =>
      dep.not_mem special (by rw [same, equal]; exact List.mem_cons_self ..)
    have inside : '@' ∈ (Token.cond double dep condition).text := by
      cases double <;> simp [Token.text, CondDep.text]
    have bar : '|' ∉ (Token.cond double dep condition).text := by
      cases double <;> simp [Token.text, CondDep.text, dep.not_mem (c := '|') (by decide),
        condition.not_mem (c := '|') (by decide)]
    exact ⟨c, _, by rw [Token.text, CondDep.text, same]; rfl, head (by decide), head (by decide), ⟨'@', inside, by decide⟩,
      ⟨head (by decide), head (by decide)⟩, inside, bar⟩

/-- `__set_item_deps` reads a token as documented, but for the alternatives of a selected or-token. -/
theorem setItemDep_token (reg : Registry) (item : Item) (token : Token) :
    ∃ item', setItemDep reg item token.text = some (reg, item') ∧ Reads [token] item item' := by
  obtain ⟨c, rest, same, star, exclamation, special, shape⟩ := token.text_cases
  rw [same] at special ⊢
  rw [setItemDep_special star special, if_neg exclamation, ← same]
  cases token with
  | marked marks name =>
    obtain ⟨head, noAt⟩ := shape
    obtain ⟨item', added, reads⟩ := addMarked_marked item marks name
    rw [if_neg noAt, if_pos (by simpa using head)]
    exact ⟨item', by rw [Token.text, added]; rfl, reads⟩
  | selectOr strong double alternatives =>
    obtain ⟨head, noAt⟩ := shape
    obtain ⟨item', added, reads⟩ := addMarked_selectOr item strong double alternatives
    rw [if_neg noAt, if_pos (by simpa using head)]
    exact ⟨item', by rw [added]; rfl, reads⟩
  | or double alternatives =>
    obtain ⟨head, bar, noAt, noEqual⟩ := shape
    rw [if_neg noAt, if_neg (by simpa using head), if_neg noEqual, if_pos bar]
    have names := expandWeak_eq double alternatives
    refine ⟨_, rfl, rfl, ?_, by simp [Item.addWeak, Token.ideps], ?_, fun _ member => .inl member,
      fun _ member => .inl member⟩
    · simp [Token.text, Item.addWeak, names]
    · intro rule member
      rcases List.mem_append.mp member with before | last
      · exact .inl before
      · rw [List.mem_singleton.mp last, Token.text, names]
        refine .inr ⟨_, List.mem_singleton_self _, ?_⟩
        cases alternatives with
        | omitted name rest => exact ⟨name.text, by simp [Token.weakNames], by simp [Token.written]⟩
        | listed first second rest => exact ⟨first.text, by simp [Token.weakNames], by simp [Token.written]⟩
  | cond double dep condition =>
    rw [if_pos shape.2.1]
    exact ⟨_, rfl, rfl, by simp [Token.weakNames], by simp [Token.ideps], fun _ member => .inl member,
      fun _ member => .inl member, fun _ member => .inl member⟩

theorem setItemDeps_tokens (reg : Registry) (item : Item) (tokens : List Token) :
    ∃ item', setItemDeps reg item (tokens.map Token.text) = some (reg, item') ∧
      Reads tokens item item' := by
  induction tokens generalizing item with
  | nil => exact ⟨item, rfl, .nil item⟩
  | cons token tokens ih =>
    obtain ⟨item₁, here, first⟩ := setItemDep_token reg item token
    obtain ⟨item₂, later, rest⟩ := ih item₁
    exact ⟨item₂, by simp [setItemDeps, here, later], first.append rest⟩

/-- What reading tokens adds to the lists of the function. -/
structure Collects (tokens : List Token) (weak weak' : Weak) : Prop where
  weakdeps : ∀ name, name ∈ weak'.weakdeps ↔ name ∈ weak.weakdeps ∨
    ∃ token ∈ tokens, name ∈ token.weakNames ∨ name ∈ token.selectedNames
  ideps : weak'.ideps = weak.ideps ++ tokens.flatMap Token.ideps

theorem Collects.append {first second : List Token} {weak weak₁ weak₂ : Weak}
    (before : Collects first weak weak₁) (after : Collects second weak₁ weak₂) :
    Collects (first ++ second) weak weak₂ where
  weakdeps name := by
    rw [after.weakdeps, before.weakdeps, or_assoc]
    simp [or_and_right, exists_or]
  ideps := by rw [after.ideps, before.ideps, List.flatMap_append, List.append_assoc]

/-- A token that only adds names, to DEPENDS or to both lists. -/
theorem Collects.ofAdd {token : Token} (weak : Weak) (runtime : Bool) {names : List Text}
    (added : ∀ name, name ∈ names ↔ name ∈ token.weakNames ∨ name ∈ token.selectedNames)
    (none : token.ideps = []) : Collects [token] weak (weak.add runtime names) where
  weakdeps name := by simp [Weak.add, added name]
  ideps := by simp [Weak.add, none]

theorem addMarked_weak (weak : Weak) (marks : Markers) (name : Name) :
    ∃ weak', addMarked weak (marks.chars ++ name.text) = some weak' ∧
      Collects [.marked marks name] weak weak' := by
  have read := markers_marked marks name
  have plain := (Name.plain name).1
  have query := marks.count_ne_zero
  have small := marks.queNum
  simp only [addMarked, read, plain, List.contains_eq_mem, decide_false, Bool.and_false,
    Bool.false_eq_true, if_false, bind, Option.bind_some]
  by_cases double : marks.chars.count '?' = 2
  · have asked : '?' ∈ marks.chars := query.mp (by omega)
    rw [if_pos double]
    exact ⟨_, rfl, .ofAdd weak true (by simp [Token.weakNames, Token.selectedNames, asked]) rfl⟩
  · rw [if_neg double]
    by_cases single : marks.chars.count '?' = 1
    · have asked : '?' ∈ marks.chars := query.mp (by omega)
      rw [if_pos single]
      exact ⟨_, rfl, .ofAdd weak false (by simp [Token.weakNames, Token.selectedNames, asked]) rfl⟩
    · have silent : '?' ∉ marks.chars := fun member => query.mpr member (by omega)
      rw [if_neg single]
      exact ⟨_, rfl, by simp [Token.weakNames, Token.selectedNames, silent], by simp [Token.ideps]⟩

theorem addMarked_selectOr_weak (weak : Weak) (strong double : Bool)
    (alternatives : Alternatives Alternative) :
    ∃ weak', addMarked weak (Token.selectOr strong double alternatives).text = some weak' ∧
      Collects [.selectOr strong double alternatives] weak weak' := by
  have written := alternatives.orParts Alternative.plain
  have names := selectedNames_eq fun part member =>
    (alternatives.expanded_plain Alternative.plain part member).2
  rw [filter_expanded strong double] at names
  refine ⟨weak.add (splitStr ((orText double).intercalate (alternatives.parts Alternative.text)) = ['|', '|'])
    (Token.selectOr strong double alternatives).selectedNames, ?_,
    .ofAdd weak _ (by simp [Token.weakNames]) rfl⟩
  rw [addMarked, markers_selectOr]
  cases strong <;>
    simp [mem_orText written, Alternatives.expandSelect_eq Alternative.plain, names]

/-- The class reads a token as documented, and adds the alternatives of a selected or-token. -/
theorem addDep_token (weak : Weak) (token : Token) :
    ∃ weak', addDep weak token.text = some weak' ∧ Collects [token] weak weak' := by
  obtain ⟨c, rest, same, _, _, _, shape⟩ := token.text_cases
  have read : addDep weak token.text =
      if c = '&' || c = '?' then addMarked weak token.text
      else if '|' ∈ token.text then
        some (weak.add (splitStr token.text = ['|', '|']) (expandWeak token.text))
      else if '@' ∈ token.text then some { weak with ideps := weak.ideps ++ [token.text] }
      else some weak := by
    rw [same]
    rfl
  rw [read]
  cases token with
  | marked marks name =>
    rw [if_pos (by simpa using shape.1)]
    exact addMarked_weak weak marks name
  | selectOr strong double alternatives =>
    rw [if_pos (by simpa using shape.1)]
    exact addMarked_selectOr_weak weak strong double alternatives
  | or double alternatives =>
    obtain ⟨head, bar, _, _⟩ := shape
    rw [if_neg (by simpa using head), if_pos bar]
    refine ⟨_, rfl, .ofAdd weak _ ?_ rfl⟩
    simp [Token.text, expandWeak_eq, Token.selectedNames]
  | cond double dep condition =>
    obtain ⟨head, inside, bar⟩ := shape
    rw [if_neg (by simpa using head), if_neg bar, if_pos inside]
    exact ⟨_, rfl, by simp [Token.weakNames, Token.selectedNames], by simp [Token.ideps]⟩

theorem addDeps_tokens (weak : Weak) (tokens : List Token) :
    ∃ weak', addDeps weak (tokens.map Token.text) = some weak' ∧ Collects tokens weak weak' := by
  induction tokens generalizing weak with
  | nil => exact ⟨weak, rfl, by simp, by simp⟩
  | cons token tokens ih =>
    obtain ⟨weak₁, here, first⟩ := addDep_token weak token
    obtain ⟨weak₂, later, rest⟩ := ih weak₁
    exact ⟨weak₂, by simp [addDeps, here, later], first.append rest⟩

end CBuild.Soundness.WeakGrammar
