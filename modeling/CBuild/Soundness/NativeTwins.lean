import CBuild.Model.GenBuildChain.NativeDeps
import CBuild.Soundness.WeakGrammar

/-! # Dependences of native twins

A native twin depends on native twins. The script renames a token of alternatives as one name, so it is
right about such a token only when nothing but its last alternative has to be renamed.
-/

namespace CBuild.Soundness.NativeTwins

open CBuild.Text CBuild.Model.GenBuildChain CBuild.Soundness.WeakGrammar

variable {uniPackages : List Text} {target dep token : Text} {deps : List Text}

/-- An alternative of a token, renamed behind its `*`; an omitted one stays omitted. -/
def renameAlternative (uniPackages : List Text) : Text → Text
  | [] => []
  | c :: name => if c = '*' then '*' :: toNative uniPackages name else toNative uniPackages (c :: name)

/-- A token with every alternative renamed. -/
def renameToken (uniPackages : List Text) (token : Text) : Text :=
  if '|' ∈ token then
    (splitStr token).intercalate ((splitOn (splitStr token) token).map (renameAlternative uniPackages))
  else toNative uniPackages token

/-- The list has the renamed tokens, without the name of the twin. -/
def Image (uniPackages : List Text) (target : Text) (deps renamed : List Text) : Prop :=
  ∀ name, name ∈ renamed ↔ name ≠ target ∧ ∃ dep ∈ deps, renameToken uniPackages dep = name

/-- The rules have the renamed names, rule by rule, without the name of the twin; rules without names are
dropped. -/
def RuleImage (uniPackages : List Text) (target : Text) (wrule renamed : List (List Text)) : Prop :=
  ∃ rules : List (List Text), renamed = rules.filter (· ≠ []) ∧
    List.Forall₂ (fun rule names => ∀ name,
      name ∈ names ↔ name ≠ target ∧ ∃ dep ∈ rule, toNative uniPackages dep = name) wrule rules

/-- Whatever a token of the twin is resolved to is a renamed alternative of a token. -/
def Resolves (uniPackages : List Text) (deps renamed : List Text) : Prop :=
  ∀ token ∈ renamed, '|' ∈ token → ∀ targetList name,
    firstAlternative targetList (splitOn (splitStr token) token) = some (some name) →
      ∃ dep ∈ deps, ∃ alternative ∈ splitOn (splitStr dep) dep,
        name = toNative uniPackages (if alternative.head? = some '*' then alternative.tail else alternative)

def fields (item : Item) : List (List Text) :=
  [item.asdeps, item.vsdeps, item.awdeps, item.vwdeps, item.cdeps, item.select, item.imply]

/-- The twin depends on twins. -/
structure Twins (uniPackages : List Text) (item nitem : Item) : Prop where
  images : List.Forall₂ (Image uniPackages nitem.target) (fields item) (fields nitem)
  rules : RuleImage uniPackages nitem.target item.wrule nitem.wrule
  select : Resolves uniPackages item.select nitem.select
  imply : Resolves uniPackages item.imply nitem.imply

/-- A name, or alternatives as the script writes them. -/
def Written (token : Text) : Prop :=
  '|' ∉ token ∨ ∃ double parts, OrParts parts ∧ token = (orText double).intercalate parts

/-- Of the alternatives of a token, all but the last are their own twins; the last one is, too, exactly when
the token as a whole is. -/
def Suited (uniPackages : List Text) (token : Text) : Prop :=
  '|' ∈ token → ∃ first last, splitOn (splitStr token) token = first ++ [last] ∧
    (∀ part ∈ first, renameAlternative uniPackages part = part) ∧
    (renameAlternative uniPackages last = last ↔ toNative uniPackages token = token)

theorem isNative_append (dep : Text) : isNative (dep ++ nativePart) = true :=
  List.isSuffixOf_iff_suffix.mpr (List.suffix_append ..)

theorem toNative_cases (uniPackages : List Text) (dep : Text) :
    toNative uniPackages dep = dep ∨ toNative uniPackages dep = dep ++ nativePart := by
  unfold toNative
  split
  · exact Or.inl rfl
  · exact Or.inr rfl

theorem nativePart_ne_nil : nativePart ≠ [] := by
  unfold nativePart
  decide

theorem bar_not_mem_nativePart : '|' ∉ nativePart := by
  unfold nativePart
  decide

/-- A renamed name is its own twin. -/
theorem toNative_toNative (uniPackages : List Text) (dep : Text) :
    toNative uniPackages (toNative uniPackages dep) = toNative uniPackages dep := by
  obtain same | added := toNative_cases uniPackages dep
  · rw [same, same]
  · rw [added, toNative, show nativePart.isSuffixOf (dep ++ nativePart) = true from isNative_append dep]
    rfl

theorem bar_mem_toNative : '|' ∈ toNative uniPackages dep ↔ '|' ∈ dep := by
  obtain same | added := toNative_cases uniPackages dep
  · rw [same]
  · rw [added, List.mem_append]
    exact or_iff_left bar_not_mem_nativePart

theorem toNative_ne_nil (nonempty : dep ≠ []) : toNative uniPackages dep ≠ [] := by
  obtain same | added := toNative_cases uniPackages dep
  · rwa [same]
  · rw [added]
    exact fun empty => nonempty (List.append_eq_nil_iff.mp empty).1

theorem renameAlternative_idem (uniPackages : List Text) (part : Text) :
    renameAlternative uniPackages (renameAlternative uniPackages part) = renameAlternative uniPackages part := by
  match part with
  | [] => rfl
  | c :: name =>
    by_cases star : c = '*'
    · have renamed : renameAlternative uniPackages (c :: name) = '*' :: toNative uniPackages name := if_pos star
      rw [renamed, renameAlternative, if_pos rfl, toNative_toNative]
    · have renamed : renameAlternative uniPackages (c :: name) = toNative uniPackages (c :: name) := if_neg star
      obtain same | added := toNative_cases uniPackages (c :: name)
      · rw [renamed, same, renamed, same]
      · rw [renamed, added, List.cons_append, renameAlternative, if_neg star, ← List.cons_append, ← added,
          toNative_toNative]

theorem renameAlternative_plain {part : Text} (plain : '|' ∉ part ∧ part ≠ []) :
    '|' ∉ renameAlternative uniPackages part ∧ renameAlternative uniPackages part ≠ [] := by
  obtain ⟨absent, nonempty⟩ := plain
  match part with
  | [] => exact absurd rfl nonempty
  | c :: name =>
    by_cases star : c = '*'
    · have renamed : renameAlternative uniPackages (c :: name) = '*' :: toNative uniPackages name := if_pos star
      rw [renamed, List.mem_cons, not_or]
      exact ⟨⟨by decide, fun member => absent (List.mem_cons_of_mem _ (bar_mem_toNative.mp member))⟩, nofun⟩
    · have renamed : renameAlternative uniPackages (c :: name) = toNative uniPackages (c :: name) := if_neg star
      rw [renamed]
      exact ⟨fun member => absent (bar_mem_toNative.mp member), toNative_ne_nil nonempty⟩

theorem renameAlternative_cases (uniPackages : List Text) {part : Text} (nonempty : part ≠ []) :
    renameAlternative uniPackages part = part ∨ renameAlternative uniPackages part = part ++ nativePart := by
  match part with
  | [] => exact absurd rfl nonempty
  | c :: name =>
    by_cases star : c = '*'
    · have behind : renameAlternative uniPackages (c :: name) = '*' :: toNative uniPackages name := if_pos star
      rw [behind, star]
      exact (toNative_cases uniPackages name).imp (congrArg _) (congrArg _)
    · have whole : renameAlternative uniPackages (c :: name) = toNative uniPackages (c :: name) := if_neg star
      rw [whole]
      exact toNative_cases uniPackages (c :: name)

variable {double : Bool} {parts first : List Text} {last : Text}

theorem intercalate_append (sep : Text) (first : List Text) (last added : Text) :
    sep.intercalate (first ++ [last]) ++ added = sep.intercalate (first ++ [last ++ added]) := by
  induction first with
  | nil => rw [List.nil_append, List.nil_append, List.intercalate_singleton, List.intercalate_singleton]
  | cons part first ih =>
    cases first with
    | nil => simp [List.intercalate_cons_cons]
    | cons next first =>
      rw [List.cons_append, List.cons_append, List.cons_append, List.cons_append, List.intercalate_cons_cons,
        List.intercalate_cons_cons, List.append_assoc]
      exact congrArg _ ih

theorem orParts_map (good : OrParts parts) : OrParts (parts.map (renameAlternative uniPackages)) := by
  refine ⟨by rw [List.length_map]; exact good.two, ?_, ?_⟩
  · intro part member
    obtain ⟨part, inside, rfl⟩ := List.mem_map.mp member
    by_cases empty : part = []
    · subst empty
      exact List.not_mem_nil
    · exact (renameAlternative_plain ⟨good.plain part inside, empty⟩).1
  · intro part member
    rw [← List.map_tail] at member
    obtain ⟨part, inside, rfl⟩ := List.mem_map.mp member
    exact (renameAlternative_plain ⟨good.plain part (List.mem_of_mem_tail inside), good.rest part inside⟩).2

/-- The last alternative is no omitted one. -/
theorem last_ne_nil (good : OrParts (first ++ [last])) : last ≠ [] := by
  cases first with
  | nil => exact absurd good.two (by simp)
  | cons part first =>
    exact good.rest last (by rw [List.cons_append, List.tail_cons]; exact List.mem_append_right _ (List.mem_singleton_self last))

/-- The suffix of native packages goes to the last alternative. -/
theorem orParts_append (good : OrParts (first ++ [last])) : OrParts (first ++ [last ++ nativePart]) := by
  refine ⟨by simpa using good.two, ?_, ?_⟩
  · intro part member
    obtain inside | same := List.mem_append.mp member
    · exact good.plain part (List.mem_append_left _ inside)
    · rw [List.mem_singleton.mp same, List.mem_append, not_or]
      exact ⟨good.plain last (List.mem_append_right _ (List.mem_singleton_self last)), bar_not_mem_nativePart⟩
  · intro part member
    cases first with
    | nil => cases member
    | cons head first =>
      rw [List.cons_append, List.tail_cons] at member
      obtain inside | same := List.mem_append.mp member
      · exact good.rest part (List.mem_append_left _ inside)
      · rw [List.mem_singleton.mp same]
        exact fun empty => nativePart_ne_nil (List.append_eq_nil_iff.mp empty).2

theorem splitOn_written (good : OrParts parts) :
    splitOn (splitStr ((orText double).intercalate parts)) ((orText double).intercalate parts) = parts := by
  rw [splitStr_intercalate good, splitOn_orText good]

/-- Tokens of alternatives are equal when their alternatives and separators are. -/
theorem parts_eq {double' : Bool} {parts' : List Text} (good : OrParts parts) (good' : OrParts parts')
    (same : (orText double).intercalate parts = (orText double').intercalate parts') : parts = parts' := by
  rw [← splitOn_written good, same, splitOn_written good']

theorem renameToken_written (good : OrParts parts) : renameToken uniPackages ((orText double).intercalate parts) =
    (orText double).intercalate (parts.map (renameAlternative uniPackages)) := by
  rw [renameToken, if_pos (mem_orText good), splitOn_written good, splitStr_intercalate good]

/-- The alternatives of the token that the script writes. -/
theorem toNative_written (uniPackages : List Text) (token : Text) (same : token = (orText double).intercalate (first ++ [last])) :
    ∃ last', toNative uniPackages token = (orText double).intercalate (first ++ [last']) ∧
      (last' = last ∧ toNative uniPackages token = token ∨
        last' = last ++ nativePart ∧ toNative uniPackages token = token ++ nativePart) := by
  obtain unchanged | added := toNative_cases uniPackages token
  · exact ⟨last, unchanged.trans same, Or.inl ⟨rfl, unchanged⟩⟩
  · exact ⟨last ++ nativePart, by rw [added, same, intercalate_append], Or.inr ⟨rfl, added⟩⟩

/-- A token of alternatives is renamed rightly exactly when it is suited. -/
theorem renameToken_eq_iff (written : Written token) :
    renameToken uniPackages token = toNative uniPackages token ↔ Suited uniPackages token := by
  obtain plain | ⟨double, parts, good, same⟩ := written
  · exact iff_of_true (if_neg plain) fun member => absurd member plain
  obtain ⟨first, last, rfl⟩ : ∃ first last, parts = first ++ [last] :=
    CBuild.Data.exists_append_singleton fun empty => by rw [empty] at good; exact absurd good.two (by simp)
  obtain ⟨last', renamed, ending⟩ := toNative_written uniPackages token same
  have split : splitOn (splitStr token) token = first ++ [last] := by rw [same, splitOn_written good]
  have right : renameToken uniPackages token =
      (orText double).intercalate (first.map (renameAlternative uniPackages) ++ [renameAlternative uniPackages last]) := by
    rw [same, renameToken_written good, List.map_append, List.map_singleton]
  have goodMap : OrParts (first.map (renameAlternative uniPackages) ++ [renameAlternative uniPackages last]) := by
    have mapped := @orParts_map uniPackages _ good
    rwa [List.map_append, List.map_singleton] at mapped
  have good' : OrParts (first ++ [last']) := by
    obtain ⟨rfl, -⟩ | ⟨rfl, -⟩ := ending
    · exact good
    · exact orParts_append good
  have lastAlternative := renameAlternative_cases uniPackages (last_ne_nil good)
  have different : last ++ nativePart ≠ last := fun equal =>
    nativePart_ne_nil (List.append_right_eq_self.mp equal)
  have longer : token ++ nativePart ≠ token := fun equal =>
    nativePart_ne_nil (List.append_right_eq_self.mp equal)
  have lastIff : renameAlternative uniPackages last = last' ↔
      (renameAlternative uniPackages last = last ↔ toNative uniPackages token = token) := by
    obtain ⟨rfl, unchanged⟩ | ⟨rfl, added⟩ := ending
    · exact (iff_true_right unchanged).symm
    · obtain own | other := lastAlternative
      · rw [own, added]
        exact iff_of_false different.symm fun equivalent => longer (equivalent.mp rfl)
      · rw [other, added]
        exact iff_of_true rfl (iff_of_false different longer)
  rw [right, renamed]
  constructor
  · intro equal _
    have partsEqual := parts_eq goodMap good' equal
    obtain ⟨firstEqual, lastEqual⟩ := List.append_inj' partsEqual rfl
    refine ⟨first, last, split, ?_, lastIff.mp (List.singleton_inj.mp lastEqual)⟩
    intro part member
    have each := List.map_eq_map_iff.mp (firstEqual.trans (List.map_id first).symm)
    exact each part member
  · intro suited
    obtain ⟨first', last'', split', own, lastOwn⟩ := suited (same ▸ mem_orText good)
    obtain ⟨rfl, single⟩ := List.append_inj' (split.symm.trans split') rfl
    cases List.singleton_inj.mp single
    rw [List.map_congr_left own, List.map_id', lastIff.mpr lastOwn]

theorem mem_switchNative {name : Text} : name ∈ switchNative uniPackages target deps ↔
    name ≠ target ∧ ∃ dep ∈ deps, toNative uniPackages dep = name := by
  have each (kept : List Text) : name ∈ deps.foldl (fun kept dep =>
      if toNative uniPackages dep ≠ target ∧ toNative uniPackages dep ∉ kept then
        kept ++ [toNative uniPackages dep]
      else kept) kept ↔ name ∈ kept ∨ name ≠ target ∧ ∃ dep ∈ deps, toNative uniPackages dep = name := by
    induction deps generalizing kept with
    | nil => simp
    | cons dep deps ih =>
      rw [List.foldl_cons, ih]
      simp only [List.mem_cons, exists_eq_or_imp]
      split
      · next new =>
        rw [List.mem_append, List.mem_singleton]
        grind
      · next old => grind
  unfold switchNative
  rw [each]
  exact or_iff_right List.not_mem_nil

theorem bar_mem_renameToken (written : Written token) :
    '|' ∈ renameToken uniPackages token ↔ '|' ∈ token := by
  obtain plain | ⟨double, parts, good, same⟩ := written
  · rw [renameToken, if_neg plain, bar_mem_toNative]
  · rw [same, renameToken_written good]
    exact iff_of_true (mem_orText (orParts_map good)) (mem_orText good)

/-- A list of the twin has the renamed tokens exactly when each of them is renamed rightly: no other token makes
up for a wrong one. -/
theorem image_iff (written : ∀ dep ∈ deps, Written dep) (plain : '|' ∉ target) :
    Image uniPackages target deps (switchNative uniPackages target deps) ↔
      ∀ dep ∈ deps, Suited uniPackages dep := by
  constructor
  · intro image dep member
    rw [← renameToken_eq_iff (written dep member)]
    by_cases simple : '|' ∉ dep
    · exact if_neg simple
    have bar : '|' ∈ dep := not_not.mp simple
    have other {name : Text} (inside : '|' ∈ name) : name ≠ target := fun same => plain (same ▸ inside)
    have barNative : '|' ∈ toNative uniPackages dep := bar_mem_toNative.mpr bar
    obtain ⟨-, source, inSource, renamed⟩ :=
      (image _).mp (mem_switchNative.mpr ⟨other barNative, dep, member, rfl⟩)
    obtain ⟨double, parts, good, same⟩ := (written dep member).resolve_left simple
    obtain ⟨double', parts', good', same'⟩ := (written source inSource).resolve_left fun none =>
      none ((bar_mem_renameToken (written source inSource)).mp (renamed ▸ barNative))
    obtain ⟨first, last, rfl⟩ : ∃ first last, parts = first ++ [last] :=
      CBuild.Data.exists_append_singleton fun empty => by rw [empty] at good; exact absurd good.two (by simp)
    obtain ⟨last', native, ending⟩ := toNative_written uniPackages dep same
    have good'' : OrParts (first ++ [last']) := by
      obtain ⟨rfl, -⟩ | ⟨rfl, -⟩ := ending
      · exact good
      · exact orParts_append good
    -- every alternative of what the script writes is a renamed one
    have fixed : ∀ part ∈ first ++ [last'], renameAlternative uniPackages part = part := by
      rw [same', renameToken_written good', native] at renamed
      rw [← parts_eq (orParts_map good') good'' renamed]
      intro part inside
      obtain ⟨original, -, rfl⟩ := List.mem_map.mp inside
      exact renameAlternative_idem uniPackages original
    have firstFixed : first.map (renameAlternative uniPackages) = first := by
      rw [List.map_congr_left fun part inside => fixed part (List.mem_append_left _ inside), List.map_id']
    have right : renameToken uniPackages dep =
        (orText double).intercalate (first ++ [renameAlternative uniPackages last]) := by
      rw [same, renameToken_written good, List.map_append, List.map_singleton, firstFixed]
    obtain ⟨rfl, -⟩ | ⟨rfl, added⟩ := ending
    · rw [right, native, fixed last' (List.mem_append_right _ (List.mem_singleton_self _))]
    · obtain own | renamedLast := renameAlternative_cases uniPackages (last_ne_nil good)
      · -- the token itself would have to be written for another one
        have itself : renameToken uniPackages dep = dep := by rw [right, own, same]
        obtain ⟨-, source', -, written'⟩ := mem_switchNative.mp
          ((image dep).mpr ⟨other bar, dep, member, itself⟩)
        have again := toNative_toNative uniPackages source'
        rw [written', added] at again
        exact absurd (List.append_right_eq_self.mp again) nativePart_ne_nil
      · rw [right, native, renamedLast]
  · intro suited name
    rw [mem_switchNative]
    refine and_congr_right fun _ => exists_congr fun dep => and_congr_right fun member => ?_
    rw [(renameToken_eq_iff (written dep member)).mpr (suited dep member)]

/-- Rules of names are renamed rightly. -/
theorem ruleImage (uniPackages : List Text) (target : Text) (wrule : List (List Text)) :
    RuleImage uniPackages target wrule ((wrule.map (switchNative uniPackages target)).filter (· ≠ [])) := by
  refine ⟨wrule.map (switchNative uniPackages target), rfl, ?_⟩
  rw [List.forall₂_map_right_iff]
  exact List.forall₂_same.mpr fun rule _ name => mem_switchNative

theorem firstAlternative_mem {targetList subdeps : List Text} {name : Text}
    (found : firstAlternative targetList subdeps = some (some name)) :
    ∃ part ∈ subdeps, part ≠ [] ∧ name = if part.head? = some '*' then part.tail else part := by
  induction subdeps with
  | nil => cases found
  | cons part subdeps ih =>
    match part with
    | [] => cases found
    | c :: rest =>
      have head : firstAlternative targetList ((c :: rest) :: subdeps) =
          if (if c = '*' then rest else c :: rest) ∈ targetList then some (some (if c = '*' then rest else c :: rest))
          else firstAlternative targetList subdeps := rfl
      rw [head] at found
      by_cases there : (if c = '*' then rest else c :: rest) ∈ targetList
      · rw [if_pos there] at found
        refine ⟨c :: rest, List.mem_cons_self .., nofun, ?_⟩
        rw [← Option.some_inj.mp (Option.some_inj.mp found), List.head?_cons, List.tail_cons]
        exact if_congr Option.some_inj.symm rfl rfl
      · rw [if_neg there] at found
        obtain ⟨part, inside, here⟩ := ih found
        exact ⟨part, List.mem_cons_of_mem _ inside, here⟩

theorem stripped_renameAlternative {part : Text} (nonempty : renameAlternative uniPackages part ≠ []) :
    (if (renameAlternative uniPackages part).head? = some '*' then (renameAlternative uniPackages part).tail
      else renameAlternative uniPackages part) =
    toNative uniPackages (if part.head? = some '*' then part.tail else part) := by
  match part with
  | [] => exact absurd rfl nonempty
  | c :: name =>
    by_cases star : c = '*'
    · have behind : renameAlternative uniPackages (c :: name) = '*' :: toNative uniPackages name := if_pos star
      rw [behind, List.head?_cons, if_pos rfl, List.tail_cons, List.head?_cons, if_pos (congrArg some star),
        List.tail_cons]
    · have whole : renameAlternative uniPackages (c :: name) = toNative uniPackages (c :: name) := if_neg star
      have head : (toNative uniPackages (c :: name)).head? = some c := by
        obtain same | added := toNative_cases uniPackages (c :: name)
        · rw [same, List.head?_cons]
        · rw [added, List.cons_append, List.head?_cons]
      rw [whole, head, if_neg (fun same => star (Option.some_inj.mp same)), List.head?_cons,
        if_neg (fun same => star (Option.some_inj.mp same))]

/-- Tokens that are renamed rightly are resolved to renamed alternatives. -/
theorem resolves_of_suited (written : ∀ dep ∈ deps, Written dep) (suited : ∀ dep ∈ deps, Suited uniPackages dep) :
    Resolves uniPackages deps (switchNative uniPackages target deps) := by
  intro token member bar targetList name found
  obtain ⟨-, dep, inside, native⟩ := mem_switchNative.mp member
  have right := (renameToken_eq_iff (written dep inside)).mpr (suited dep inside)
  obtain plain | ⟨double, parts, good, same⟩ := written dep inside
  · exact absurd (native ▸ bar) fun barNative => plain (bar_mem_toNative.mp barNative)
  rw [← native, ← right, same, renameToken_written good, splitOn_written (orParts_map good)] at found
  obtain ⟨part, among, nonempty, rfl⟩ := firstAlternative_mem found
  obtain ⟨alternative, original, rfl⟩ := List.mem_map.mp among
  refine ⟨dep, inside, alternative, by rw [same, splitOn_written good]; exact original, ?_⟩
  exact stripped_renameAlternative nonempty

theorem getNativeDeps_eq {pathExists : Text → Bool} {reg reg' : Registry} {item nitem : Item}
    (copied : Item.getNativeDeps pathExists uniPackages reg item = some (reg', nitem)) :
    nitem.target = item.target ++ nativePart ∧
      fields nitem = (fields item).map (switchNative uniPackages nitem.target) ∧
      nitem.wrule = (item.wrule.map (switchNative uniPackages nitem.target)).filter (· ≠ []) := by
  simp only [Item.getNativeDeps, bind, Option.bind_eq_some_iff] at copied
  obtain ⟨targets, _, ideps, _, result⟩ := copied
  cases result
  exact ⟨rfl, rfl, rfl⟩

/-- A native twin depends on twins exactly when all tokens of alternatives are suited. -/
theorem twins_iff (pathExists : Text → Bool) (uniPackages : List Text) (reg reg' : Registry) (item nitem : Item)
    (copied : Item.getNativeDeps pathExists uniPackages reg item = some (reg', nitem)) (plain : '|' ∉ item.target)
    (written : ∀ deps ∈ fields item, ∀ dep ∈ deps, Written dep) :
    Twins uniPackages item nitem ↔ ∀ deps ∈ fields item, ∀ dep ∈ deps, Suited uniPackages dep := by
  obtain ⟨target, lists, wrule⟩ := getNativeDeps_eq copied
  have plain' : '|' ∉ nitem.target := by
    rw [target, List.mem_append, not_or]
    exact ⟨plain, bar_not_mem_nativePart⟩
  constructor
  · rintro ⟨images, -, -, -⟩ deps member
    rw [lists, List.forall₂_map_right_iff, List.forall₂_same] at images
    exact (image_iff (written deps member) plain').mp (images deps member)
  · intro suited
    have select : nitem.select = switchNative uniPackages nitem.target item.select := by
      injection lists with _ lists
      injection lists with _ lists
      injection lists with _ lists
      injection lists with _ lists
      injection lists with _ lists
      injection lists with select _
    have imply : nitem.imply = switchNative uniPackages nitem.target item.imply := by
      injection lists with _ lists
      injection lists with _ lists
      injection lists with _ lists
      injection lists with _ lists
      injection lists with _ lists
      injection lists with _ lists
      injection lists with imply _
    have inSelect : item.select ∈ fields item := by simp [fields]
    have inImply : item.imply ∈ fields item := by simp [fields]
    refine ⟨?_, ?_, ?_, ?_⟩
    · rw [lists, List.forall₂_map_right_iff, List.forall₂_same]
      exact fun deps member => (image_iff (written deps member) plain').mpr (suited deps member)
    · rw [wrule]
      exact ruleImage ..
    · rw [select]
      exact resolves_of_suited (written _ inSelect) (suited _ inSelect)
    · rw [imply]
      exact resolves_of_suited (written _ inImply) (suited _ inImply)

def chooser (token : String) : Item where
  target := "app".toList
  asdeps := ["zlib".toList, "cmake-native".toList]
  awdeps := [token.toList]
  select := [token.toList]

def twinOf (item : Item) : Item := ((Item.getNativeDeps (fun _ => false) [] {} item).map Prod.snd).getD item

theorem written_chooser {token : String} (first : Text) (plain : '|' ∉ first)
    (same : token.toList = first ++ "||llvm".toList) : ∀ deps ∈ fields (chooser token), ∀ dep ∈ deps, Written dep := by
  have zlib : Written "zlib".toList := Or.inl (by decide)
  have cmake : Written "cmake-native".toList := Or.inl (by decide)
  have good : OrParts [first, "llvm".toList] :=
    ⟨le_refl 2, List.forall_mem_cons.mpr ⟨plain, List.forall_mem_singleton.mpr (by decide)⟩,
      List.forall_mem_singleton.mpr (by decide)⟩
  have written : Written token.toList := Or.inr ⟨true, _, good, by rw [same]; simp [orText, List.intercalate_cons_cons]⟩
  simpa [fields, chooser] using ⟨⟨zlib, cmake⟩, written⟩

/-- When the first alternative is native already, the twin selects one of two native packages. -/
theorem chooser_twins :
    (twinOf (chooser "gcc-native||llvm")).select = ["gcc-native||llvm-native".toList] ∧
    Twins [] (chooser "gcc-native||llvm") (twinOf (chooser "gcc-native||llvm")) := by
  have written := @written_chooser "gcc-native||llvm" "gcc-native".toList (by decide) rfl
  have zlib : Suited [] "zlib".toList := fun bar => absurd bar (by decide)
  have cmake : Suited [] "cmake-native".toList := fun bar => absurd bar (by decide)
  have token : Suited [] "gcc-native||llvm".toList := fun _ =>
    ⟨["gcc-native".toList], "llvm".toList, by decide, List.forall_mem_singleton.mpr (by decide +kernel),
      by decide +kernel⟩
  have suited : ∀ deps ∈ fields (chooser "gcc-native||llvm"), ∀ dep ∈ deps, Suited [] dep := by
    simpa [fields, chooser] using ⟨⟨zlib, cmake⟩, token⟩
  exact ⟨by decide +kernel, (twins_iff (fun _ => false) [] {} {} _ _ (by rfl) (by decide) written).mpr suited⟩

/-- When both are to be renamed, the twin selects the cross package. -/
theorem chooser_crossed :
    (twinOf (chooser "gcc||llvm")).select = ["gcc||llvm-native".toList] ∧
    checkSelect ["gcc".toList, "gcc-native".toList] (twinOf (chooser "gcc||llvm")).select = some ["gcc".toList] ∧
    ¬ Twins [] (chooser "gcc||llvm") (twinOf (chooser "gcc||llvm")) := by
  refine ⟨by decide +kernel, by decide +kernel, fun twins => ?_⟩
  have member : "gcc||llvm-native".toList ∈ (twinOf (chooser "gcc||llvm")).select := by decide +kernel
  obtain ⟨dep, inside, alternative, among, same⟩ :=
    twins.select _ member (by decide) ["gcc".toList] "gcc".toList (by decide +kernel)
  cases List.mem_singleton.mp inside
  have either : alternative ∈ ["gcc".toList, "llvm".toList] := among
  have cross : ∀ alternative ∈ ["gcc".toList, "llvm".toList],
      "gcc".toList ≠ toNative [] (if alternative.head? = some '*' then alternative.tail else alternative) := by
    decide +kernel
  exact cross alternative either same

end CBuild.Soundness.NativeTwins
