import CBuild.Soundness.WeakGrammar

/-! # Two readers of EXTRADEPS

For the documented tokens, `weakdep.bbclass` and the build chain agree on the enabled weak
dependences of a recipe exactly when every enabled alternative of a selected or-token is a weak
dependence by another token as well: `__set_item_deps` stores the whole token in place of such an
alternative, and `check_item` then discards it as a name that is no target.
-/

namespace CBuild.Soundness.WeakAgreement

open CBuild.Data CBuild.Text CBuild.Model.GenBuildChain CBuild.Model.Weakdep
open CBuild.Soundness.WeakGrammar

/-- An item to which no token has added anything yet. -/
structure Blank (item : Item) : Prop where
  package : item.vtype = .package
  awdeps : item.awdeps = []
  ideps : item.ideps = []
  wrule : item.wrule = []
  select : item.select = []
  imply : item.imply = []

/-- The dependence of a token `x@c` whose condition is enabled. -/
def condNames (config : Config) : Token → List Text
  | .cond _ dep condition => if config.Enabled condition.text then [dep.text] else []
  | _ => []

/-- A token makes the name a weak dependence under the configuration. -/
def Weakened (config : Config) (tokens : List Token) (name : Text) : Prop :=
  ∃ token ∈ tokens, name ∈ token.weakNames ∨ name ∈ condNames config token

/-- Every enabled weak name is a target (only the deduced `prebuild-x` need not be one), and every
enabled alternative of a selected or-token is a weak dependence by another token. -/
structure Covered (config : Config) (targetList : List Text) (tokens : List Token) : Prop where
  weak : ∀ token ∈ tokens, ∀ name ∈ token.weakNames, config.EnabledName name → name ∈ targetList
  selected : ∀ token ∈ tokens, ∀ name ∈ token.selectedNames, config.EnabledName name →
    Weakened config tokens name

/-- A conditional dependence of the item names the package, and both it and its condition are
enabled. -/
def IdepEnabled (config : Config) (idep name : Text) : Prop :=
  ∃ condition, splitIdep idep = some (name, condition) ∧ config.EnabledName name ∧ config.Enabled condition

theorem any_matchesLine (config : Config) {symbol : Text} (plain : '=' ∉ symbol) :
    config.lines.any (matchesLine symbol) = true ↔ config.Enabled symbol := by
  rw [List.any_eq_true, ← config.exists_prefix_iff plain]
  simp only [matchesLine, List.isPrefixOf_iff_prefix]

theorem countP_matchesLine (config : Config) {symbol : Text} (plain : '=' ∉ symbol) :
    config.lines.countP (matchesLine symbol) = if config.Enabled symbol then 1 else 0 :=
  config.countP_lines plain fun text => by simp [matchesLine, List.isPrefixOf_iff_prefix]

theorem matchesBoth_iff {symbol condition : Text} {lines : List Text} {matched : ℕ} (small : matched < 2)
    (few : matched + lines.countP (matchesLine symbol) + lines.countP (matchesLine condition) ≤ 2) :
    matchesBoth symbol condition matched lines = true ↔
      matched + lines.countP (matchesLine symbol) + lines.countP (matchesLine condition) = 2 := by
  induction lines generalizing matched with
  | nil => simp [matchesBoth]; omega
  | cons line lines ih =>
    rw [List.countP_cons, List.countP_cons] at few ⊢
    rw [matchesBoth, Bool.or_eq_true, decide_eq_true_eq]
    generalize (if matchesLine symbol line then 1 else 0) = first at few ⊢
    generalize (if matchesLine condition line then 1 else 0) = second at few ⊢
    by_cases now : matched + first + second = 2
    · exact iff_of_true (.inl now) (by omega)
    · have later := @ih (matched + first + second) (by omega) (by omega)
      rw [later, or_iff_right now]
      constructor <;> intro total <;> omega

theorem matchesBoth_config (config : Config) {symbol condition : Text} (plain : '=' ∉ symbol)
    (plainCondition : '=' ∉ condition) :
    matchesBoth symbol condition 0 config.lines = true ↔
      config.Enabled symbol ∧ config.Enabled condition := by
  rw [matchesBoth_iff (by decide), countP_matchesLine config plain, countP_matchesLine config plainCondition]
  · split <;> split <;> simp_all
  · rw [countP_matchesLine config plain, countP_matchesLine config plainCondition]
    split <;> split <;> decide

theorem idepName_cond (double : Bool) (dep : Name) (condition : Symbol) :
    idepName (Token.cond double dep condition).text = dep.text :=
  CondDep.idepName_text ⟨double, dep, condition⟩

theorem splitIdep_cond (double : Bool) (dep : Name) (condition : Symbol) :
    splitIdep (Token.cond double dep condition).text = some (dep.text, condition.text) :=
  CondDep.splitIdep_text ⟨double, dep, condition⟩

theorem configSymbol_name (name : Name) : '=' ∉ configSymbol name.text :=
  configSymbol_plain (name.not_mem (by decide))

/-- The dependence of a token `x@c` is appended when both symbols are enabled. -/
theorem appendIdeps_tokens (config : Config) (append : Append) (tokens : List Token) :
    ∃ append', appendIdeps config.lines append (tokens.flatMap Token.ideps) = some append' ∧
      ∀ name, name ∈ append'.appenddeps ↔ name ∈ append.appenddeps ∨
        config.EnabledName name ∧ ∃ token ∈ tokens, name ∈ condNames config token := by
  induction tokens generalizing append with
  | nil => exact ⟨append, rfl, by simp⟩
  | cons token tokens ih =>
    cases token with
    | cond double dep condition =>
      have both := matchesBoth_config config (configSymbol_name dep)
        (condition.not_mem (c := '=') (by decide))
      obtain ⟨append', read, same⟩ := ih
        (if matchesBoth (configSymbol dep.text) condition.text 0 config.lines then
          { append with
            appenddeps := append.appenddeps ++ [dep.text]
            appendrdeps := if ['@', '@'] <:+: (Token.cond double dep condition).text then
              append.appendrdeps ++ [dep.text] else append.appendrdeps }
        else append)
      refine ⟨append', ?_, fun name => ?_⟩
      · simpa [Token.ideps, appendIdeps, splitIdep_cond] using read
      · have first : name ∈ (if matchesBoth (configSymbol dep.text) condition.text 0 config.lines then
            { append with
              appenddeps := append.appenddeps ++ [dep.text]
              appendrdeps := if ['@', '@'] <:+: (Token.cond double dep condition).text then
                append.appendrdeps ++ [dep.text] else append.appendrdeps }
            else append).appenddeps ↔
            name ∈ append.appenddeps ∨
              config.EnabledName name ∧ name ∈ condNames config (.cond double dep condition) := by
          simp only [condNames, List.mem_ite_nil_right, List.mem_singleton]
          split
          · next here =>
            obtain ⟨enabled, holds⟩ := both.mp here
            simp only [List.mem_append, List.mem_singleton, holds, true_and]
            refine or_congr_right ⟨fun equal => ⟨equal ▸ enabled, equal⟩, And.right⟩
          · next missing =>
            refine (or_iff_left ?_).symm
            rintro ⟨enabled, holds, rfl⟩
            exact missing (both.mpr ⟨enabled, holds⟩)
        rw [same, first, List.exists_mem_cons_iff, or_assoc, and_or_left]
    | _ =>
      obtain ⟨append', read, same⟩ := ih append
      exact ⟨append', by simpa [Token.ideps] using read, by simpa [condNames] using same⟩

theorem names_plain {token : Token} {name : Text}
    (member : name ∈ token.weakNames ∨ name ∈ token.selectedNames) : '=' ∉ name := by
  have plain (other : Name) : '=' ∉ other.text := other.not_mem (by decide)
  have all : ∀ other ∈ token.weakNames ++ token.selectedNames, '=' ∉ other := by
    cases token with
    | marked markers other =>
      simp only [Token.weakNames, Token.selectedNames, List.append_nil]
      split <;> simp [plain]
    | selectOr strong double alternatives =>
      cases alternatives <;> simp [Token.weakNames, Token.selectedNames, or_imp, forall_and, plain] <;>
        (rintro _ alternative _ _ rfl; exact plain _)
    | or double alternatives =>
      cases alternatives <;> simp [Token.weakNames, Token.selectedNames, plain]
    | cond double dep condition => simp [Token.weakNames, Token.selectedNames]
  exact all name (List.mem_append.mpr member)

/-- The names the class appends to DEPENDS. -/
theorem weakdep_tokens (config : Config) (tokens : List Token) :
    ∃ append, weakdep (some config.lines) (tokens.map Token.text) = some append ∧
      ∀ name, name ∈ append.appenddeps ↔ config.EnabledName name ∧
        (Weakened config tokens name ∨ ∃ token ∈ tokens, name ∈ token.selectedNames) := by
  obtain ⟨weak, read, collects⟩ := addDeps_tokens {} tokens
  obtain ⟨append, appended, same⟩ := appendIdeps_tokens config (appendWeak weak config.lines) tokens
  refine ⟨append, ?_, fun name => ?_⟩
  · simp [weakdep, read, collects.ideps, appended]
  · have enabled : name ∈ (appendWeak weak config.lines).appenddeps ↔ config.EnabledName name ∧
        ∃ token ∈ tokens, name ∈ token.weakNames ∨ name ∈ token.selectedNames := by
      simp only [appendWeak, List.mem_filter, collects.weakdeps, List.not_mem_nil, false_or]
      constructor
      · rintro ⟨⟨token, inside, member⟩, here⟩
        exact ⟨(any_matchesLine config (configSymbol_plain (names_plain member))).mp here, token, inside, member⟩
      · rintro ⟨here, token, inside, member⟩
        exact ⟨⟨token, inside, member⟩,
          (any_matchesLine config (configSymbol_plain (names_plain member))).mpr here⟩
    rw [same, enabled, ← and_or_left]
    refine and_congr_right fun _ => ?_
    simp only [Weakened, and_or_left, exists_or, or_right_comm]

/-- A package without members is filtered by itself. -/
theorem checkItem_package {pokyNames : List Text} {item kept : Item} {st : CheckState}
    (package : kept.vtype = .package) (filtered : filterItem true st.targetList item = some kept) :
    checkItem true pokyNames (.cons item .nil .nil) st = some (.cons kept .nil .nil, st) := by
  simp [checkItem, filtered, checkChoice, package, VType.isChoice, VType.isMenu, Forest.isNil]

theorem firstAlternative_some {targetList subdeps : List Text} (nonempty : [] ∉ subdeps) :
    ∃ chosen, firstAlternative targetList subdeps = some chosen := by
  fun_induction firstAlternative targetList subdeps with
  | case1 => exact ⟨none, rfl⟩
  | case2 => exact absurd (List.mem_cons_self ..) nonempty
  | case3 c rest subdeps subdep _ => exact ⟨some subdep, rfl⟩
  | case4 c rest subdeps subdep _ ih => exact ih fun member => nonempty (List.mem_cons_of_mem _ member)

theorem checkSelect_some {targetList deps : List Text} (selectable : ∀ dep ∈ deps, Selectable dep) :
    ∃ kept, checkSelect targetList deps = some kept := by
  obtain ⟨chosen, traversed⟩ : ∃ chosen, (deps.filter ('|' ∈ ·)).mapM (fun dep =>
      firstAlternative targetList (splitOn (splitStr dep) dep)) = some chosen := by
    refine mapM_some fun dep member => ?_
    obtain ⟨inside, bar⟩ := List.mem_filter.mp member
    exact firstAlternative_some (selectable dep inside (by simpa using bar))
  exact ⟨deps.filter (· ∈ targetList) ++ chosen.filterMap id, by simp [checkSelect, traversed]⟩

/-- Every rule of the tokens spells out a target. -/
theorem checkWrule_some {targetList : List Text} {item : Item}
    (known : ∀ rule ∈ item.wrule, ∃ name ∈ rule, name ∈ targetList) :
    ∃ rules, checkWrule targetList item = some rules := by
  obtain ⟨filtered, traversed⟩ := mapM_some (f := checkRule targetList item) fun rule member => by
    obtain ⟨name, inside, target⟩ := known rule member
    have stays : name ∈ rule.filter (· ∈ targetList) := List.mem_filter.mpr ⟨inside, by simpa using target⟩
    unfold checkRule
    split
    · next empty => exact absurd (empty ▸ stays) (by simp)
    · exact ⟨_, rfl⟩
  exact ⟨filtered.filter (· ≠ []), by simp [checkWrule, traversed]⟩

/-- The item that the tokens fill passes the filter, and keeps the weak names and the conditional
dependences that are targets. -/
theorem filterItem_tokens {tokens : List Token} {item parsed : Item} {targetList : List Text}
    (blank : Blank item) (reads : Reads tokens item parsed)
    (known : ∀ token ∈ tokens, ∀ name ∈ token.written, name ∈ targetList)
    (names : ∀ name ∈ targetList, '|' ∉ name) :
    ∃ kept, filterItem true targetList parsed = some kept ∧ kept.vtype = .package ∧
      (∀ name, name ∈ kept.awdeps ↔ name ∈ targetList ∧ ∃ token ∈ tokens, name ∈ token.weakNames) ∧
      kept.ideps = tokens.flatMap Token.ideps := by
  obtain ⟨wrule, rules⟩ := @checkWrule_some targetList parsed fun rule member => by
    rcases reads.wrule rule member with old | ⟨token, inside, name, spelled, written⟩
    · rw [blank.wrule] at old
      contradiction
    · exact ⟨name, spelled, known token inside name written⟩
  obtain ⟨select, selected⟩ := @checkSelect_some targetList parsed.select
    fun dep member => (reads.select dep member).resolve_left (by simp [blank.select])
  obtain ⟨imply, implied⟩ := @checkSelect_some targetList parsed.imply
    fun dep member => (reads.imply dep member).resolve_left (by simp [blank.imply])
  obtain ⟨kept, filtered⟩ : ∃ kept, filterItem true targetList parsed = some kept := by
    simp [filterItem, rules, selected, implied]
  obtain ⟨keptType, _, _, keptAwdeps, keptIdeps⟩ := filterItem_frame filtered
  refine ⟨kept, filtered, keptType.trans (reads.vtype.trans blank.package), fun name => ?_, ?_⟩
  · rw [keptAwdeps, List.mem_filter, decide_eq_true_eq, and_comm]
    refine and_congr_right fun target => ?_
    rw [reads.awdeps name (names name target), blank.awdeps]
    simp
  · rw [keptIdeps, reads.ideps, blank.ideps, List.nil_append, List.filter_eq_self]
    intro idep member
    obtain ⟨token, inside, here⟩ := List.mem_flatMap.mp member
    cases token with
    | cond double dep condition =>
      have target := known _ inside dep.text (List.mem_singleton_self _)
      rw [List.mem_singleton.mp here, idepName_cond]
      simpa using target
    | _ => contradiction

theorem mem_condNames {config : Config} {token : Token} {name : Text} :
    name ∈ condNames config token ↔ ∃ double dep condition, token = .cond double dep condition ∧
      config.Enabled condition.text ∧ name = dep.text := by
  cases token with
  | cond double dep condition => simp [condNames, and_assoc]
  | _ => simp [condNames]

theorem idepEnabled_tokens (config : Config) (tokens : List Token) (name : Text) :
    (∃ idep ∈ tokens.flatMap Token.ideps, IdepEnabled config idep name) ↔
      config.EnabledName name ∧ ∃ token ∈ tokens, name ∈ condNames config token := by
  simp only [mem_condNames]
  constructor
  · rintro ⟨idep, member, condition, split, enabled, holds⟩
    obtain ⟨token, inside, here⟩ := List.mem_flatMap.mp member
    cases token with
    | cond double dep condition =>
      rw [List.mem_singleton.mp here, splitIdep_cond] at split
      cases split
      exact ⟨enabled, _, inside, double, dep, condition, rfl, holds, rfl⟩
    | _ => contradiction
  · rintro ⟨enabled, _, inside, double, dep, condition, rfl, holds, rfl⟩
    exact ⟨_, List.mem_flatMap.mpr ⟨_, inside, List.mem_singleton_self _⟩, condition.text,
      splitIdep_cond double dep condition, enabled, holds⟩

/-- For the documented tokens, whose names are all targets, both readers succeed, and what the
class appends to DEPENDS are the enabled weak dependences that the item keeps exactly when the
tokens are covered. -/
theorem weakdep_agrees_iff (config : Config) (tokens : List Token) (reg : Registry) (item : Item)
    (pokyNames : List Text) (st : CheckState) (blank : Blank item)
    (known : ∀ token ∈ tokens, ∀ name ∈ token.written, name ∈ st.targetList)
    (names : ∀ name ∈ st.targetList, '|' ∉ name) :
    ∃ parsed kept append,
      setItemDeps reg item (tokens.map Token.text) = some (reg, parsed) ∧
      checkItem true pokyNames (.cons parsed .nil .nil) st = some (.cons kept .nil .nil, st) ∧
      weakdep (some config.lines) (tokens.map Token.text) = some append ∧
      ((∀ name, name ∈ append.appenddeps ↔ name ∈ kept.awdeps ∧ config.EnabledName name ∨
          ∃ idep ∈ kept.ideps, IdepEnabled config idep name) ↔
        Covered config st.targetList tokens) := by
  obtain ⟨parsed, filled, reads⟩ := setItemDeps_tokens reg item tokens
  obtain ⟨kept, filtered, package, awdeps, ideps⟩ := filterItem_tokens blank reads known names
  obtain ⟨append, appended, appenddeps⟩ := weakdep_tokens config tokens
  refine ⟨parsed, kept, append, filled, checkItem_package package filtered, appended, ?_⟩
  have kept_iff (name : Text) : (name ∈ kept.awdeps ∧ config.EnabledName name ∨
      ∃ idep ∈ kept.ideps, IdepEnabled config idep name) ↔ config.EnabledName name ∧
        ((name ∈ st.targetList ∧ ∃ token ∈ tokens, name ∈ token.weakNames) ∨
          ∃ token ∈ tokens, name ∈ condNames config token) := by
    rw [awdeps, ideps, idepEnabled_tokens, and_comm, and_or_left]
  simp only [appenddeps, kept_iff]
  constructor
  · intro agree
    constructor
    · intro token inside name weak enabled
      rcases ((agree name).mp ⟨enabled, .inl ⟨token, inside, .inl weak⟩⟩).2 with kept | ⟨other, member, cond⟩
      · exact kept.1
      · obtain ⟨double, dep, condition, rfl, _, rfl⟩ := mem_condNames.mp cond
        exact known _ member _ (List.mem_singleton_self _)
    · intro token inside name selected enabled
      rcases ((agree name).mp ⟨enabled, .inr ⟨token, inside, selected⟩⟩).2 with
        ⟨_, other, member, weak⟩ | ⟨other, member, cond⟩
      · exact ⟨other, member, .inl weak⟩
      · exact ⟨other, member, .inr cond⟩
  · intro covered name
    refine and_congr_right fun enabled => ?_
    have weakened : Weakened config tokens name → (name ∈ st.targetList ∧
        ∃ token ∈ tokens, name ∈ token.weakNames) ∨ ∃ token ∈ tokens, name ∈ condNames config token := by
      rintro ⟨token, inside, weak | cond⟩
      · exact .inl ⟨covered.weak token inside name weak enabled, token, inside, weak⟩
      · exact .inr ⟨token, inside, cond⟩
    constructor
    · rintro (weak | ⟨token, inside, selected⟩)
      · exact weakened weak
      · exact weakened (covered.selected token inside name selected enabled)
    · rintro (⟨_, token, inside, weak⟩ | ⟨token, inside, cond⟩)
      · exact .inl ⟨token, inside, .inl weak⟩
      · exact .inl ⟨token, inside, .inr cond⟩

def libtest : Name := ⟨"libtest".toList, by decide, by decide⟩

def libtestConfig : Config :=
  ⟨[(configSymbol libtest.text, ['y'])], by decide, by decide, by decide⟩

/-- The library, its prebuilt package and the virtual package of both are known. -/
def libtestState : CheckState where
  targetList := ["libtest".toList, "prebuild-libtest".toList, "build-libtest".toList]
  virtualList := ["build-libtest".toList]
  poky := .none

/-- `??libtest` is read alike. -/
theorem libtest_weak_agrees :
    ∃ parsed kept append,
      setItemDeps {} {} ["??libtest".toList] = some ({}, parsed) ∧
      checkItem true [] (.cons parsed .nil .nil) libtestState = some (.cons kept .nil .nil, libtestState) ∧
      weakdep (some libtestConfig.lines) ["??libtest".toList] = some append ∧
      ∀ name, name ∈ append.appenddeps ↔ name ∈ kept.awdeps ∧ libtestConfig.EnabledName name ∨
        ∃ idep ∈ kept.ideps, IdepEnabled libtestConfig idep name := by
  obtain ⟨parsed, kept, append, filled, filtered, appended, agree⟩ :=
    weakdep_agrees_iff libtestConfig [.marked ⟨['?', '?'], by decide, by decide, by decide, by decide⟩ libtest]
      {} {} [] libtestState ⟨rfl, rfl, rfl, rfl, rfl, rfl⟩ (by decide) (by decide)
  refine ⟨parsed, kept, append, filled, filtered, appended, agree.mpr ⟨by decide, ?_⟩⟩
  simp [Token.selectedNames]

/-- `&&||libtest` adds the library to DEPENDS, while the item keeps no weak dependence. -/
theorem libtest_selected_differs :
    ∃ parsed kept append,
      setItemDeps {} {} ["&&||libtest".toList] = some ({}, parsed) ∧
      checkItem true [] (.cons parsed .nil .nil) libtestState = some (.cons kept .nil .nil, libtestState) ∧
      weakdep (some libtestConfig.lines) ["&&||libtest".toList] = some append ∧
      ¬ ∀ name, name ∈ append.appenddeps ↔ name ∈ kept.awdeps ∧ libtestConfig.EnabledName name ∨
        ∃ idep ∈ kept.ideps, IdepEnabled libtestConfig idep name := by
  refine ⟨_, _, _, rfl, rfl, rfl, fun agree => ?_⟩
  rcases (agree libtest.text).mp (by decide) with ⟨weak, _⟩ | ⟨idep, conditional, _⟩
  · exact List.not_mem_nil weak
  · exact List.not_mem_nil conditional

end CBuild.Soundness.WeakAgreement
