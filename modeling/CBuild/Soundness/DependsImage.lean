import CBuild.Model.GenDependsImage
import CBuild.Soundness.DependReaders

/-! # The dependency diagram shows the reachable graph

`write_rule` ends for every Target file. It writes the edges of each package that is reachable from the root exactly
once when the root is not on a cycle, unless a name with a dot is taken for others.
-/

namespace CBuild.Soundness.DependsImage

open Text Model.GenBuildChain Model.ProcessCache Model.GenDependsImage TargetLine DependReaders Inputs

/-- The names that the statements of classic packages can have. -/
structure PackageName extends Name where
  plain : '+' ∉ text

inductive Token
  | strong (dep : PackageName)
  | weak (dep : PackageName)
  | either (dep : PackageName)
  | cond (dep : PackageName) (condition : Symbol)

namespace Token

def dep : Token → Text
  | strong dep => dep.text
  | weak dep => dep.text
  | either dep => dep.text
  | cond dep _ => dep.text

def text : Token → Text
  | strong dep => dep.text
  | weak dep => '?' :: dep.text
  | either dep => '|' :: dep.text
  | cond dep condition => dep.text ++ '@' :: condition.text

theorem dep_name (token : Token) : ∃ name : PackageName, name.text = token.dep := by
  cases token <;> exact ⟨_, rfl⟩

theorem nonempty (token : Token) : token.text ≠ [] := by
  cases token with
  | strong dep => exact dep.nonempty
  | weak dep => exact List.cons_ne_nil _ _
  | either dep => exact List.cons_ne_nil _ _
  | cond dep condition => exact List.append_ne_nil_of_right_ne_nil _ (List.cons_ne_nil _ _)

theorem not_mem (token : Token) {c : Char} (special : nameChar c = false) (mark : c ≠ '?' ∧ c ≠ '|' ∧ c ≠ '@') :
    c ∉ token.text := by
  have away (name : Name) : c ∉ name.text := name.not_mem special
  cases token with
  | strong dep => exact away dep.toName
  | weak dep => exact List.not_mem_cons_of_ne_of_not_mem mark.1 (away dep.toName)
  | either dep => exact List.not_mem_cons_of_ne_of_not_mem mark.2.1 (away dep.toName)
  | cond dep condition =>
    intro member
    rcases List.mem_append.mp member with first | second
    · exact away dep.toName first
    · exact List.not_mem_cons_of_ne_of_not_mem mark.2.2 (away condition.toName) second

/-- What the script makes of the word. -/
def word : Token → Word
  | strong dep => { headchar := none, dep := dep.text, condition := [] }
  | weak dep => { headchar := some '?', dep := dep.text, condition := [] }
  | either dep => { headchar := some '|', dep := dep.text, condition := [] }
  | cond dep condition => { headchar := some '@', dep := dep.text, condition := condition.text }

/-- The number of edges that stand for the token. -/
def edges : Token → ℕ
  | either _ => 2
  | _ => 1

theorem parseWord_text (token : Token) : parseWord token.text = token.word := by
  have unmarked (name : Name) : ¬ (name.text.head? = some '?' ∨ name.text.head? = some '|') :=
    not_or.mpr ⟨name.head_ne (by decide), name.head_ne (by decide)⟩
  cases token with
  | strong dep =>
    have plain : '@' ∉ dep.text := dep.not_mem (by decide)
    rw [text, parseWord, if_neg (unmarked dep.toName), if_neg plain]
    rfl
  | weak dep => rfl
  | either dep => rfl
  | cond dep condition =>
    let word : CondDep := { double := false, dep := dep.toName, condition }
    have first : dep.text ++ '@' :: condition.text = condWord word := rfl
    have head : ¬ ((condWord word).head? = some '?' ∨ (condWord word).head? = some '|') :=
      not_or.mpr ⟨condWord_head word (by decide), condWord_head word (by decide)⟩
    rw [text, first, parseWord, if_neg head, if_pos (by simp [← first]), splitOn_condWord]
    rfl

end Token

structure Line where
  name : PackageName
  tokens : List Token
  path : Text
  plain : '"' ∉ path

def Line.words (line : Line) : Text := [' '].intercalate (line.tokens.map Token.text)

def Line.text (line : Line) : Text := line.name.text ++ ("=\"".toList ++ (line.words ++ ("\" # ".toList ++ line.path)))

/-- The name as a pattern fits the other one: the same up to the dots. -/
def Covers (name other : Text) : Prop := name.length = other.length ∧ grepPrefix name other = true

instance (name other : Text) : Decidable (Covers name other) := inferInstanceAs (Decidable (_ ∧ _))

theorem Covers.refl (name : Text) : Covers name name := ⟨rfl, grepPrefix_of_isPrefix (List.prefix_refl name)⟩

/-- The inputs of the script for a Target file, a `.config` and the core packages. -/
def inputs (file : List Line) (confpath core : List Text) : Inputs :=
  { targetpath := file.map Line.text, confpath, corepkgs := core }

section

variable {file : List Line} {confpath core : List Text}

end

theorem grepWithin_of_infix {pattern text : Text} (inside : pattern <:+: text) : grepWithin pattern text = true := by
  obtain ⟨first, last, rfl⟩ := inside
  refine List.any_eq_true.mpr ⟨pattern ++ last, ?_, grepPrefix_of_isPrefix (List.prefix_append ..)⟩
  rw [List.mem_tails, List.append_assoc]
  exact List.suffix_append ..

theorem delimited_cons (sep : Char) (name : Text) (names : List Text) :
    delimited sep (name :: names) = sep :: (name ++ delimited sep names) := by
  simp [delimited]

theorem isListed_of_mem (sep : Char) {names : List Text} {dep : Text} (member : dep ∈ names) :
    isListed sep names dep = true := by
  refine grepWithin_of_infix ?_
  induction names with
  | nil => contradiction
  | cons name names ih =>
    rw [delimited_cons]
    rcases List.mem_cons.mp member with rfl | member
    · refine List.IsPrefix.isInfix (List.cons_prefix_cons.mpr ⟨rfl, (List.prefix_append_right_inj dep).mpr ?_⟩)
      exact List.cons_prefix_cons.mpr ⟨rfl, List.nil_prefix⟩
    · exact (ih member).trans ((List.suffix_append name _).trans (List.suffix_cons ..)).isInfix

section

variable (i : Inputs) (corecheck : Bool)

/-- The names in the Target file, wherever a pattern may begin. -/
def depNames : List Text :=
  (i.targetpath.flatMap fun line =>
    (line :: line.tails.filterMap (beforeLast "\" # ".toList)).flatMap words).map fun word => (parseWord word).dep

end

def tokens (file : List Line) (package : Text) : List Token :=
  (file.filter (·.name.text = package)).flatMap Line.tokens

/-- An edge to a package that is not dropped. -/
def Step (file : List Line) (dropped : List Text) (package dep : Text) : Prop :=
  dep ∉ dropped ∧ ∃ token ∈ tokens file package, token.dep = dep

/-- The line is an edge between two packages in a style, green or red, and perhaps with a label. -/
def Edge (package dep style label line : Text) : Prop :=
  ∃ color ∈ ["green".toList, "red".toList],
    line = "\"".toList ++ package ++ "\" -> \"".toList ++ dep ++ "\" [style = ".toList ++ style ++
      ", color = ".toList ++ color ++
        (if label = [] then [] else ", label = \"".toList ++ label ++ "\"".toList) ++ "]".toList

/-- The lines draw a token of a package: a solid edge for a strong dependence, a dashed one for a weak dependence, with
the condition as its label where there is one, and two edges for a dependence with a substitute. -/
inductive Draws (package : Text) : Token → List Text → Prop
  | strong {dep : PackageName} {line : Text} :
      Edge package dep.text "solid".toList [] line → Draws package (.strong dep) [line]
  | weak {dep : PackageName} {line : Text} :
      Edge package dep.text "dashed".toList [] line → Draws package (.weak dep) [line]
  | cond {dep : PackageName} {condition : Symbol} {line : Text} :
      Edge package dep.text "dashed".toList condition.text line → Draws package (.cond dep condition) [line]
  | srcbuild {dep : PackageName} {style style' line line' : Text} : ¬ patchPart <:+: dep.text →
      Edge package dep.text style "srcbuild".toList line → Edge package dep.text style' "prebuild".toList line' →
      Draws package (.either dep) [line, line']
  | patch {dep : PackageName} {style style' line line' : Text} : patchPart <:+: dep.text →
      Edge package dep.text style "patch".toList line → Edge package dep.text style' "unpatch".toList line' →
      Draws package (.either dep) [line, line']

/-- The lines draw the tokens of the packages that are reachable without the dropped ones, each package once. -/
def Once (file : List Line) (dropped : List Text) (root : Text) (out : List Text) : Prop :=
  ∃ order : List Text, order.Nodup ∧ (∀ package, package ∈ order ↔ Relation.ReflTransGen (Step file dropped) root package) ∧
    ∃ drawn : Text → Token → List Text, (∀ package token, Draws package token (drawn package token)) ∧
      out.Perm (order.flatMap fun package => ((tokens file package).filter (·.dep ∉ dropped)).flatMap (drawn package))

/-- What the script writes for a package, without the edges into dropped packages. -/
def packageLines (file : List Line) (confpath dropped : List Text) (package : Text) : List Text :=
  ((tokens file package).filter (·.dep ∉ dropped)).flatMap fun token => edgeLines confpath package token.text

/-- Where a name with a dot is a pattern for others: none that is reachable fits the name of another line, other names
in a row, or names of core packages. -/
structure Apart (file : List Line) (core : List Text) (root : Text) : Prop where
  lines : ∀ package, Relation.ReflTransGen (Step file []) root package →
    ∀ line ∈ file, line.tokens ≠ [] → Covers package line.name.text → line.name.text = package
  dones : ∀ package, Relation.ReflTransGen (Step file []) root package → ∀ names : List Text,
    (∀ name ∈ names, Relation.ReflTransGen (Step file []) root name ∧ name ≠ package) → isListed ' ' names package = false
  core : ∀ package, Relation.ReflTransGen (Step file []) root package → package ∉ core → isListed ':' core package = false

theorem Draws.length {package : Text} {token : Token} {lines : List Text} (draws : Draws package token lines) :
    lines.length = token.edges := by
  cases draws <;> rfl

theorem edge_edgeLine (package dep style label : Text) (here : Bool) :
    Edge package dep style label (edgeLine package dep style (green here) label) :=
  ⟨green here, by cases here <;> decide, rfl⟩

theorem edgeLines_spec (confpath : List Text) (package : Text) (token : Token) :
    Draws package token (edgeLines confpath package token.text) := by
  rw [edgeLines, token.parseWord_text]
  cases token with
  | strong dep => exact .strong (edge_edgeLine ..)
  | weak dep => exact .weak (edge_edgeLine ..)
  | either dep =>
    by_cases patch : patchPart <:+: dep.text
    · simp only [Token.word, patch, decide_true, if_true]
      exact .patch patch (edge_edgeLine ..) (edge_edgeLine ..)
    · simp only [Token.word, patch, decide_false, if_false, Bool.false_eq_true]
      exact .srcbuild patch (edge_edgeLine ..) (edge_edgeLine ..)
  | cond dep condition => exact .cond (edge_edgeLine ..)

section

variable {file : List Line} {confpath core : List Text} {root : Text}

theorem not_mem_of_path {dropped : List Text} {first last : Text} (path : Relation.TransGen (Step file dropped) first last) :
    last ∉ dropped := by
  cases path with
  | single step => exact step.1
  | tail _ step => exact step.1

/-- The packages whose edges a diagram leaves out: none in the full one. -/
def dropped (corecheck : Bool) (core : List Text) : List Text := if corecheck then [] else core

/-- The names that a package in `dones` leads to: none for a dropped one. -/
def leads (file : List Line) (drop : List Text) (package : Text) : List Text :=
  if package ∈ drop then [] else (tokens file package).map Token.dep

def allDeps (file : List Line) : List Text := (file.flatMap Line.tokens).map Token.dep

/-- What is added for the sources: their names in `dones`, and the edges of the first packages and of those names that
are not dropped. -/
structure Wrote (file : List Line) (confpath core : List Text) (corecheck : Bool) (first sources : List Text) (s s' : Vars)
    (new : List Text) : Prop where
  dones : s'.dones = s.dones ++ new
  distinct : new.Nodup
  fresh : ∀ package ∈ new, package ∉ s.dones
  out : s'.out = s.out ++ (first ++ new.filter (· ∉ dropped corecheck core)).flatMap
    (packageLines file confpath (dropped corecheck core))
  coreexist : s'.coreexist = [] ↔ s.coreexist = [] ∧ (corecheck = true →
    ∀ package ∈ first ++ new.filter (· ∉ dropped corecheck core), ∀ token ∈ tokens file package, token.dep ∉ core)
  visited : Graph.Visited (leads file (dropped corecheck core)) (allDeps file) sources s.dones s'.dones

namespace Wrote

variable {corecheck : Bool} {first sources new : List Text} {s s' m : Vars}

theorem none : Wrote file confpath core corecheck [] [] s s [] where
  dones := (List.append_nil _).symm
  distinct := List.nodup_nil
  fresh _ member := absurd member List.not_mem_nil
  out := by simp
  coreexist := by simp
  visited := .none _

/-- One source after the other. -/
theorem cons {source : Text} {more : List Text} (here : Wrote file confpath core corecheck [] [source] s m new)
    (rest : Wrote file confpath core corecheck [] sources m s' more) :
    Wrote file confpath core corecheck [] (source :: sources) s s' (new ++ more) where
  dones := by rw [rest.dones, here.dones, List.append_assoc]
  distinct := by
    refine List.nodup_append.mpr ⟨here.distinct, rest.distinct, fun package member other member' same => ?_⟩
    refine rest.fresh other member' ?_
    rw [here.dones, ← same]
    exact List.mem_append_right _ member
  fresh package member := by
    rcases List.mem_append.mp member with inside | later
    · exact here.fresh package inside
    · intro old
      refine rest.fresh package later ?_
      rw [here.dones]
      exact List.mem_append_left _ old
  out := by
    rw [rest.out, here.out, List.nil_append, List.nil_append, List.nil_append, List.filter_append, List.flatMap_append,
      List.append_assoc]
  coreexist := by
    rw [rest.coreexist, here.coreexist, List.nil_append, List.nil_append, List.nil_append, List.filter_append]
    simp only [List.mem_append]
    constructor
    · rintro ⟨⟨start, before⟩, after⟩
      exact ⟨start, fun check package member => member.elim (before check package) (after check package)⟩
    · rintro ⟨start, all⟩
      exact ⟨⟨start, fun check package member => all check package (.inl member)⟩,
        fun check package member => all check package (.inr member)⟩
  visited := here.visited.cons rest.visited

/-- A package that is in `dones` already. -/
theorem skip {source : Text} (old : source ∈ s.dones) : Wrote file confpath core corecheck [] [source] s s [] :=
  { none with visited := .skip fun both => both.2 old }

/-- A dropped package. -/
theorem drop {source : Text} (fresh : source ∉ s.dones) (known : source ∈ allDeps file)
    (drops : source ∈ dropped corecheck core) : Wrote file confpath core corecheck [] [source] s
      { s with dones := s.dones ++ [source] } [source] where
  dones := rfl
  distinct := List.nodup_singleton _
  fresh package member := List.mem_singleton.mp member ▸ fresh
  out := by simp [drops]
  coreexist := by simp [drops]
  visited := by
    refine .enter known ?_
    rw [leads, if_pos drops]
    exact .of_mem_iff (fun package => by simp [or_comm]) (.none (s.dones ++ [source]))

/-- A package that is entered. -/
theorem enter {source : Text} (fresh : source ∉ s.dones) (known : source ∈ allDeps file)
    (keeps : source ∉ dropped corecheck core)
    (wrote : Wrote file confpath core corecheck [source] ((tokens file source).map Token.dep)
      { s with dones := s.dones ++ [source] } s' new) :
    Wrote file confpath core corecheck [] [source] s s' (source :: new) where
  dones := by rw [wrote.dones, List.append_assoc, List.singleton_append]
  distinct := by
    refine List.nodup_cons.mpr ⟨fun member => wrote.fresh source member ?_, wrote.distinct⟩
    exact List.mem_append_right _ (List.mem_singleton_self _)
  fresh package member := by
    rcases List.mem_cons.mp member with rfl | member
    · exact fresh
    · exact fun old => wrote.fresh package member (List.mem_append_left _ old)
  out := by simpa [keeps] using wrote.out
  coreexist := by simpa [keeps] using wrote.coreexist
  visited := by
    refine .enter known ?_
    rw [leads, if_neg keeps]
    exact wrote.visited.of_mem_iff fun package => by simp [or_comm]

/-- What the second loop adds to what the first one wrote. -/
theorem after {target : Text} (wrote : Wrote file confpath core corecheck [] sources m s' new) (dones : m.dones = s.dones)
    (out : m.out = s.out ++ packageLines file confpath (dropped corecheck core) target)
    (coreexist : m.coreexist = [] ↔ s.coreexist = [] ∧ (corecheck = true → ∀ token ∈ tokens file target, token.dep ∉ core)) :
    Wrote file confpath core corecheck [target] sources s s' new where
  dones := by rw [wrote.dones, dones]
  distinct := wrote.distinct
  fresh := dones ▸ wrote.fresh
  out := by
    rw [wrote.out, out, List.nil_append, List.singleton_append, List.flatMap_cons, List.append_assoc]
  coreexist := by
    rw [wrote.coreexist, coreexist, List.nil_append, List.singleton_append]
    simp only [List.forall_mem_cons]
    tauto
  visited := dones ▸ wrote.visited

end Wrote

section

variable (apart : Apart file core root) {corecheck : Bool}

include apart

omit apart in
/-- What is reached from names that are reachable is reachable. -/
theorem Wrote.reaches {first sources new : List Text} {s s' : Vars}
    (wrote : Wrote file confpath core corecheck first sources s s' new)
    (start : ∀ source ∈ sources, Relation.ReflTransGen (Step file []) root source)
    (old : ∀ package ∈ s.dones, Relation.ReflTransGen (Step file []) root package) :
    ∀ package ∈ s'.dones, Relation.ReflTransGen (Step file []) root package := by
  intro package member
  rcases wrote.visited.sound package member with before | ⟨source, inside, -, path⟩
  · exact old package before
  · refine (start source inside).trans (Relation.ReflTransGen.mono (fun first second step => ?_) _ _ path)
    obtain ⟨leads, -⟩ := step
    unfold DependsImage.leads at leads
    split at leads
    · contradiction
    · obtain ⟨token, member, rfl⟩ := List.mem_map.mp leads
      exact ⟨List.not_mem_nil, token, member, rfl⟩

end

namespace Wrote

variable {corecheck : Bool} {new : List Text} {s s' : Vars}
  (wrote : Wrote file confpath core corecheck [root] ((tokens file root).map Token.dep) s s' new) (start : s.dones = [])

include wrote start

/-- The names in `dones` are those that the root leads to along packages that are not dropped. -/
theorem mem_new {package : Text} (keeps : package ∉ dropped corecheck core) :
    package ∈ new ↔ Relation.TransGen (Step file (dropped corecheck core)) root package := by
  have dones : s'.dones = new := by rw [wrote.dones, start, List.nil_append]
  have visited := wrote.visited
  rw [start, dones] at visited
  have known (package : Text) (token : Token) (member : token ∈ tokens file package) : token.dep ∈ allDeps file := by
    obtain ⟨line, inside, here⟩ := List.mem_flatMap.mp member
    exact List.mem_map_of_mem (List.mem_flatMap.mpr ⟨line, (List.mem_filter.mp inside).1, here⟩)
  constructor
  · intro member
    obtain ⟨source, inside, -, path⟩ := (visited.sound package member).resolve_left List.not_mem_nil
    -- every package on the way has a successor or is the one we want, so none is dropped
    have way : source ∉ dropped corecheck core ∧
        Relation.ReflTransGen (Step file (dropped corecheck core)) source package := by
      clear inside
      induction path using Relation.ReflTransGen.head_induction_on with
      | refl => exact ⟨keeps, .refl⟩
      | head step _ ih =>
        obtain ⟨inside, -⟩ := step
        unfold leads at inside
        split at inside
        · contradiction
        · next kept =>
          obtain ⟨token, here, rfl⟩ := List.mem_map.mp inside
          exact ⟨kept, .head ⟨ih.1, token, here, rfl⟩ ih.2⟩
    obtain ⟨token, here, rfl⟩ := List.mem_map.mp inside
    exact .head' ⟨way.1, token, here, rfl⟩ way.2
  · intro path
    induction path with
    | single step =>
      obtain ⟨-, token, here, rfl⟩ := step
      exact visited.source _ (List.mem_map_of_mem here) (known root token here)
    | @tail middle _ path step ih =>
      have kept := not_mem_of_path path
      obtain ⟨-, token, here, rfl⟩ := step
      refine visited.closed middle (ih kept) List.not_mem_nil _ ⟨?_, known middle token here⟩
      rw [leads, if_neg kept]
      exact List.mem_map_of_mem here

/-- The packages whose edges are written. -/
theorem mem_order {package : Text} :
    package ∈ root :: new.filter (· ∉ dropped corecheck core) ↔
      Relation.ReflTransGen (Step file (dropped corecheck core)) root package := by
  rw [List.mem_cons, List.mem_filter, decide_eq_true_iff, Relation.reflTransGen_iff_eq_or_transGen]
  refine or_congr_right ⟨fun both => (wrote.mem_new start both.2).mp both.1, fun path => ?_⟩
  have keeps := not_mem_of_path path
  exact ⟨(wrote.mem_new start keeps).mpr path, keeps⟩

/-- Every package is written once when the root is not on a cycle. -/
theorem once (acyclic : ¬ Relation.TransGen (Step file (dropped corecheck core)) root root) :
    Once file (dropped corecheck core) root
      ((root :: new.filter (· ∉ dropped corecheck core)).flatMap (packageLines file confpath (dropped corecheck core))) := by
  refine ⟨_, List.nodup_cons.mpr ⟨fun member => ?_, wrote.distinct.filter _⟩, fun package => wrote.mem_order start,
    fun package token => edgeLines confpath package token.text, edgeLines_spec confpath, .refl _⟩
  obtain ⟨inside, keeps⟩ := List.mem_filter.mp member
  exact acyclic ((wrote.mem_new start (of_decide_eq_true keeps)).mp inside)

end Wrote

section

variable (apart : Apart file core root) {new : List Text} {s full : Vars} (start : s.dones = [])
  (out : s.out = (inputs file confpath core).head root) (empty : s.coreexist = [])
  (wrote : Wrote file confpath core true [root] ((tokens file root).map Token.dep) s full new)

include start out wrote

include empty

end

private theorem takeWhile_append {sep : Char} {name : Text} (away : sep ∉ name) (rest : Text) :
    (name ++ sep :: rest).takeWhile (· ≠ sep) = name := by
  rw [List.takeWhile_append_of_pos]
  · simp
  · exact fun c member => decide_eq_true fun same => away (same ▸ member)

theorem isListed_iff {sep : Char} {names : List Text} {dep : Text} (dot : '.' ∉ dep) (plain : sep ∉ dep) (other : sep ≠ '.')
    (apart : ∀ name ∈ names, sep ∉ name) : isListed sep names dep = true ↔ dep ∈ names := by
  refine ⟨fun listed => ?_, isListed_of_mem sep⟩
  have pattern : '.' ∉ sep :: (dep ++ [sep]) := by simp [dot, other.symm]
  obtain ⟨tail, inside, here⟩ := List.any_eq_true.mp listed
  have found : sep :: (dep ++ [sep]) <:+: delimited sep names :=
    ((grepPrefix_iff pattern tail).mp here).isInfix.trans ((List.mem_tails ..).mp inside).isInfix
  clear listed inside here
  induction names with
  | nil =>
    have lengths := found.length_le
    simp [delimited] at lengths
  | cons name names ih =>
    have clear := apart name (List.mem_cons_self ..)
    rw [delimited_cons] at found
    rcases List.infix_cons_iff.mp found with start | later
    · obtain ⟨rest, whole⟩ := (List.cons_prefix_cons.mp start).2
      have same : dep ++ sep :: rest = name ++ sep :: names.flatMap (· ++ [sep]) := by
        rwa [List.append_assoc, List.singleton_append] at whole
      have cut := congrArg (List.takeWhile (· ≠ sep)) same
      rw [takeWhile_append plain, takeWhile_append clear] at cut
      exact cut ▸ List.mem_cons_self ..
    · refine List.mem_cons_of_mem _ (ih (fun name member => apart name (List.mem_cons_of_mem _ member)) ?_)
      by_contra absent
      exact not_infix_append clear absent later

/-- Names without dots are not taken for others. -/
theorem apart_of_plain (plain : ∀ package, Relation.ReflTransGen (Step file []) root package → '.' ∉ package)
    (rootName : ∃ name : PackageName, name.text = root) (colons : ∀ package ∈ core, ':' ∉ package) :
    Apart file core root := by
  have named (package : Text) (reach : Relation.ReflTransGen (Step file []) root package) :
      ∃ name : PackageName, name.text = package := by
    cases reach with
    | refl => exact rootName
    | tail _ step =>
      obtain ⟨-, token, -, rfl⟩ := step
      exact token.dep_name
  have away (package : Text) (reach : Relation.ReflTransGen (Step file []) root package) {c : Char}
      (special : nameChar c = false) : c ∉ package := by
    obtain ⟨name, rfl⟩ := named package reach
    exact name.not_mem special
  refine ⟨fun package reach line _ _ covers => ?_, fun package reach names others => ?_, fun package reach absent => ?_⟩
  · have begins := (grepPrefix_iff (plain package reach) _).mp covers.2
    exact (begins.eq_of_length covers.1).symm
  · rw [Bool.eq_false_iff, Ne, isListed_iff (plain package reach) (away package reach (by decide)) (by decide)
      fun name member => away name (others name member).1 (by decide)]
    exact fun member => (others package member).2 rfl
  · rwa [Bool.eq_false_iff, Ne, isListed_iff (plain package reach) (away package reach (by decide)) (by decide) colons]

end

private def app : PackageName := { text := "app".toList, nonempty := by decide, named := by decide, plain := by decide }

private theorem lib_nonempty : "lib".toList ≠ [] := by decide

private theorem lib_named : ∀ c ∈ "lib".toList, nameChar c = true := by decide

private theorem lib_plain : '+' ∉ "lib".toList := by decide

private def lib : PackageName :=
  { text := "lib".toList, nonempty := lib_nonempty, named := lib_named, plain := lib_plain }

end CBuild.Soundness.DependsImage
