import CBuild.Data.Windows
import CBuild.Model.ExecPatch

/-! # A series of patches

Whether a patch is in the tree is found out for each patch alone, and both directions go through the series
from the first patch on. So a patch that a later one builds on is found missing, and is not taken out: a series goes
in and out again exactly when no patch changes a place that another one touches.
-/

namespace CBuild.Soundness.PatchSeries

open CBuild.Data CBuild.Model.ExecPatch

variable {Tree : Type*} {patches : List (Patch Tree)} {tree patched : Tree}

/-- The patches apply one after the other, and none can be taken out before it is put in. -/
inductive Applies : List (Patch Tree) → Tree → Tree → Prop
  | nil (tree : Tree) : Applies [] tree tree
  | cons {patch : Patch Tree} {patches : List (Patch Tree)} {tree next patched : Tree}
      (absent : patch.delta.symm tree = none) (clean : patch.delta tree = some next)
      (rest : Applies patches next patched) : Applies (patch :: patches) tree patched

theorem patch_ne_unpatch : "patch".toList ≠ "unpatch".toList := by decide

theorem execOne_patch_absent {patch : Patch Tree} (absent : patch.delta.symm tree = none) :
    execOne "patch".toList tree patch = (patch.delta tree).getD (patch.failed tree) := by
  rw [execOne, if_pos ⟨rfl, by rw [Patch.reversible, absent]; exact Bool.false_ne_true⟩]

theorem execOne_patch_present {patch : Patch Tree} {before : Tree} (present : patch.delta.symm tree = some before) :
    execOne "patch".toList tree patch = tree := by
  rw [execOne, if_neg fun absent => absent.2 (by rw [Patch.reversible, present]; rfl),
    if_neg fun back => patch_ne_unpatch back.1]

theorem execOne_unpatch (tree : Tree) (patch : Patch Tree) :
    execOne "unpatch".toList tree patch = (patch.delta.symm tree).getD tree := by
  rw [execOne, if_neg fun forth => patch_ne_unpatch forth.1.symm]
  cases reverted : patch.delta.symm tree with
  | none => rw [if_neg fun present => by simp [Patch.reversible, reverted] at present]; rfl
  | some before => rw [if_pos ⟨rfl, by rw [Patch.reversible, reverted]; rfl⟩]

/-- The first run puts all patches in. -/
theorem execAll_applies (applies : Applies patches tree patched) :
    execAll "patch".toList patches tree = patched := by
  induction applies with
  | nil => rfl
  | cons absent clean rest ih =>
    rw [execAll, List.foldl_cons, execOne_patch_absent absent, clean]
    exact ih

/-- A patch that leaves a trace where it does not apply leaves the tree as it is exactly when it can be taken out. -/
theorem execOne_patch_iff {patch : Patch Tree} (traced : patch.delta tree = none → patch.failed tree ≠ tree) :
    execOne "patch".toList tree patch = tree ↔ ∃ before, patch.delta.symm tree = some before := by
  cases reverted : patch.delta.symm tree with
  | some before => exact iff_of_true (execOne_patch_present reverted) ⟨before, rfl⟩
  | none =>
    rw [execOne_patch_absent reverted]
    refine iff_of_false ?_ nofun
    cases applied : patch.delta tree with
    | none => exact traced applied
    | some next =>
      -- a patch that changes nothing could be taken out
      rw [Option.getD_some]
      rintro rfl
      have back : patch.delta.symm next = some next := patch.delta.eq_some_iff.mpr applied
      rw [reverted] at back
      cases back

/-- A second run leaves the tree as it is at each patch exactly when each patch alone does. -/
theorem untouched_iff (patches : List (Patch Tree)) (tree : Tree) :
    (∀ first, first <+: patches → execAll "patch".toList first tree = tree) ↔
      ∀ patch ∈ patches, execOne "patch".toList tree patch = tree := by
  induction patches with
  | nil =>
    refine iff_of_true (fun first front => ?_) nofun
    rw [List.prefix_nil.mp front]
    rfl
  | cons patch patches ih =>
    rw [List.forall_mem_cons, ← ih]
    constructor
    · intro each
      have head : execOne "patch".toList tree patch = tree := each [patch] (by simp)
      refine ⟨head, fun first front => ?_⟩
      have whole := each (patch :: first) (List.cons_prefix_cons.mpr ⟨rfl, front⟩)
      rwa [execAll, List.foldl_cons, head] at whole
    · rintro ⟨head, rest⟩ first front
      obtain rfl | ⟨tail, rfl, shorter⟩ := List.prefix_cons_iff.mp front
      · rfl
      · rw [execAll, List.foldl_cons, head]
        exact rest tail shorter

variable {entry : Text → Entry} {read : Text → Patch Tree} {patchSrc : Text}

/-- The patches of the words of `patch_src`. -/
def series (entry : Text → Entry) (read : Text → Patch Tree) (patchSrc : Text) : List (Patch Tree) :=
  (patchArr entry patchSrc).map read

/-- The patches go in; a second run leaves the tree as it is at each of them; and they are taken out again. -/
def IdempotentReversible (entry : Text → Entry) (read : Text → Patch Tree) (patchSrc : Text)
    (tree patched : Tree) : Prop :=
  execPatch "patch".toList entry read patchSrc (some tree) = some patched ∧
  (∀ first, first <+: series entry read patchSrc → execAll "patch".toList first patched = patched) ∧
  execPatch "unpatch".toList entry read patchSrc (some patched) = some tree

/-- What a series that applies still has to do. -/
theorem idempotentReversible_of_applies (applies : Applies (series entry read patchSrc) tree patched) :
    IdempotentReversible entry read patchSrc tree patched ↔
      (∀ patch ∈ series entry read patchSrc, execOne "patch".toList patched patch = patched) ∧
      execAll "unpatch".toList (series entry read patchSrc) patched = tree := by
  rw [IdempotentReversible, untouched_iff, execPatch, execPatch, Option.map_some, Option.map_some, Option.some_inj,
    Option.some_inj]
  exact and_iff_right (execAll_applies applies)

/-- Where two patches commute, the first can also be applied after the second. -/
theorem commute_of_applies {patch other : Patch Tree} {next last : Tree}
    (commute : patch.delta.trans other.delta = other.delta.trans patch.delta) (first : patch.delta tree = some next)
    (second : other.delta next = some last) :
    ∃ middle, other.delta tree = some middle ∧ patch.delta middle = some last := by
  have both : other.delta.trans patch.delta tree = some last := by
    rw [← commute, PEquiv.trans_eq_some]
    exact ⟨next, first, second⟩
  exact (PEquiv.trans_eq_some ..).mp both

/-- A patch that commutes with all others can be applied after them. -/
theorem last_of_applies {patch : Patch Tree} {next : Tree}
    (commutes : ∀ other ∈ patches, patch.delta.trans other.delta = other.delta.trans patch.delta)
    (first : patch.delta tree = some next) (rest : patches.foldlM (fun tree other => other.delta tree) next = some patched) :
    ∃ before, patches.foldlM (fun tree other => other.delta tree) tree = some before ∧
      patch.delta before = some patched := by
  induction patches generalizing tree next with
  | nil =>
    cases rest
    exact ⟨tree, rfl, first⟩
  | cons other patches ih =>
    rw [List.foldlM_cons, Option.bind_eq_bind, Option.bind_eq_some_iff] at rest
    obtain ⟨last, second, rest⟩ := rest
    obtain ⟨middle, moved, again⟩ := commute_of_applies (commutes other (List.mem_cons_self ..)) first second
    obtain ⟨before, ran, final⟩ := ih (fun other member => commutes other (List.mem_cons_of_mem _ member)) again rest
    exact ⟨before, by rw [List.foldlM_cons, moved]; exact ran, final⟩

theorem Applies.foldlM (applies : Applies patches tree patched) :
    patches.foldlM (fun tree other => other.delta tree) tree = some patched := by
  induction applies with
  | nil => rfl
  | cons absent clean rest ih =>
    rw [List.foldlM_cons, clean]
    exact ih

/-- Patches that commute can be taken out of the patched tree, each alone and all in their order. -/
theorem unpatch_of_commute
    (commute : patches.Pairwise fun patch other => patch.delta.trans other.delta = other.delta.trans patch.delta)
    (applies : patches.foldlM (fun tree other => other.delta tree) tree = some patched) :
    (∀ patch ∈ patches, ∃ before, patch.delta.symm patched = some before) ∧
      execAll "unpatch".toList patches patched = tree := by
  induction patches generalizing tree patched with
  | nil =>
    cases applies
    exact ⟨nofun, rfl⟩
  | cons patch patches ih =>
    obtain ⟨commutes, pairwise⟩ := List.pairwise_cons.mp commute
    rw [List.foldlM_cons, Option.bind_eq_bind, Option.bind_eq_some_iff] at applies
    obtain ⟨next, first, rest⟩ := applies
    obtain ⟨before, ran, final⟩ := last_of_applies commutes first rest
    have reverted : patch.delta.symm patched = some before := patch.delta.eq_some_iff.mpr final
    refine ⟨List.forall_mem_cons.mpr ⟨⟨before, reverted⟩, (ih pairwise rest).1⟩, ?_⟩
    rw [execAll, List.foldl_cons, execOne_unpatch, reverted]
    exact (ih pairwise ran).2

/-- A series of patches that commute is idempotent and reversible. -/
theorem idempotentReversible_of_commute (applies : Applies (series entry read patchSrc) tree patched)
    (commute : (series entry read patchSrc).Pairwise fun patch other =>
      patch.delta.trans other.delta = other.delta.trans patch.delta) :
    IdempotentReversible entry read patchSrc tree patched := by
  obtain ⟨reverted, back⟩ := unpatch_of_commute commute applies.foldlM
  refine (idempotentReversible_of_applies applies).mpr ⟨fun patch member => ?_, back⟩
  obtain ⟨before, present⟩ := reverted patch member
  exact execOne_patch_present present

section

variable {Place Line : Type*} [DecidableEq Place] [DecidableEq Line] {window : Text → Window Place Line}
  {failed : Text → (Place → Line) → Place → Line} {paths : List Text} {tree patched : Place → Line} {x : Place}

/-- The patch files: at its places, those of the context included, a file replaces what it expects. -/
def hunks (window : Text → Window Place Line) (failed : Text → (Place → Line) → Place → Line) (path : Text) :
    Patch (Place → Line) where
  delta := (window path).write
  failed := failed path

variable (applies : Applies (paths.map (hunks window failed)) tree patched)
  (fits : ∀ path ∈ paths, ∀ x ∈ (window path).places, patched x = (window path).new x)

include applies fits

/-- What is at its last value is not changed any more. -/
theorem same_of_final (here : tree x = patched x) :
    ∀ path ∈ paths, x ∈ (window path).places → (window path).old x = (window path).new x := by
  induction paths generalizing tree with
  | nil => nofun
  | cons path paths ih =>
    obtain ⟨fitsFirst, fitsRest⟩ := List.forall_mem_cons.mp fits
    cases applies with
    | cons absent clean rest =>
      obtain ⟨olds, rfl⟩ := (window path).write_eq_some_iff.mp clean
      refine List.forall_mem_cons.mpr ⟨fun member => ?_, ih rest fitsRest ?_⟩
      · rw [← olds x member, here, fitsFirst x member]
      · by_cases member : x ∈ (window path).places
        · rw [(window path).put_of_mem _ _ member, fitsFirst x member]
        · rw [(window path).put_of_not_mem _ _ member, here]

/-- A later patch changes nothing that an earlier one touches. -/
theorem later_same : paths.Pairwise fun path later =>
    ∀ x ∈ (window path).places, x ∈ (window later).places → (window later).old x = (window later).new x := by
  induction paths generalizing tree with
  | nil => exact .nil
  | cons path paths ih =>
    obtain ⟨fitsFirst, fitsRest⟩ := List.forall_mem_cons.mp fits
    cases applies with
    | cons absent clean rest =>
      obtain ⟨olds, rfl⟩ := (window path).write_eq_some_iff.mp clean
      refine .cons (fun later member x touched => ?_) (ih rest fitsRest)
      refine same_of_final rest fitsRest ?_ later member
      rw [(window path).put_of_mem _ _ touched, fitsFirst x touched]

/-- Every patch changes a place, and the first tree has what it expects there. -/
theorem changes_of_applies : ∀ path ∈ paths, ∃ x ∈ (window path).places,
    (window path).old x ≠ (window path).new x ∧ tree x = (window path).old x := by
  have later := later_same applies fits
  induction paths generalizing tree with
  | nil => nofun
  | cons path paths ih =>
    obtain ⟨-, fitsRest⟩ := List.forall_mem_cons.mp fits
    obtain ⟨first, pairwise⟩ := List.pairwise_cons.mp later
    cases applies with
    | cons absent clean rest =>
      obtain ⟨olds, rfl⟩ := (window path).write_eq_some_iff.mp clean
      refine List.forall_mem_cons.mpr ⟨?_, fun other member => ?_⟩
      · obtain ⟨x, inside, changed⟩ := (window path).symm_eq_none_iff.mp absent
        exact ⟨x, inside, olds x inside ▸ changed, olds x inside⟩
      · obtain ⟨x, inside, changed, here⟩ := ih rest fitsRest pairwise other member
        refine ⟨x, inside, changed, ?_⟩
        rwa [(window path).put_of_not_mem _ _ fun touched => changed (first other member x touched inside)] at here

omit applies fits

/-- Where every patch leaves what it finds, nothing changes on the way back. -/
theorem unpatch_same (same : ∀ path ∈ paths, x ∈ (window path).places → (window path).old x = (window path).new x) :
    execAll "unpatch".toList (paths.map (hunks window failed)) tree x = tree x := by
  induction paths generalizing tree with
  | nil => rfl
  | cons path paths ih =>
    obtain ⟨sameFirst, sameRest⟩ := List.forall_mem_cons.mp same
    rw [List.map_cons, execAll, List.foldl_cons, execOne_unpatch]
    refine (ih sameRest).trans ?_
    cases reverted : (hunks window failed path).delta.symm tree with
    | none => rfl
    | some before =>
      obtain ⟨news, rfl⟩ := (window path).symm_eq_some_iff.mp reverted
      rw [Option.getD_some]
      by_cases member : x ∈ (window path).places
      · rw [(window path).put_of_mem _ _ member, sameFirst member, news x member]
      · exact (window path).put_of_not_mem _ _ member

/-- Every patch can be taken out where its turn is. -/
inductive TakenOut (window : Text → Window Place Line) : List Text → (Place → Line) → Prop
  | nil (tree : Place → Line) : TakenOut window [] tree
  | cons {path : Text} {paths : List Text} {tree : Place → Line}
      (news : ∀ x ∈ (window path).places, tree x = (window path).new x)
      (rest : TakenOut window paths ((window path).put (window path).old tree)) : TakenOut window (path :: paths) tree

/-- A patch that is passed over on the way back leaves what it alone changes. -/
theorem takenOut_of_unpatch
    (later : paths.Pairwise fun path later =>
      ∀ x ∈ (window path).places, x ∈ (window later).places → (window later).old x = (window later).new x)
    (changes : ∀ path ∈ paths, ∃ x ∈ (window path).places, (window path).old x ≠ (window path).new x ∧
      tree x = (window path).old x ∧ patched x = (window path).new x)
    (back : execAll "unpatch".toList (paths.map (hunks window failed)) patched = tree) :
    TakenOut window paths patched := by
  induction paths generalizing patched with
  | nil => exact .nil patched
  | cons path paths ih =>
    obtain ⟨first, pairwise⟩ := List.pairwise_cons.mp later
    obtain ⟨⟨x, inside, changed, goal, start⟩, changesRest⟩ := List.forall_mem_cons.mp changes
    rw [List.map_cons, execAll, List.foldl_cons, execOne_unpatch] at back
    cases reverted : (hunks window failed path).delta.symm patched with
    | none =>
      rw [reverted, Option.getD_none] at back
      have kept : tree x = patched x := back ▸ unpatch_same fun other member => first other member x inside
      exact absurd (goal.symm.trans (kept.trans start)) changed
    | some before =>
      rw [reverted, Option.getD_some] at back
      obtain ⟨news, rfl⟩ := (window path).symm_eq_some_iff.mp reverted
      refine .cons news (ih pairwise (fun other member => ?_) back)
      obtain ⟨y, touched, changed, goal, start⟩ := changesRest other member
      refine ⟨y, touched, changed, goal, ?_⟩
      rwa [(window path).put_of_not_mem _ _ fun inside => changed (first other member y inside touched)]

omit [DecidableEq Line] in
/-- What the first of the patches that touch a place finds there is what all of them leave. -/
theorem TakenOut.first (out : TakenOut window paths tree) {line : Line}
    (each : ∀ path ∈ paths, x ∈ (window path).places → (window path).new x = line) {path : Text} (member : path ∈ paths)
    (touched : x ∈ (window path).places) : tree x = line := by
  induction out with
  | nil => cases member
  | @cons head paths tree news rest ih =>
    obtain ⟨eachFirst, eachRest⟩ := List.forall_mem_cons.mp each
    by_cases inside : x ∈ (window head).places
    · rw [news x inside, eachFirst inside]
    · rw [← ih eachRest ((List.mem_cons.mp member).resolve_left fun same => inside (same ▸ touched)),
        (window head).put_of_not_mem _ _ inside]

omit [DecidableEq Line] in
/-- Patches that can all be taken out where their turns are do not touch what others change. -/
theorem TakenOut.apart (out : TakenOut window paths tree)
    (later : paths.Pairwise fun path later =>
      ∀ x ∈ (window path).places, x ∈ (window later).places → (window later).old x = (window later).new x)
    (fits : ∀ path ∈ paths, ∀ x ∈ (window path).places, patched x = (window path).new x) :
    (paths.map window).Pairwise Window.Apart := by
  rw [List.pairwise_map]
  induction out with
  | nil => exact .nil
  | @cons head paths tree news rest ih =>
    obtain ⟨first, pairwise⟩ := List.pairwise_cons.mp later
    obtain ⟨fitsFirst, fitsRest⟩ := List.forall_mem_cons.mp fits
    refine .cons (fun other member x inside touched => ⟨?_, first other member x inside touched⟩) (ih pairwise fitsRest)
    have found := rest.first (fun path member touched => (fitsRest path member x touched).symm) member touched
    rwa [(window head).put_of_mem _ _ inside, fitsFirst x inside] at found

end

/-- A series of patches that commute goes in and out again. A series of patch files does exactly when no file changes
what another one touches, where an attempt that fails leaves a trace, such as a file with the rejects. -/
theorem idempotentReversible_iff (Tree Place Line : Type*) [DecidableEq Place] [DecidableEq Line]
    (entry : Text → Entry) (patchSrc : Text) :
    (∀ (read : Text → Patch Tree) (tree patched : Tree), Applies (series entry read patchSrc) tree patched →
      ((series entry read patchSrc).Pairwise fun patch other =>
        patch.delta.trans other.delta = other.delta.trans patch.delta) →
      IdempotentReversible entry read patchSrc tree patched) ∧
    ∀ (window : Text → Window Place Line) (failed : Text → (Place → Line) → Place → Line) (tree patched : Place → Line),
      Applies (series entry (hunks window failed) patchSrc) tree patched →
      (∀ path ∈ patchArr entry patchSrc, (window path).write patched = none → failed path patched ≠ patched) →
      (IdempotentReversible entry (hunks window failed) patchSrc tree patched ↔
        ((patchArr entry patchSrc).map window).Pairwise Window.Apart) := by
  refine ⟨fun read tree patched applies => idempotentReversible_of_commute applies,
    fun window failed tree patched applies traced => ⟨fun claimed => ?_, fun apart => ?_⟩⟩
  · obtain ⟨untouched, back⟩ := (idempotentReversible_of_applies applies).mp claimed
    have fits : ∀ path ∈ patchArr entry patchSrc, ∀ x ∈ (window path).places, patched x = (window path).new x := by
      intro path member
      have fixed := untouched (hunks window failed path) (List.mem_map_of_mem member)
      obtain ⟨before, reverted⟩ := (execOne_patch_iff (traced path member)).mp fixed
      exact ((window path).symm_eq_some_iff.mp reverted).1
    have later := later_same applies fits
    have changes (path : Text) (member : path ∈ patchArr entry patchSrc) :
        ∃ x ∈ (window path).places, (window path).old x ≠ (window path).new x ∧ tree x = (window path).old x ∧
          patched x = (window path).new x := by
      obtain ⟨x, inside, changed, here⟩ := changes_of_applies applies fits path member
      exact ⟨x, inside, changed, here, fits path member x inside⟩
    exact (takenOut_of_unpatch later changes back).apart later fits
  · refine idempotentReversible_of_commute applies ?_
    rw [series, List.pairwise_map]
    exact (List.pairwise_map.mp apart).imp Window.Apart.commute

def fixes (src : Text) : Entry :=
  if src = "fixes".toList then .folder ["1.patch".toList, "2.patch".toList, "notes".toList] else .missing

/-- Two lines of a tree, and the number of rejects. -/
def twoLines (first second rejects : ℕ) : Option Bool → ℕ
  | some false => first
  | some true => second
  | none => rejects

/-- A patch changes one line from one number to another. -/
def line (second : Bool) (old new : ℕ) : Window (Option Bool) ℕ :=
  { places := [some second], old := fun _ => old, new := fun _ => new }

def rejected (_ : Text) (tree : Option Bool → ℕ) : Option Bool → ℕ := Function.update tree none (tree none + 1)

def separate (path : Text) : Window (Option Bool) ℕ :=
  if path = "fixes/1.patch".toList then line false 0 1 else line true 0 1

def stacked (path : Text) : Window (Option Bool) ℕ :=
  if path = "fixes/1.patch".toList then line false 0 1 else line false 1 2

theorem rejected_traced (path : Text) (tree : Option Bool → ℕ) : rejected path tree ≠ tree := fun same =>
  Nat.succ_ne_self (tree none) ((Function.update_self ..).symm.trans (congrFun same none))

/-- Patches of two lines go in and out again. -/
theorem separate_idempotentReversible :
    Applies (series fixes (hunks separate rejected) "fixes".toList) (twoLines 0 0 0) (twoLines 1 1 0) ∧
    IdempotentReversible fixes (hunks separate rejected) "fixes".toList (twoLines 0 0 0) (twoLines 1 1 0) := by
  have second : (line true 0 1).write (twoLines 1 0 0) = some (twoLines 1 1 0) := by decide
  have applies : Applies (series fixes (hunks separate rejected) "fixes".toList) (twoLines 0 0 0) (twoLines 1 1 0) :=
    .cons (by decide) (by decide) (.cons (by decide) second (.nil _))
  have apart : ((patchArr fixes "fixes".toList).map separate).Pairwise Window.Apart := by
    change [line false 0 1, line true 0 1].Pairwise Window.Apart
    refine List.pairwise_pair.mpr fun x first second => ?_
    exact absurd ((List.mem_singleton.mp first).symm.trans (List.mem_singleton.mp second)) (by decide)
  exact ⟨applies, ((idempotentReversible_iff ℕ (Option Bool) ℕ fixes "fixes".toList).2 separate rejected _ _ applies
    fun path _ _ => rejected_traced path _).mpr apart⟩

/-- Where both patches change one line, only the second is taken out. -/
theorem stacked_remains :
    Applies (series fixes (hunks stacked rejected) "fixes".toList) (twoLines 0 0 0) (twoLines 2 0 0) ∧
    execPatch "unpatch".toList fixes (hunks stacked rejected) "fixes".toList (some (twoLines 2 0 0)) =
      some (twoLines 1 0 0) ∧
    ¬ IdempotentReversible fixes (hunks stacked rejected) "fixes".toList (twoLines 0 0 0) (twoLines 2 0 0) := by
  have second : (line false 1 2).write (twoLines 1 0 0) = some (twoLines 2 0 0) := by decide
  have left : execPatch "unpatch".toList fixes (hunks stacked rejected) "fixes".toList (some (twoLines 2 0 0)) =
      some (twoLines 1 0 0) := by decide
  refine ⟨.cons (by decide) (by decide) (.cons (by decide) second (.nil _)), left, fun claimed => ?_⟩
  have back := Option.some.inj (left.symm.trans claimed.2.2)
  exact absurd (congrFun back (some false)) (by decide)

end CBuild.Soundness.PatchSeries
