import CBuild.Data.List
import CBuild.Graph.Acyclic
import CBuild.Model.GenBuildChain.Search
import CBuild.Soundness.MenuStack
import Mathlib.Data.List.Perm.Subperm

/-! # Every item is once in the forest

Items reach the forest through the member list of a choice, at once, or through ItemDict. Only
ItemDict can lose one, when a file assigns a key again; and items are out of reach of ItemList
exactly when choices claim each other in a circle.
-/

namespace CBuild.Soundness.ForestOnce

open CBuild.Data CBuild.Text CBuild.Graph CBuild.Machine CBuild.Model.GenBuildChain CBuild.Soundness.MenuStack

def placedItems (calls : List Call) : List Node :=
  calls.filterMap fun
    | .choose _ item => some item
    | .addItemToList item => some item
    | .actual _ => none

@[simp] theorem placedItems_append (first second : List Call) :
    placedItems (first ++ second) = placedItems first ++ placedItems second := by
  simp [placedItems]

@[simp] theorem actualList_append (first second : List Call) :
    actualList (first ++ second) = actualList first ++ actualList second := by
  simp [actualList]

theorem sortOn_perm {α : Type} (name : α → Text) (list : List α) : (sortOn name list).Perm list :=
  List.perm_insertionSort _ list

theorem setKey_of_not_mem {itemDict : List (Text × Node)} {entry : Text × Node}
    (fresh : entry.1 ∉ itemDict.map Prod.fst) : setKey itemDict entry = itemDict ++ [entry] := by
  induction itemDict with
  | nil => rfl
  | cons other rest ih =>
    rw [List.map_cons, List.mem_cons, not_or] at fresh
    rw [setKey, if_neg (Ne.symm fresh.1), ih fresh.2, List.cons_append]

theorem length_setKey_of_mem {itemDict : List (Text × Node)} {entry : Text × Node}
    (known : entry.1 ∈ itemDict.map Prod.fst) : (setKey itemDict entry).length = itemDict.length := by
  induction itemDict with
  | nil => contradiction
  | cons other rest ih =>
    rw [setKey]
    split
    · rfl
    · next different =>
      rw [List.map_cons, List.mem_cons] at known
      exact congrArg (· + 1) (ih (known.resolve_left (Ne.symm different)))

theorem setKey_subperm (itemDict : List (Text × Node)) (entry : Text × Node) :
    (setKey itemDict entry).Subperm (itemDict ++ [entry]) := by
  induction itemDict with
  | nil => exact List.Subperm.refl _
  | cons other rest ih =>
    rw [setKey]
    split
    · have moved : (entry :: rest).Perm (rest ++ [entry]) := (List.perm_append_singleton entry rest).symm
      exact moved.subperm.trans (List.sublist_cons_self other _).subperm
    · exact (List.subperm_cons other).mpr ih

theorem foldl_setKey_subperm (itemDict assigned : List (Text × Node)) :
    (assigned.foldl setKey itemDict).Subperm (itemDict ++ assigned) := by
  induction assigned generalizing itemDict with
  | nil => exact (List.append_nil itemDict).symm ▸ List.Subperm.refl _
  | cons entry assigned ih =>
    have first := (setKey_subperm itemDict entry).append (List.Subperm.refl assigned)
    rw [List.append_assoc, List.singleton_append] at first
    exact (ih _).trans first

/-- No assignment is lost exactly when all keys are different. -/
theorem length_foldl_setKey_iff (itemDict assigned : List (Text × Node)) :
    (assigned.foldl setKey itemDict).length = itemDict.length + assigned.length ↔
      (assigned.map Prod.fst).Nodup ∧ ∀ entry ∈ assigned, entry.1 ∉ itemDict.map Prod.fst := by
  induction assigned generalizing itemDict with
  | nil => simp
  | cons entry assigned ih =>
    rw [List.foldl_cons, List.length_cons]
    by_cases known : entry.1 ∈ itemDict.map Prod.fst
    · have few := (foldl_setKey_subperm (setKey itemDict entry) assigned).length_le
      rw [List.length_append, length_setKey_of_mem known] at few
      refine iff_of_false (by omega) fun all => all.2 entry (List.mem_cons_self ..) known
    · have more := ih (setKey itemDict entry)
      rw [setKey_of_not_mem known, List.length_append, List.length_singleton] at more
      rw [setKey_of_not_mem known, show itemDict.length + (assigned.length + 1) =
        itemDict.length + 1 + assigned.length by omega, more, List.map_cons, List.nodup_cons]
      simp only [List.map_append, List.map_cons, List.map_nil, List.mem_append, List.mem_singleton,
        List.forall_mem_cons, List.mem_map]
      constructor
      · rintro ⟨distinct, fresh⟩
        refine ⟨⟨?_, distinct⟩, by simpa using known, fun other member inside => ?_⟩
        · rintro ⟨other, member, same⟩
          exact fresh other member (.inr same)
        · exact fresh other member (.inl inside)
      · rintro ⟨⟨fresh, distinct⟩, _, others⟩
        refine ⟨distinct, fun other member inside => ?_⟩
        rcases inside with old | same
        · exact others other member old
        · exact fresh ⟨other, member, same⟩

/-- The call goes where `__get_append_flag` sends the item. -/
def Routed (virtualList : List Node) : Call → Prop
  | .choose choice item => claimedBy virtualList item = some choice
  | .addItemToList item => claimedBy virtualList item = none
  | .actual _ => True

/-- Every actual item is placed or pending at most once, and all of them are exactly when nothing was
lost. -/
structure Balance (virtualList : List Node) (calls : List Call) (pending : List Node) (lossless : Prop) :
    Prop where
  routed : ∀ call ∈ calls, Routed virtualList call
  unclaimed : ∀ item ∈ pending, claimedBy virtualList item = none
  subperm : (placedItems calls ++ pending).Subperm (actualList calls)
  full : (placedItems calls ++ pending).length = (actualList calls).length ↔ lossless

variable {tree : Tree} {virtualList : List Node} {uniPackages : List Text} {pathpair : PathPair}

namespace Balance

theorem nil : Balance virtualList [] [] True where
  routed := by simp
  unclaimed := by simp
  subperm := List.Subperm.refl _
  full := by simp [placedItems, actualList]

/-- Further appends that keep their own balance. -/
theorem append {calls more : List Call} {pending : List Node} {lossless lossless' : Prop}
    (first : Balance virtualList calls pending lossless) (second : Balance virtualList more [] lossless') :
    Balance virtualList (calls ++ more) pending (lossless ∧ lossless') where
  routed call member := (List.mem_append.mp member).elim (first.routed call) (second.routed call)
  unclaimed := first.unclaimed
  subperm := by
    have both := first.subperm.append second.subperm
    rw [List.append_nil, ← actualList_append] at both
    refine List.Subperm.trans (List.Perm.subperm ?_) both
    rw [placedItems_append, List.append_assoc, List.append_assoc]
    exact List.perm_append_comm.append_left _
  full := by
    have left := first.subperm.length_le
    have right := second.subperm.length_le
    rw [← first.full, ← second.full]
    simp only [placedItems_append, actualList_append, List.length_append, List.append_nil] at *
    omega

/-- One more actual item, placed or pending. -/
theorem append_one {calls : List Call} {pending : List Node} {lossless : Prop}
    (first : Balance virtualList calls pending lossless) (item : Node) (more : List Call) (more' : List Node)
    (routed : ∀ call ∈ more, Routed virtualList call)
    (unclaimed : ∀ item ∈ more', claimedBy virtualList item = none)
    (one : (placedItems more ++ more').Perm [item]) (actual : actualList more = [item]) :
    Balance virtualList (calls ++ more) (pending ++ more') lossless where
  routed call member := (List.mem_append.mp member).elim (first.routed call) (routed call)
  unclaimed other member := (List.mem_append.mp member).elim (first.unclaimed other) (unclaimed other)
  subperm := by
    have both := first.subperm.append one.subperm
    rw [← actual, ← actualList_append] at both
    refine List.Subperm.trans (List.Perm.subperm ?_) both
    rw [placedItems_append, List.append_assoc, List.append_assoc]
    exact List.Perm.append_left _ (by
      rw [← List.append_assoc, ← List.append_assoc]
      exact List.perm_append_comm.append_right _)
  full := by
    have length := one.length_eq
    rw [← first.full]
    simp only [placedItems_append, actualList_append, List.length_append, actual, List.length_singleton] at *
    omega

end Balance

/-- The balance of the state while a file is read. -/
def Kept (virtualList : List Node) (fs : FileState) (lossless : Prop) : Prop :=
  Balance virtualList fs.calls (fs.assigned.map Prod.snd) lossless

theorem Kept.appendItem {fs : FileState} {lossless : Prop} (kept : Kept virtualList fs lossless) (key : Text)
    (item : Node) : Kept virtualList (fs.append virtualList key item) lossless := by
  unfold Kept FileState.append
  split
  · next choice claimed =>
    have one := kept.append_one item [.choose choice item, .actual item] []
      (by simpa [Routed] using claimed) (by simp) (.refl _) rfl
    simpa using one
  · next unclaimed =>
    split
    · have one := kept.append_one item [.actual item] [item]
        (by simp [Routed]) (by simpa using unclaimed) (.refl _) rfl
      simpa using one
    · have one := kept.append_one item [.addItemToList item, .actual item] []
        (by simpa [Routed] using unclaimed) (by simp) (.refl _) rfl
      simpa using one

theorem Kept.flush {fs : FileState} {lossless : Prop} (kept : Kept virtualList fs lossless) :
    Kept virtualList (fs.flushNative virtualList uniPackages) lossless := by
  unfold FileState.flushNative
  split
  · have off : Kept virtualList { fs with nativeFlag := false } lossless := kept
    exact off.appendItem _ _
  · exact kept

theorem Kept.deps {fs : FileState} {lossless : Prop} (kept : Kept virtualList fs lossless)
    (makestr target : Text) (targets : List Text) :
    Kept virtualList (addDeps tree virtualList uniPackages pathpair makestr target targets fs) lossless := by
  have flushed : Kept virtualList (fs.flushNative virtualList uniPackages) lossless := kept.flush
  unfold addDeps
  dsimp only
  split
  · exact flushed
  · refine Kept.appendItem ?_ _ _
    exact flushed

/-- Included directories keep their own balance. -/
theorem balance_includes {includes : PathPair → Option (List Call)} {lossless : PathPair → Prop}
    (spec : ∀ pathpair calls, includes pathpair = some calls →
      Balance virtualList calls [] (lossless pathpair)) {paths : List Text} {calls : List (List Call)}
    (success : paths.mapM (fun path => includes (includedPair tree pathpair path)) = some calls) :
    Balance virtualList calls.flatten [] (∀ path ∈ paths, lossless (includedPair tree pathpair path)) := by
  have related := mapM_eq_some_iff.mp success
  clear success
  induction related with
  | nil => simpa using Balance.nil
  | cons here _ ih => simpa using (spec _ _ here).append ih

def LosslessLine (tree : Tree) (pathpair : PathPair) (lossless : PathPair → Prop) : DepsLine → Prop
  | .deps .. => True
  | .incdeps paths => ∀ path ∈ paths, lossless (includedPair tree pathpair path)

theorem Kept.statement {includes : PathPair → Option (List Call)} {lossless : PathPair → Prop}
    (spec : ∀ pathpair calls, includes pathpair = some calls →
      Balance virtualList calls [] (lossless pathpair)) {fs fs' : FileState} {line : DepsLine} {before : Prop}
    (kept : Kept virtualList fs before)
    (success : addStatement tree virtualList uniPackages pathpair includes fs line = some fs') :
    Kept virtualList fs' (before ∧ LosslessLine tree pathpair lossless line) := by
  cases line with
  | deps makestr target targets =>
    cases success
    simpa [LosslessLine] using kept.deps makestr target targets
  | incdeps paths =>
    simp only [addStatement, bind, Option.bind_eq_some_iff] at success
    obtain ⟨calls, included, result⟩ := success
    cases result
    have more := Balance.append kept (balance_includes spec included)
    simpa only [Kept, LosslessLine, (sortOn_perm id paths).mem_iff] using more

theorem Kept.statements {includes : PathPair → Option (List Call)} {lossless : PathPair → Prop}
    (spec : ∀ pathpair calls, includes pathpair = some calls →
      Balance virtualList calls [] (lossless pathpair)) {lines : List DepsLine} {fs fs' : FileState}
    {before : Prop} (kept : Kept virtualList fs before)
    (success : lines.foldlM (addStatement tree virtualList uniPackages pathpair includes) fs = some fs') :
    Kept virtualList fs' (before ∧ ∀ line ∈ lines, LosslessLine tree pathpair lossless line) := by
  induction lines generalizing fs before with
  | nil =>
    cases success
    simpa using kept
  | cons line lines ih =>
    rw [List.foldlM_cons] at success
    obtain ⟨next, here, rest⟩ := Option.bind_eq_some_iff.mp success
    simpa only [List.forall_mem_cons, and_assoc] using ih (kept.statement spec here) rest

theorem actualList_flushDict (fs : FileState) : actualList fs.flushDict = actualList fs.calls := by
  rw [FileState.flushDict, actualList_append]
  simp [actualList, List.filterMap_map]

/-- At the end of a file its ItemDict is placed. -/
theorem Kept.dict {fs : FileState} {lossless : Prop} (kept : Kept virtualList fs lossless) :
    Balance virtualList fs.flushDict [] (lossless ∧ (fs.assigned.map Prod.fst).Nodup) := by
  have sorted := sortOn_perm Prod.fst fs.itemDict
  have within : fs.itemDict.Subperm fs.assigned := by
    simpa [FileState.itemDict] using foldl_setKey_subperm [] fs.assigned
  have length : fs.itemDict.length = fs.assigned.length ↔ (fs.assigned.map Prod.fst).Nodup := by
    simpa [FileState.itemDict] using length_foldl_setKey_iff [] fs.assigned
  have placed : placedItems fs.flushDict = placedItems fs.calls ++
      (sortOn Prod.fst fs.itemDict).map Prod.snd := by
    rw [FileState.flushDict, placedItems_append]
    congr 1
    simp [placedItems, List.filterMap_map]
  have actual : actualList fs.flushDict = actualList fs.calls := actualList_flushDict fs
  have few := within.length_le
  constructor
  · intro call member
    rcases List.mem_append.mp member with old | new
    · exact kept.routed call old
    · obtain ⟨entry, inside, rfl⟩ := List.mem_map.mp new
      have pending : entry ∈ fs.assigned := within.subset (sorted.mem_iff.mp inside)
      exact kept.unclaimed _ (List.mem_map_of_mem pending)
  · simp
  · rw [List.append_nil, placed, actual]
    refine List.Subperm.trans ?_ kept.subperm
    obtain ⟨part, same, inside⟩ := within
    have values : (fs.itemDict.map Prod.snd).Subperm (fs.assigned.map Prod.snd) :=
      ⟨part.map Prod.snd, same.map _, inside.map _⟩
    exact (List.Subperm.refl _).append ((sorted.map Prod.snd).subperm.trans values)
  · have total := kept.subperm.length_le
    rw [← kept.full, ← length, List.append_nil, placed, actual]
    simp only [List.length_append, List.length_map, sorted.length_eq] at *
    omega

/-- A statement, without what included files append. -/
def ownStatement (tree : Tree) (virtualList : List Node) (uniPackages : List Text) (pathpair : PathPair)
    (fs : FileState) : DepsLine → FileState
  | .deps makestr target targets => addDeps tree virtualList uniPackages pathpair makestr target targets fs
  | .incdeps _ => fs

/-- The state at the end of a file, without what included files append. -/
def fileState (tree : Tree) (virtualList : List Node) (uniPackages : List Text) (pathpair : PathPair)
    (lines : List DepsLine) : FileState :=
  (lines.foldl (ownStatement tree virtualList uniPackages pathpair) {}).flushNative virtualList uniPackages

/-- What is appended does not depend on the appends before. -/
theorem append_calls (fs : FileState) (key : Text) (item : Node) : ∃ more, ∀ calls,
    { fs with calls }.append virtualList key item =
      { fs.append virtualList key item with calls := calls ++ more } := by
  unfold FileState.append
  cases claimedBy virtualList item with
  | some choice => exact ⟨[.choose choice item, .actual item], fun _ => rfl⟩
  | none =>
    by_cases slash : '/' ∈ fs.makestr
    · exact ⟨[.actual item], fun calls => by simp only [if_pos slash]⟩
    · exact ⟨[.addItemToList item, .actual item], fun calls => by simp only [if_neg slash]⟩

theorem flushNative_calls (fs : FileState) : ∃ more, ∀ calls,
    { fs with calls }.flushNative virtualList uniPackages =
      { fs.flushNative virtualList uniPackages with calls := calls ++ more } := by
  unfold FileState.flushNative
  cases native : fs.nativeFlag with
  | true =>
    obtain ⟨more, same⟩ := @append_calls virtualList { fs with nativeFlag := false }
      (fs.makestr ++ ".native".toList) (getNativeDeps uniPackages fs.item)
    exact ⟨more, fun calls => by simpa using same calls⟩
  | false => exact ⟨[], fun calls => by simp [native]⟩

theorem addDeps_calls (fs : FileState) (makestr target : Text) (targets : List Text) : ∃ more, ∀ calls,
    addDeps tree virtualList uniPackages pathpair makestr target targets { fs with calls } =
      { addDeps tree virtualList uniPackages pathpair makestr target targets fs with calls := calls ++ more } := by
  obtain ⟨flushed, same⟩ := @flushNative_calls virtualList uniPackages fs
  unfold addDeps
  by_cases ignore : target = "ignore".toList
  · exact ⟨flushed, fun calls => by rw [same, if_pos ignore, if_pos ignore]⟩
  · obtain ⟨more, appended⟩ := @append_calls virtualList { fs.flushNative virtualList uniPackages with
      item := depsItem tree pathpair makestr target, makestr, nativeFlag := "native".toList ∈ targets } makestr
      (depsItem tree pathpair makestr target)
    refine ⟨flushed ++ more, fun calls => ?_⟩
    rw [same, if_neg ignore, if_neg ignore, ← List.append_assoc]
    exact appended (calls ++ flushed)

/-- Included files change nothing but the appends of a file. -/
theorem foldlM_calls {includes : PathPair → Option (List Call)} {lines : List DepsLine} {fs' : FileState}
    (fs : FileState) (calls : List Call)
    (success : lines.foldlM (addStatement tree virtualList uniPackages pathpair includes) { fs with calls } =
      some fs') :
    ∃ calls', fs' =
      { lines.foldl (ownStatement tree virtualList uniPackages pathpair) fs with calls := calls' } := by
  induction lines generalizing fs calls with
  | nil =>
    cases success
    exact ⟨calls, rfl⟩
  | cons line lines ih =>
    rw [List.foldlM_cons] at success
    obtain ⟨next, here, rest⟩ := Option.bind_eq_some_iff.mp success
    cases line with
    | deps makestr target targets =>
      obtain ⟨more, same⟩ := @addDeps_calls tree virtualList uniPackages pathpair fs makestr target targets
      cases here
      rw [same] at rest
      exact ih _ (calls ++ more) rest
    | incdeps paths =>
      simp only [addStatement, bind, Option.bind_eq_some_iff] at here
      obtain ⟨included, _, result⟩ := here
      cases result
      exact ih _ _ rest

/-- The files that are read for an entry of PathList. -/
inductive Reads (tree : Tree) : PathPair → PathPair → Prop
  | self (pathpair : PathPair) : Reads tree pathpair pathpair
  | incdeps {pathpair other : PathPair} {lines : List DepsLine} {paths : List Text} {path : Text} :
      tree.deps pathpair.path = some lines → .incdeps paths ∈ lines → path ∈ paths →
      Reads tree (includedPair tree pathpair path) other → Reads tree pathpair other

/-- No key is assigned twice in the file. -/
def KeysDistinct (tree : Tree) (virtualList : List Node) (uniPackages : List Text) (pathpair : PathPair) : Prop :=
  ∀ lines, tree.deps pathpair.path = some lines →
    ((fileState tree virtualList uniPackages pathpair lines).assigned.map Prod.fst).Nodup

/-- A file and those it includes keep the balance, and lose nothing exactly when their keys are distinct. -/
theorem addDepsFile_balance {fuel : ℕ} {calls : List Call}
    (success : addDepsFile tree virtualList uniPackages fuel pathpair = some calls) :
    Balance virtualList calls [] (∀ other, Reads tree pathpair other →
      KeysDistinct tree virtualList uniPackages other) := by
  induction fuel generalizing pathpair calls with
  | zero => cases success
  | succ fuel ih =>
    rw [addDepsFile] at success
    split at success
    · next missing =>
      cases success
      have distinct : ∀ other, Reads tree pathpair other → KeysDistinct tree virtualList uniPackages other := by
        intro other reads
        cases reads with
        | self => exact fun lines found => by simp [missing] at found
        | incdeps found => simp [missing] at found
      exact { Balance.nil with full := by simpa [placedItems, actualList] using distinct }
    · next lines found =>
      obtain ⟨fs, run, result⟩ := Option.bind_eq_some_iff.mp success
      cases result
      have assigned : (fs.flushNative virtualList uniPackages).assigned =
          (fileState tree virtualList uniPackages pathpair lines).assigned := by
        obtain ⟨calls', rfl⟩ := foldlM_calls {} [] run
        obtain ⟨flushed, same⟩ := @flushNative_calls virtualList uniPackages
          (lines.foldl (ownStatement tree virtualList uniPackages pathpair) {})
        rw [same]
        rfl
      have started : Kept virtualList {} True := Balance.nil
      have kept : Kept virtualList (fs.flushNative virtualList uniPackages) _ :=
        (started.statements (fun _ _ included => ih included) run).flush
      refine { kept.dict with full := kept.dict.full.trans ?_ }
      rw [assigned, true_and]
      constructor
      · rintro ⟨included, own⟩ other reads
        cases reads with
        | self => exact fun lines' found' => by cases found.symm.trans found'; exact own
        | incdeps found' member inside reads =>
          cases found.symm.trans found'
          exact included _ member _ inside other reads
      · intro all
        refine ⟨fun line member => ?_, all pathpair (.self _) lines found⟩
        cases line with
        | deps => trivial
        | incdeps paths => exact fun path inside other reads => all other (.incdeps found member inside reads)

theorem addInfo_target (item : Node) (infos : List Text) : (infos.foldl addInfo item).target = item.target := by
  induction infos generalizing item with
  | nil => rfl
  | cons info infos ih =>
    rw [List.foldl_cons, ih, addInfo]
    split
    · rfl
    · split <;> rfl

theorem virtualItems_named {root spath : Text} {line : VDepsLine} {items : List Node}
    (success : virtualItems uniPackages root spath line = some items) : ∀ item ∈ items, item.target ≠ [] := by
  simp only [virtualItems, bind, Option.bind_eq_some_iff] at success
  obtain ⟨vtype, _, result⟩ := success
  have named : (line.infos.foldl addInfo { path := root, spath, vtype, target := line.target }).target ≠ [] := by
    rw [addInfo_target]
    exact line.named
  split at result
  · cases result
    intro item member
    split at member
    · rw [List.mem_singleton.mp member]
      exact named
    · rcases List.mem_cons.mp member with rfl | member
      · exact named
      · rw [List.mem_singleton.mp member]
        exact fun empty => named (List.append_eq_nil_iff.mp empty).1
  · cases result
    intro item member
    rw [List.mem_singleton.mp member]
    exact named

theorem addVirtualDeps_named {root spath : Text} {lines : List VDepsLine} {targetList : List Text}
    {items : List Node} (success : addVirtualDeps uniPackages root spath lines targetList = some items) :
    ∀ item ∈ items, item.target ≠ [] := by
  induction lines generalizing targetList items with
  | nil =>
    cases success
    simp
  | cons line lines ih =>
    simp only [addVirtualDeps, bind, Option.bind_eq_some_iff] at success
    obtain ⟨first, here, result⟩ := success
    split at result
    · cases result
    · obtain ⟨rest, there, result⟩ := Option.bind_eq_some_iff.mp result
      cases result
      intro item member
      rcases List.mem_append.mp member with inside | inside
      · exact virtualItems_named here item inside
      · exact ih there item inside

def virtualNames (pathList : List PathPair) : List Text :=
  (pathList.filter fun pathpair => pathpair.target ≠ []).map (·.target)

theorem visitDir_names {rootDir root : Text} {found : List Node × List PathPair}
    (success : visitDir tree uniPackages rootDir root = some found) :
    virtualNames found.2 = found.1.map (·.target) := by
  simp only [visitDir, bind, Option.bind_eq_some_iff] at success
  obtain ⟨items, added, result⟩ := success
  cases result
  have named := addVirtualDeps_named added
  have kept : (items.map fun item => (⟨item.path, item.spath, item.target⟩ : PathPair)).filter
      (fun pathpair => pathpair.target ≠ []) = items.map fun item => ⟨item.path, item.spath, item.target⟩ := by
    rw [List.filter_eq_self]
    intro pathpair member
    obtain ⟨item, inside, rfl⟩ := List.mem_map.mp member
    simpa using named item inside
  dsimp only
  split
  · rw [virtualNames, List.filter_append, kept]
    simp
  · rw [virtualNames, kept, List.map_map]
    rfl

/-- PathList has one virtual entry for each item of VirtualList. -/
theorem searchNormalDepends_names {searchDirs ignoreDirs goOnDirs : List Text} {fuel : ℕ}
    {virtualList : List Node} {pathList : List PathPair}
    (success : searchNormalDepends tree uniPackages searchDirs ignoreDirs goOnDirs fuel =
      some (virtualList, pathList)) : virtualNames pathList = virtualList.map (·.target) := by
  have visits (found : List (List Node × List PathPair))
      (each : ∀ visit ∈ found, virtualNames visit.2 = visit.1.map (·.target)) :
      virtualNames (found.flatMap Prod.snd) = (found.flatMap Prod.fst).map (·.target) := by
    induction found with
    | nil => rfl
    | cons visit found ih =>
      have here := each visit (List.mem_cons_self ..)
      have later := ih fun other member => each other (List.mem_cons_of_mem _ member)
      unfold virtualNames at *
      rw [List.flatMap_cons, List.flatMap_cons, List.filter_append, List.map_append, List.map_append, here, later]
  simp only [searchNormalDepends, bind, Option.bind_eq_some_iff] at success
  obtain ⟨found, searched, result⟩ := success
  cases result
  refine visits _ fun visit member => ?_
  obtain ⟨group, inside, here⟩ := List.mem_flatten.mp member
  obtain ⟨rootdir, _, searchedDir⟩ := (mem_of_mapM searched).mp inside
  obtain ⟨roots, _, visited⟩ := Option.bind_eq_some_iff.mp searchedDir
  obtain ⟨root, _, visitedDir⟩ := (mem_of_mapM visited).mp here
  exact visitDir_names visitedDir

/-- The virtual items that the entries of PathList place. -/
def virtualsOf (virtualList : List Node) (pathList : List PathPair) : List Node :=
  (virtualNames pathList).filterMap fun name => virtualList.find? (·.target = name)

/-- With distinct names, those are the items of VirtualList. -/
theorem virtualsOf_eq {pathList : List PathPair} (distinct : (virtualList.map (·.target)).Nodup)
    (names : virtualNames pathList = virtualList.map (·.target)) :
    virtualsOf virtualList pathList = virtualList := by
  have found (items : List Node) (inside : ∀ item ∈ items, item ∈ virtualList) :
      (items.map (·.target)).filterMap (fun name => virtualList.find? (·.target = name)) = items := by
    induction items with
    | nil => rfl
    | cons item items ih =>
      have here : virtualList.find? (·.target = item.target) = some item := by
        obtain ⟨other, found⟩ : ∃ other, virtualList.find? (·.target = item.target) = some other := by
          rw [← Option.isSome_iff_exists, List.find?_isSome]
          exact ⟨item, inside item (List.mem_cons_self ..), by simp⟩
        have same : other.target = item.target := by simpa using List.find?_some found
        rw [found, List.inj_on_of_nodup_map distinct (List.mem_of_find?_eq_some found)
          (inside item (List.mem_cons_self ..)) same]
      rw [List.map_cons, List.filterMap_cons, here, ih fun other member => inside other (List.mem_cons_of_mem _ member)]
  rw [virtualsOf, names]
  exact found virtualList fun _ member => member

/-- No file that is read for PathList assigns a key twice. -/
def Lossless (tree : Tree) (virtualList : List Node) (uniPackages : List Text) (pathList : List PathPair) : Prop :=
  ∀ pathpair ∈ pathList, pathpair.target = [] → ∀ other, Reads tree pathpair other →
    KeysDistinct tree virtualList uniPackages other

theorem perm_append_swap {α : Type} (a b c d : List α) : ((a ++ b) ++ (c ++ d)).Perm ((a ++ c) ++ (b ++ d)) := by
  rw [List.append_assoc, List.append_assoc]
  refine List.Perm.append_left a ?_
  rw [← List.append_assoc, ← List.append_assoc]
  exact List.perm_append_comm.append_right d

/-- Every item is placed at most once, and all of them are exactly when no key is assigned twice. -/
structure Complete (tree : Tree) (virtualList : List Node) (uniPackages : List Text) (pathList : List PathPair)
    (calls : List Call) : Prop where
  routed : ∀ call ∈ calls, Routed virtualList call
  subperm : (placedItems calls).Subperm (virtualsOf virtualList pathList ++ actualList calls)
  full : (placedItems calls).length = (virtualsOf virtualList pathList ++ actualList calls).length ↔
    Lossless tree virtualList uniPackages pathList

theorem addNormalItem_complete {fuel : ℕ} {calls : List Call}
    (success : addNormalItem tree virtualList uniPackages fuel pathpair = some calls) :
    Complete tree virtualList uniPackages [pathpair] calls := by
  unfold addNormalItem at success
  split at success
  · next isVirtual =>
    cases success
    have lossless : Lossless tree virtualList uniPackages [pathpair] := fun other member empty =>
      absurd (List.mem_singleton.mp member ▸ empty) isVirtual
    have virtuals : virtualsOf virtualList [pathpair] =
        (virtualList.find? (·.target = pathpair.target)).toList := by
      rw [virtualsOf, virtualNames, List.filter_cons_of_pos (by simpa using isVirtual)]
      simp [Option.toList]
      split <;> simp_all
    cases found : virtualList.find? (·.target = pathpair.target) with
    | none =>
      rw [found] at virtuals
      constructor
      · simp
      · simp [virtuals, placedItems, actualList]
      · simpa [virtuals, placedItems, actualList] using lossless
    | some item =>
      rw [found] at virtuals
      have placed : placedItems [addVirtualItem virtualList item] = [item] := by
        unfold addVirtualItem
        split <;> rfl
      have actual : actualList [addVirtualItem virtualList item] = [] := by
        unfold addVirtualItem
        split <;> rfl
      constructor
      · intro call member
        rw [List.mem_singleton.mp member]
        unfold addVirtualItem
        split <;> assumption
      · simp [virtuals, placed, actual]
      · simpa [virtuals, placed, actual] using lossless
  · next isFile =>
    have empty : pathpair.target = [] := not_not.mp isFile
    have balance := addDepsFile_balance success
    have virtuals : virtualsOf virtualList [pathpair] = [] := by
      rw [virtualsOf, virtualNames, List.filter_cons_of_neg (by simpa using empty)]
      rfl
    have lossless : Lossless tree virtualList uniPackages [pathpair] ↔
        ∀ other, Reads tree pathpair other → KeysDistinct tree virtualList uniPackages other := by
      simp [Lossless, empty]
    exact ⟨balance.routed, by simpa [virtuals] using balance.subperm,
      by simpa [virtuals, lossless] using balance.full⟩

theorem addItems_complete {fuel : ℕ} {pathList : List PathPair} {calls : List Call}
    (success : addItems tree virtualList uniPackages fuel pathList = some calls) :
    Complete tree virtualList uniPackages pathList calls := by
  obtain ⟨groups, added, result⟩ := Option.bind_eq_some_iff.mp success
  cases result
  have related := mapM_eq_some_iff.mp added
  clear success added
  induction related with
  | nil =>
    exact ⟨by simp, List.Subperm.refl _, by simp [placedItems, virtualsOf, virtualNames, actualList, Lossless]⟩
  | @cons pathpair group pathList groups here _ rest =>
    have first := addNormalItem_complete here
    have virtuals : virtualsOf virtualList (pathpair :: pathList) =
        virtualsOf virtualList [pathpair] ++ virtualsOf virtualList pathList := by
      have names : virtualNames (pathpair :: pathList) = virtualNames [pathpair] ++ virtualNames pathList := by
        rw [virtualNames, virtualNames, virtualNames, ← List.map_append, ← List.filter_append]
        rfl
      rw [virtualsOf, names, List.filterMap_append]
      rfl
    have lossless : Lossless tree virtualList uniPackages (pathpair :: pathList) ↔
        Lossless tree virtualList uniPackages [pathpair] ∧ Lossless tree virtualList uniPackages pathList := by
      simp only [Lossless, List.forall_mem_cons, List.not_mem_nil, false_imp_iff, implies_true, and_true]
    refine ⟨fun call member => (List.mem_append.mp member).elim (first.routed call) (rest.routed call), ?_, ?_⟩
    · rw [List.flatten_cons, placedItems_append, actualList_append, virtuals]
      exact (first.subperm.append rest.subperm).trans (perm_append_swap ..).subperm
    · have left := first.subperm.length_le
      have right := rest.subperm.length_le
      rw [lossless, ← first.full, ← rest.full, virtuals]
      simp only [List.flatten_cons, placedItems_append, actualList_append, List.length_append] at *
      omega

/-- The items that are reached from ItemList through member lists. -/
inductive InForest (placed : List (Node × Option Node)) : Node → Prop
  | root {item : Node} : (item, none) ∈ placed → InForest placed item
  | member {item parent : Node} : (item, some parent) ∈ placed → InForest placed parent → InForest placed item

/-- The item is a root or in one member list, once, and is reached from ItemList. -/
def OnceInForest (placed : List (Node × Option Node)) (item : Node) : Prop :=
  (placed.map Prod.fst).count item = 1 ∧ InForest placed item

/-- A choice claims the first item, which is the second. -/
def Claims (virtualList : List Node) (item choice : Node) : Prop := claimedBy virtualList item = some choice

theorem placed_run (st : Menus) (calls : List Call) :
    (run Menus.perform st calls).placed.map Prod.fst = st.placed.map Prod.fst ++ placedItems calls := by
  induction calls generalizing st with
  | nil => simp [placedItems]
  | cons call calls ih =>
    rw [run_cons, ih]
    cases call <;> simp [Menus.perform, placedItems]

theorem InForest.mono {placed more : List (Node × Option Node)} {item : Node} (inForest : InForest placed item) :
    InForest (placed ++ more) item := by
  induction inForest with
  | root member => exact .root (List.mem_append_left _ member)
  | member member _ ih => exact .member (List.mem_append_left _ member) ih

/-- A claimed item is in the member list of its choice, and any other item is in the forest, as are
the open menus. -/
structure Rooted (virtualList : List Node) (st : Menus) : Prop where
  claimed : ∀ item parent choice, (item, parent) ∈ st.placed → claimedBy virtualList item = some choice →
    parent = some choice
  unclaimed : ∀ item parent, (item, parent) ∈ st.placed → claimedBy virtualList item = none →
    InForest st.placed item
  opened : ∀ menu ∈ menus st.refs, InForest st.placed menu

/-- One append keeps claimed items with their choice and places the others below the root. -/
theorem Rooted.step {st : Menus} {call : Call} (rooted : Rooted virtualList st) (routed : Routed virtualList call) :
    Rooted virtualList (st.perform call) := by
  cases call with
  | choose choice item =>
    constructor
    · intro other parent other' member claimed
      rcases List.mem_append.mp member with old | new
      · exact rooted.claimed other parent other' old claimed
      · cases List.mem_singleton.mp new
        exact routed.symm.trans claimed
    · intro other parent member unclaimed
      rcases List.mem_append.mp member with old | new
      · exact (rooted.unclaimed other parent old unclaimed).mono
      · cases List.mem_singleton.mp new
        rw [routed] at unclaimed
        cases unclaimed
    · exact fun menu member => (rooted.opened menu member).mono
  | addItemToList item =>
    have placed := findPlace_placed item st.refs
    have here : InForest (st.perform (.addItemToList item)).placed item := by
      have last : (item, (findPlace item st.refs).1) ∈ (st.perform (.addItemToList item)).placed :=
        List.mem_append_right _ (List.mem_singleton_self _)
      cases found : (findPlace item st.refs).1 with
      | none => exact .root (found ▸ last)
      | some ref => exact .member (found ▸ last) (rooted.opened ref (placed.parent_mem found).1).mono
    constructor
    · intro other parent choice member claimed
      rcases List.mem_append.mp member with old | new
      · exact rooted.claimed other parent choice old claimed
      · cases List.mem_singleton.mp new
        rw [routed] at claimed
        cases claimed
    · intro other parent member unclaimed
      rcases List.mem_append.mp member with old | new
      · exact (rooted.unclaimed other parent old unclaimed).mono
      · cases List.mem_singleton.mp new
        exact here
    · intro menu member
      rcases placed.menus_subset member with old | ⟨rfl, _⟩
      · exact (rooted.opened menu old).mono
      · exact here
  | actual item => exact rooted

theorem rooted_run {calls : List Call} (routed : ∀ call ∈ calls, Routed virtualList call) :
    Rooted virtualList (run Menus.perform {} calls) := by
  have initial : Rooted virtualList {} := ⟨by simp, by simp, by simp [menus]⟩
  have guarded : Guarded Menus.perform (fun _ => Routed virtualList) {} calls := guarded_of_forall _ routed
  exact guarded.invariant (fun _ _ => Rooted.step) initial

/-- What is in the forest is not on a circle of claims. -/
theorem not_cyclic_of_inForest {st : Menus} (rooted : Rooted virtualList st) {item : Node}
    (inForest : InForest st.placed item) : ¬ Relation.TransGen (Claims virtualList) item item := by
  induction inForest with
  | @root item member =>
    intro cycle
    obtain ⟨choice, claims, _⟩ := Relation.TransGen.head'_iff.mp cycle
    cases rooted.claimed item none choice member claims
  | @member item parent member _ ih =>
    intro cycle
    obtain ⟨choice, claims, back⟩ := Relation.TransGen.head'_iff.mp cycle
    cases rooted.claimed item (some parent) choice member claims
    exact ih (Relation.TransGen.tail' back claims)

/-- The item that a choice claims has the choice in VirtualList. -/
theorem mem_of_claims {item choice : Node} (claims : Claims virtualList item choice) : choice ∈ virtualList :=
  List.mem_of_find?_eq_some claims

/-- Without circles of claims, every item that is placed is in the forest when all choices are placed. -/
theorem inForest_of_acyclic {st : Menus} (rooted : Rooted virtualList st)
    (acyclic : ∀ item ∈ virtualList, ¬ Relation.TransGen (Claims virtualList) item item)
    (all : ∀ item ∈ virtualList, ∃ parent, (item, parent) ∈ st.placed) {item : Node} {parent : Option Node}
    (member : (item, parent) ∈ st.placed) : InForest st.placed item := by
  have step (item : Node) (placed : ∃ parent, (item, parent) ∈ st.placed)
      (choices : ∀ choice ∈ virtualList, Claims virtualList item choice → InForest st.placed choice) :
      InForest st.placed item := by
    obtain ⟨parent, member⟩ := placed
    cases claim : claimedBy virtualList item with
    | none => exact rooted.unclaimed item parent member claim
    | some choice =>
      rw [rooted.claimed item parent choice member claim] at member
      exact .member member (choices choice (mem_of_claims claim) claim)
  have virtuals := acyclic_induction acyclic fun choice inside => step choice (all choice inside)
  exact step item ⟨parent, member⟩ fun choice inside _ => virtuals choice inside

/-- With distinct names, every item of VirtualList and ActualList is once in the forest exactly when
no file assigns a key of ItemDict twice and no choices claim each other in a circle. -/
theorem onceInForest_iff {searchDirs ignoreDirs goOnDirs : List Text} {fuel : ℕ} {pathList : List PathPair}
    {calls : List Call}
    (searched : searchNormalDepends tree uniPackages searchDirs ignoreDirs goOnDirs fuel =
      some (virtualList, pathList))
    (added : addItems tree virtualList uniPackages fuel pathList = some calls)
    (distinct : ((virtualList ++ actualList calls).map (·.target)).Nodup) :
    (∀ item ∈ virtualList ++ actualList calls, OnceInForest (run Menus.perform {} calls).placed item) ↔
      Lossless tree virtualList uniPackages pathList ∧
        ∀ item ∈ virtualList, ¬ Relation.TransGen (Claims virtualList) item item := by
  have complete := addItems_complete added
  have virtualDistinct : (virtualList.map (·.target)).Nodup := by
    rw [List.map_append] at distinct
    exact distinct.of_append_left
  have virtuals := virtualsOf_eq virtualDistinct (searchNormalDepends_names searched)
  have once : (virtualList ++ actualList calls).Nodup := distinct.of_map _
  have rooted := rooted_run complete.routed
  have placed : (run Menus.perform {} calls).placed.map Prod.fst = placedItems calls := placed_run {} calls
  have subperm := complete.subperm
  have full := complete.full
  rw [virtuals] at subperm full
  constructor
  · intro all
    have inside : virtualList ++ actualList calls ⊆ placedItems calls := by
      intro item member
      rw [← placed, ← List.one_le_count_iff, (all item member).1]
    have enough := (once.subperm inside).length_le
    refine ⟨full.mp (Nat.le_antisymm subperm.length_le enough), fun item member => ?_⟩
    exact not_cyclic_of_inForest rooted (all item (List.mem_append_left _ member)).2
  · rintro ⟨lossless, acyclic⟩ item member
    have perm := subperm.perm_of_length_le (full.mpr lossless).ge
    have exists_placed {item : Node} (member : item ∈ virtualList ++ actualList calls) :
        ∃ parent, (item, parent) ∈ (run Menus.perform {} calls).placed := by
      have inside : item ∈ (run Menus.perform {} calls).placed.map Prod.fst := placed ▸ perm.mem_iff.mpr member
      obtain ⟨⟨_, parent⟩, here, rfl⟩ := List.mem_map.mp inside
      exact ⟨parent, here⟩
    constructor
    · rw [placed, perm.count_eq, List.count_eq_one_of_mem once member]
    · obtain ⟨parent, here⟩ := exists_placed member
      exact inForest_of_acyclic rooted acyclic (fun other inside => exists_placed (List.mem_append_left _ inside)) here

def topTree (vdeps : List VDepsLine) (deps : List DepsLine) : Tree where
  dirs _ := []
  vdeps path := if path = "top".toList then some vdeps else none
  deps path := if path = "top".toList then some deps else none
  continues _ := false
  replaceEnv path := path

/-- A choice claims one of two packages, so only the other one and its native copy are deferred. -/
def claimedTree : Tree :=
  topTree [⟨"choice".toList, "pick".toList, ["liba".toList], by decide⟩]
    [.deps "lib/Makefile".toList "liba".toList ["union".toList],
      .deps "lib/Makefile".toList "libb".toList ["union".toList, "native".toList]]

def pick : Node := ⟨"top".toList, "top".toList, .choice, "pick".toList, ["liba".toList]⟩

def topPairs : List PathPair := [⟨"top".toList, "top".toList, "pick".toList⟩, ⟨"top".toList, "top".toList, []⟩]

theorem claimedTree_lossless : Lossless claimedTree [pick] [] topPairs := by
  intro pathpair member empty other reads lines found
  have top : pathpair = ⟨"top".toList, "top".toList, []⟩ := by
    rcases List.mem_cons.mp member with rfl | member
    · exact absurd empty (by decide)
    · exact List.mem_singleton.mp member
  subst top
  cases reads with
  | self =>
    cases found
    decide +kernel
  | incdeps found inside =>
    cases found
    simp at inside

/-- All items of the directory are once in the forest. -/
theorem claimedTree_once : ∃ calls, addItems claimedTree [pick] [] 2 topPairs = some calls ∧
    ∀ item ∈ [pick] ++ actualList calls, OnceInForest (run Menus.perform {} calls).placed item := by
  have searched : searchNormalDepends claimedTree [] ["top".toList] [] [] 2 = some ([pick], topPairs) := by rfl
  obtain ⟨calls, added⟩ : ∃ calls, addItems claimedTree [pick] [] 2 topPairs = some calls := ⟨_, rfl⟩
  refine ⟨calls, added, (onceInForest_iff searched added ?_).mpr ⟨claimedTree_lossless, ?_⟩⟩
  · cases added
    decide +kernel
  · intro item member cycle
    obtain ⟨choice, claims, _⟩ := Relation.TransGen.head'_iff.mp cycle
    rw [List.mem_singleton.mp member] at claims
    cases claims

/-- Two packages share a Makefile that is given with a path. -/
def unionTree : Tree :=
  topTree [] [.deps "lib/Makefile".toList "liba".toList ["union".toList],
    .deps "lib/Makefile".toList "libb".toList ["union".toList]]

/-- The first of the two packages is in no list. -/
theorem unionTree_loses : ∃ pathList calls,
    searchNormalDepends unionTree [] ["top".toList] [] [] 2 = some ([], pathList) ∧
    addItems unionTree [] [] 2 pathList = some calls ∧
    ((([] : List Node) ++ actualList calls).map (·.target)).Nodup ∧
    ¬ ∀ item ∈ ([] : List Node) ++ actualList calls, OnceInForest (run Menus.perform {} calls).placed item := by
  refine ⟨_, _, rfl, rfl, by decide +kernel, fun all => ?_⟩
  have first := (all ⟨"top/lib".toList, "top/lib".toList, .package, "liba".toList, []⟩ (by decide +kernel)).1
  exact absurd first (by decide +kernel)

end CBuild.Soundness.ForestOnce
