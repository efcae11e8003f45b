import CBuild.Data.Linked
import CBuild.Model.Progress.PkgList
import CBuild.Soundness.DatagramBytes

/-! # The list in memory and the list of its packages

The nodes are linked from the head and back to it. The operations on the list in memory do what the operations on lists
do, so that a message has the same effect on both.
-/

namespace CBuild.Soundness.JobList

open CBuild.Data CBuild.Model.Progress

variable {heap after : Heap} {addr : ℕ} {ptr : Ptr} {name : Bytes} {before rest entries : List (ℕ × Pkg)}

/-- What is behind the head or a node. -/
def target (heap : Heap) : Ptr → Option Ptr
  | .head => heap.headNext
  | .node addr => (heap.cells addr).bind Cell.next

def pkgAt (heap : Heap) (addr : ℕ) : Option Pkg := (heap.cells addr).map fun cell => ⟨some cell.name, cell.len⟩

def nodes (entries : List (ℕ × Pkg)) : List Ptr := entries.map fun entry => .node entry.1

/-- The nodes with their packages, in the order of the list; nothing else is allocated, and the head has the last one. -/
structure Represents (heap : Heap) (entries : List (ℕ × Pkg)) : Prop where
  linked : Linked (target heap) .head (nodes entries) .head
  distinct : (entries.map Prod.fst).Nodup
  contents : ∀ entry ∈ entries, pkgAt heap entry.1 = some entry.2
  only : ∀ addr, (pkgAt heap addr).isSome → addr ∈ entries.map Prod.fst
  last : heap.headPrev = some (lastFrom .head (nodes entries))

/-- The pointer can be written through. -/
def Allocated (heap : Heap) : Ptr → Prop
  | .head => True
  | .node addr => (pkgAt heap addr).isSome

theorem nodes_append (before rest : List (ℕ × Pkg)) : nodes (before ++ rest) = nodes before ++ nodes rest :=
  List.map_append

theorem mem_nodes : Ptr.node addr ∈ nodes entries ↔ addr ∈ entries.map Prod.fst := by
  unfold nodes
  simp [List.mem_map]

theorem nodes_nodup (distinct : (entries.map Prod.fst).Nodup) : (Ptr.head :: nodes entries).Nodup := by
  refine List.nodup_cons.mpr ⟨fun member => ?_, ?_⟩
  · obtain ⟨entry, -, same⟩ := List.mem_map.mp member
    cases same
  · have same : nodes entries = (entries.map Prod.fst).map Ptr.node := by simp [nodes]
    rw [same]
    exact distinct.map fun _ _ equal => by cases equal; rfl

theorem represents_init : Represents .init [] := ⟨rfl, List.nodup_nil, nofun, nofun, rfl⟩

theorem Represents.allocated (represents : Represents heap entries) (member : ptr ∈ Ptr.head :: nodes entries) :
    Allocated heap ptr := by
  cases ptr with
  | head => trivial
  | node addr =>
    have inside := (List.mem_cons.mp member).resolve_left nofun
    obtain ⟨entry, there, rfl⟩ := List.mem_map.mp (mem_nodes.mp inside)
    exact Option.isSome_iff_exists.mpr ⟨_, represents.contents entry there⟩

theorem node_ne_head : Ptr.node addr ≠ .head := nofun

theorem next_eq {value : Ptr} (found : target heap ptr = some value) : heap.next ptr = .ok (some value) := by
  cases ptr with
  | head => exact congrArg Except.ok found
  | node addr =>
    obtain ⟨cell, there, same⟩ := Option.bind_eq_some_iff.mp found
    change (deref (heap.cells addr)).map Cell.next = _
    rw [there]
    exact congrArg Except.ok same

theorem setNext_spec (there : Allocated heap ptr) (value : Option Ptr) : ∃ after, heap.setNext ptr value = .ok after ∧
    target after = Function.update (target heap) ptr value ∧ after.headPrev = heap.headPrev ∧
    pkgAt after = pkgAt heap := by
  cases ptr with
  | head =>
    refine ⟨_, rfl, ?_, rfl, rfl⟩
    funext other
    cases other with
    | head => rfl
    | node addr => exact (Function.update_of_ne node_ne_head ..).symm
  | node addr =>
    change ((heap.cells addr).map _).isSome at there
    rw [Option.isSome_map] at there
    obtain ⟨cell, found⟩ := Option.isSome_iff_exists.mp there
    refine ⟨{ heap with cells := Function.update heap.cells addr (some { cell with next := value }) }, ?_, ?_, rfl, ?_⟩
    · change (deref (heap.cells addr)).map _ = _
      rw [found]
      rfl
    · funext other
      cases other with
      | head => exact (Function.update_of_ne node_ne_head.symm ..).symm
      | node other =>
        change (Function.update heap.cells addr _ other).bind Cell.next = _
        by_cases same : other = addr
        · rw [same, Function.update_self, Function.update_self]
          rfl
        · have apart : Ptr.node other ≠ .node addr := fun equal => same (Ptr.node.inj equal)
          rw [Function.update_of_ne same, Function.update_of_ne apart]
          rfl
    · funext other
      unfold pkgAt
      by_cases same : other = addr
      · rw [same, found]
        dsimp only
        rw [Function.update_self]
        rfl
      · dsimp only
        rw [Function.update_of_ne same]

/-- `malloc` leaves `next` as it was. -/
theorem malloc_spec (free : heap.cells addr = none) (name : Bytes) (len : ℕ) : ∃ after,
    heap.malloc addr ⟨none, name, len⟩ = .ok after ∧ target after = target heap ∧
      after.headPrev = heap.headPrev ∧ pkgAt after = Function.update (pkgAt heap) addr (some ⟨some name, len⟩) := by
  refine ⟨{ heap with cells := Function.update heap.cells addr (some ⟨none, name, len⟩) }, ?_, ?_, rfl, ?_⟩
  · unfold Heap.malloc
    rw [free]
    rfl
  · funext other
    cases other with
    | head => rfl
    | node other =>
      change (Function.update heap.cells addr _ other).bind Cell.next = (heap.cells other).bind Cell.next
      by_cases same : other = addr
      · rw [same, free, Function.update_self]
        rfl
      · rw [Function.update_of_ne same]
  · funext other
    change (Function.update heap.cells addr _ other).map _ = _
    by_cases same : other = addr
    · rw [same, Function.update_self, Function.update_self]
      rfl
    · rw [Function.update_of_ne same, Function.update_of_ne same]
      rfl

theorem free_spec (there : (pkgAt heap addr).isSome) : ∃ after, heap.free addr = .ok after ∧
    target after = Function.update (target heap) (.node addr) none ∧ after.headPrev = heap.headPrev ∧
      pkgAt after = Function.update (pkgAt heap) addr none := by
  unfold pkgAt at there
  rw [Option.isSome_map] at there
  obtain ⟨cell, found⟩ := Option.isSome_iff_exists.mp there
  refine ⟨{ heap with cells := Function.update heap.cells addr none }, ?_, ?_, rfl, ?_⟩
  · unfold Heap.free
    rw [found]
    rfl
  · funext other
    cases other with
    | head => exact (Function.update_of_ne node_ne_head.symm ..).symm
    | node other =>
      change (Function.update heap.cells addr _ other).bind Cell.next = _
      by_cases same : other = addr
      · rw [same, Function.update_self, Function.update_self]
        rfl
      · have apart : Ptr.node other ≠ .node addr := fun equal => same (Ptr.node.inj equal)
        rw [Function.update_of_ne same, Function.update_of_ne apart]
        rfl
  · funext other
    change (Function.update heap.cells addr _ other).map _ = _
    by_cases same : other = addr
    · rw [same, Function.update_self, Function.update_self]
      rfl
    · rw [Function.update_of_ne same, Function.update_of_ne same]
      rfl

theorem Represents.fresh (represents : Represents heap entries) (free : heap.cells addr = none) :
    addr ∉ entries.map Prod.fst := by
  intro member
  obtain ⟨entry, there, rfl⟩ := List.mem_map.mp member
  have found := represents.contents entry there
  unfold pkgAt at found
  rw [free] at found
  cases found

theorem Allocated.same (allocated : Allocated heap ptr) (pkgs : pkgAt after = pkgAt heap) : Allocated after ptr := by
  cases ptr with
  | head => trivial
  | node addr => exact (congrFun pkgs addr ▸ allocated : (pkgAt after addr).isSome)

theorem Allocated.update {value : Option Pkg} (allocated : Allocated heap ptr) (apart : ptr ≠ .node addr)
    (pkgs : pkgAt after = Function.update (pkgAt heap) addr value) : Allocated after ptr := by
  cases ptr with
  | head => trivial
  | node other =>
    have apart' : other ≠ addr := fun same => apart (same ▸ rfl)
    change (pkgAt after other).isSome
    rw [pkgs, Function.update_of_ne apart']
    exact allocated

/-- A new node that is linked at the end is the last one. -/
theorem Represents.added {pkg : Pkg} (represents : Represents heap entries) (fresh : addr ∉ entries.map Prod.fst)
    (linked : Linked (target after) .head (nodes (entries ++ [(addr, pkg)])) .head)
    (pkgs : pkgAt after = Function.update (pkgAt heap) addr (some pkg)) (prev : after.headPrev = some (.node addr)) :
    Represents after (entries ++ [(addr, pkg)]) where
  linked := linked
  distinct := by
    rw [List.map_append]
    refine List.nodup_append.mpr ⟨represents.distinct, List.nodup_singleton _, fun other member last member' same => ?_⟩
    have this : last = addr := List.mem_singleton.mp member'
    exact fresh (this ▸ same ▸ member)
  contents entry member := by
    rw [pkgs]
    rcases List.mem_append.mp member with old | new
    · have apart : entry.1 ≠ addr := fun same => fresh (List.mem_map.mpr ⟨entry, old, same⟩)
      rw [Function.update_of_ne apart]
      exact represents.contents entry old
    · cases List.mem_singleton.mp new
      exact Function.update_self ..
  only other there := by
    rw [pkgs] at there
    rw [List.map_append]
    by_cases same : other = addr
    · exact List.mem_append_right _ (same ▸ List.mem_singleton_self _)
    · rw [Function.update_of_ne same] at there
      exact List.mem_append_left _ (represents.only other there)
  last := by
    rw [prev, nodes_append]
    exact congrArg some (lastFrom_append_cons Ptr.head (nodes entries) (.node addr) []).symm

/-- A new node is put at the end. -/
theorem addTail_spec (represents : Represents heap entries) (free : heap.cells addr = none) (name : Bytes) (len : ℕ) :
    ∃ middle after, heap.malloc addr ⟨none, name, len⟩ = .ok middle ∧ middle.addTail (.node addr) = .ok after ∧
      Represents after (entries ++ [(addr, ⟨some name, len⟩)]) := by
  have fresh := represents.fresh free
  have fresh' : Ptr.node addr ∉ Ptr.head :: nodes entries := fun member =>
    fresh (mem_nodes.mp ((List.mem_cons.mp member).resolve_left node_ne_head))
  obtain ⟨middle, allocated, targets, prev, pkgs⟩ := malloc_spec free name len
  have linked := represents.linked
  rw [← targets] at linked
  obtain ⟨first, set, targets₁, prev₁, pkgs₁⟩ := @setNext_spec middle (.node addr)
    (by change (pkgAt middle addr).isSome; rw [pkgs, Function.update_self]; rfl) (some .head)
  have member := lastFrom_mem Ptr.head (nodes entries)
  have inside : Allocated first (lastFrom .head (nodes entries)) :=
    (represents.allocated member).update (fun same => fresh' (same ▸ member)) (pkgs₁.trans pkgs)
  obtain ⟨second, set', targets₂, prev₂, pkgs₂⟩ := setNext_spec inside (some (.node addr))
  refine ⟨middle, { second with headPrev := some (.node addr) }, allocated, ?_, represents.added fresh ?_ ?_ rfl⟩
  · unfold Heap.addTail
    rw [prev, represents.last]
    dsimp only [deref, bind, Except.bind]
    rw [next_eq linked.last]
    dsimp only
    rw [set]
    dsimp only
    rw [set']
  · have added := linked.add (nodes_nodup represents.distinct) fresh'
    rw [← targets₁, ← targets₂] at added
    rw [nodes_append]
    exact added
  · exact (pkgs₂.trans pkgs₁).trans pkgs

theorem Represents.parts {entry : ℕ × Pkg} (represents : Represents heap (before ++ entry :: rest)) :
    entry.1 ∉ (before ++ rest).map Prod.fst ∧ ((before ++ rest).map Prod.fst).Nodup := by
  have all := represents.distinct
  rw [List.map_append, List.map_cons, List.perm_middle.nodup_iff, List.nodup_cons] at all
  rwa [List.map_append]

/-- The node is not linked any more, and its memory is free. -/
theorem Represents.removed {entry : ℕ × Pkg} (represents : Represents heap (before ++ entry :: rest))
    (linked : Linked (target after) .head (nodes (before ++ rest)) .head)
    (pkgs : pkgAt after = Function.update (pkgAt heap) entry.1 none)
    (prev : after.headPrev = some (lastFrom .head (nodes (before ++ rest)))) : Represents after (before ++ rest) where
  linked := linked
  distinct := represents.parts.2
  contents other member := by
    have apart : other.1 ≠ entry.1 := fun same => represents.parts.1 (same ▸ List.mem_map_of_mem member)
    rw [pkgs, Function.update_of_ne apart]
    refine represents.contents other ?_
    rcases List.mem_append.mp member with early | late
    · exact List.mem_append_left _ early
    · exact List.mem_append_right _ (List.mem_cons_of_mem _ late)
  only other some := by
    rw [pkgs] at some
    have apart : other ≠ entry.1 := by
      rintro rfl
      rw [Function.update_self] at some
      cases some
    rw [Function.update_of_ne apart] at some
    have listed := represents.only other some
    rw [List.map_append, List.map_cons] at listed
    rw [List.map_append]
    rcases List.mem_append.mp listed with early | late
    · exact List.mem_append_left _ early
    · exact List.mem_append_right _ ((List.mem_cons.mp late).resolve_left apart)
  last := prev

/-- What is behind the node has the node before it as its `prev`; only that of the head is looked at. -/
theorem Represents.del_prev {entry : ℕ × Pkg} (represents : Represents heap (before ++ entry :: rest)) :
    ∃ tail : Heap, (if some ((nodes rest).headD .head) = some Ptr.head then
        { heap with headPrev := some (lastFrom .head (nodes before)) } else heap) = tail ∧
      target tail = target heap ∧ pkgAt tail = pkgAt heap ∧
      tail.headPrev = some (lastFrom .head (nodes (before ++ rest))) := by
  cases rest with
  | nil =>
    refine ⟨_, if_pos rfl, ?_, rfl, by rw [List.append_nil]⟩
    funext other
    cases other <;> rfl
  | cons other rest =>
    refine ⟨heap, if_neg (fun same => by cases same), rfl, rfl, ?_⟩
    rw [represents.last, nodes_append, nodes_append]
    exact congrArg some ((lastFrom_append_cons Ptr.head (nodes before) (.node entry.1) (nodes (other :: rest))).trans
      ((lastFrom_cons (.node entry.1) (.node other.1) (nodes rest)).trans
        (lastFrom_append_cons Ptr.head (nodes before) (.node other.1) (nodes rest)).symm))

/-- A node is taken out of the list and freed. -/
theorem del_spec {entry : ℕ × Pkg} (represents : Represents heap (before ++ entry :: rest)) :
    ∃ middle after, heap.del (.node entry.1) (lastFrom .head (nodes before)) = .ok middle ∧
      middle.free entry.1 = .ok after ∧ Represents after (before ++ rest) := by
  have distinct := nodes_nodup represents.distinct
  have linked := represents.linked
  rw [nodes_append] at distinct linked
  change (Ptr.head :: (nodes before ++ Ptr.node entry.1 :: nodes rest)).Nodup at distinct
  change Linked _ _ (nodes before ++ Ptr.node entry.1 :: nodes rest) _ at linked
  obtain ⟨-, behind⟩ := linked_append.mp linked
  have member : lastFrom Ptr.head (nodes before) ∈ Ptr.head :: nodes (before ++ entry :: rest) := by
    rw [nodes_append]
    exact List.mem_append_left (nodes (entry :: rest)) (lastFrom_mem Ptr.head (nodes before))
  have there : Allocated heap (.node entry.1) :=
    represents.allocated (List.mem_cons_of_mem _ (mem_nodes.mpr (List.mem_map.mpr
      ⟨entry, List.mem_append_right _ (List.mem_cons_self ..), rfl⟩)))
  obtain ⟨tail, relinked, targets₁, pkgs₁, prev₁⟩ := represents.del_prev
  obtain ⟨first, set, targets₂, prev₂, pkgs₂⟩ :=
    setNext_spec ((represents.allocated member).same pkgs₁) (some ((nodes rest).headD .head))
  obtain ⟨middle, set', targets₃, prev₃, pkgs₃⟩ :=
    @setNext_spec first (.node entry.1) (there.same (pkgs₂.trans pkgs₁)) none
  obtain ⟨after, freed, targets₄, prev₄, pkgs₄⟩ :=
    @free_spec middle entry.1 (there.same (pkgs₃.trans (pkgs₂.trans pkgs₁)) : Allocated middle (.node entry.1))
  refine ⟨middle, after, ?_, freed, represents.removed ?_ ?_ ?_⟩
  · unfold Heap.del
    rw [next_eq behind.first]
    dsimp only [bind, Except.bind]
    rw [relinked, set]
    exact set'
  · have removed := linked.remove distinct
    rw [behind.first] at removed
    rw [targets₄, targets₃, Function.update_idem, targets₂, targets₁, nodes_append]
    exact removed
  · rw [pkgs₄, pkgs₃, pkgs₂, pkgs₁]
  · rw [prev₄, prev₃, prev₂, prev₁]

/-- The first node, or the head, and what is behind it: where a loop starts. -/
def first (entries : List (ℕ × Pkg)) : Ptr := (nodes entries).headD .head

theorem Represents.next_first (represents : Represents heap (before ++ rest)) :
    ∃ value, target heap (first rest) = some value := by
  cases rest with
  | nil => exact ⟨_, represents.linked.first⟩
  | cons entry rest =>
    have linked := represents.linked
    rw [nodes_append] at linked
    exact ⟨_, (linked_append.mp linked).2.first⟩

theorem Represents.behind {entry : ℕ × Pkg} (represents : Represents heap (before ++ entry :: rest)) :
    target heap (.node entry.1) = some (first rest) := by
  have linked := represents.linked
  rw [nodes_append] at linked
  exact (linked_append.mp linked).2.first

theorem Represents.cell {entry : ℕ × Pkg} (represents : Represents heap entries) (member : entry ∈ entries) :
    ∃ cell, heap.cells entry.1 = some cell ∧ entry.2 = ⟨some cell.name, cell.len⟩ := by
  obtain ⟨cell, found, same⟩ := Option.map_eq_some_iff.mp (represents.contents entry member)
  exact ⟨cell, found, same.symm⟩

theorem forEach_eq {α : Type} (represents : Represents heap entries)
    (loop : Heap → Ptr → Ptr → Option Ptr → Except Failure α) :
    heap.forEach loop = loop heap .head (first entries) (target heap (first entries)) := by
  obtain ⟨value, found⟩ := @Represents.next_first heap [] entries represents
  unfold Heap.forEach
  have start : heap.headNext = some (first entries) := represents.linked.first
  rw [start]
  dsimp only [deref, bind, Except.bind]
  rw [next_eq found, found]

def named (name : Bytes) (entry : ℕ × Pkg) : Bool := entry.2.name = some name

/-- The loop is at the rest of the list, and `p` is at what is before it. -/
theorem deleteName_spec {turns : ℕ} (represents : Represents heap (before ++ rest)) (name : Bytes)
    (enough : rest.length < turns) : ∃ after,
    Heap.deleteName name turns heap (lastFrom .head (nodes before)) (first rest) (target heap (first rest)) =
        .ok (after, rest.any (named name)) ∧
      Represents after (before ++ rest.eraseP (named name)) := by
  induction rest generalizing before turns with
  | nil =>
    obtain ⟨turns, rfl⟩ : ∃ fewer, turns = fewer + 1 := ⟨turns - 1, by omega⟩
    exact ⟨heap, rfl, represents⟩
  | cons entry rest ih =>
    obtain ⟨turns, rfl⟩ : ∃ fewer, turns = fewer + 1 := ⟨turns - 1, by omega⟩
    obtain ⟨cell, found, same⟩ := represents.cell (List.mem_append_right _ (List.mem_cons_self ..))
    have match_iff : named name entry = decide (cell.name = name) := by
      unfold named
      rw [same]
      exact decide_eq_decide.mpr Option.some_inj
    change ∃ after, Heap.deleteName name (turns + 1) heap _ (.node entry.1) (target heap (.node entry.1)) = _ ∧ _
    rw [Heap.deleteName, found, represents.behind]
    dsimp only [deref, bind, Except.bind]
    by_cases hit : cell.name = name
    · obtain ⟨middle, after, deleted, freed, represents'⟩ := del_spec represents
      refine ⟨after, ?_, ?_⟩
      · rw [if_pos hit, deleted]
        dsimp only
        rw [freed, List.any_cons, match_iff, decide_eq_true hit, Bool.true_or]
      · rwa [List.eraseP_cons_of_pos (match_iff.trans (decide_eq_true hit))]
    · have split : before ++ entry :: rest = (before ++ [entry]) ++ rest := by simp
      rw [split] at represents
      obtain ⟨value, next⟩ := represents.next_first
      obtain ⟨after, deleted, represents'⟩ := ih represents (Nat.lt_of_succ_lt_succ enough)
      refine ⟨after, ?_, ?_⟩
      · rw [if_neg hit, next_eq next, List.any_cons, match_iff, decide_eq_false hit, Bool.false_or]
        rw [nodes_append, next] at deleted
        have here : lastFrom Ptr.head (nodes before ++ nodes [entry]) = .node entry.1 :=
          lastFrom_append_cons Ptr.head (nodes before) (.node entry.1) []
        rwa [here] at deleted
      · rw [List.eraseP_cons_of_neg (by rw [match_iff, decide_eq_false hit]; exact Bool.false_ne_true)]
        rwa [List.append_assoc] at represents'

/-- Each node is freed once, and nothing is left. -/
theorem cleanUp_spec {turns : ℕ} (represents : Represents heap entries) (enough : entries.length < turns) : ∃ after,
    Heap.cleanUp turns heap .head (first entries) (target heap (first entries)) = .ok (after, entries.map Prod.fst) ∧
      Represents after [] := by
  induction entries generalizing heap turns with
  | nil =>
    obtain ⟨turns, rfl⟩ : ∃ fewer, turns = fewer + 1 := ⟨turns - 1, by omega⟩
    exact ⟨heap, rfl, represents⟩
  | cons entry rest ih =>
    obtain ⟨turns, rfl⟩ : ∃ fewer, turns = fewer + 1 := ⟨turns - 1, by omega⟩
    obtain ⟨middle, after, deleted, freed, represents'⟩ := @del_spec heap [] rest entry represents
    obtain ⟨value, next⟩ := @Represents.next_first after [] rest represents'
    obtain ⟨last, cleaned, empty⟩ := ih represents' (Nat.lt_of_succ_lt_succ enough)
    refine ⟨last, ?_, empty⟩
    change Heap.cleanUp (turns + 1) heap _ (.node entry.1) (target heap (.node entry.1)) = _
    have behind : target heap (.node entry.1) = some (first rest) := @Represents.behind heap [] rest entry represents
    rw [Heap.cleanUp, behind]
    change (heap.del _ _).bind _ = _
    have start : lastFrom Ptr.head (nodes []) = .head := rfl
    rw [start] at deleted
    rw [deleted]
    dsimp only [deref, bind, Except.bind]
    rw [freed]
    dsimp only
    rw [next_eq next, ← next]
    dsimp only
    rw [cleaned]
    rfl

/-- The variables, with the packages as a list. -/
def vars (jobs : Jobs) (pkgs : List Pkg) : Vars :=
  { running := jobs.running, totalPkg := jobs.totalPkg, finishedPkg := jobs.finishedPkg, percent := jobs.percent,
    livePkg := jobs.livePkg, pkgs, ccnt := jobs.ccnt }

variable {jobs : Jobs} {turns num : ℕ} {buf : Buf}

/-- The package of each node has a name, so that no comparison fails. -/
theorem findPkg_eq (named' : ∀ entry ∈ entries, entry.2.name.isSome) :
    findPkg name (entries.map Prod.snd) = .ok (entries.any (named name)) := by
  induction entries with
  | nil => rfl
  | cons entry rest ih =>
    obtain ⟨other, found⟩ := Option.isSome_iff_exists.mp (named' entry (List.mem_cons_self ..))
    have here : named name entry = decide (other = name) := by
      unfold named
      rw [found]
      exact decide_eq_decide.mpr Option.some_inj
    rw [List.map_cons, findPkg, found, List.any_cons, here]
    dsimp only
    by_cases same : other = name
    · rw [if_pos same, decide_eq_true same, Bool.true_or]
    · rw [if_neg same, decide_eq_false same, Bool.false_or]
      exact ih fun entry member => named' entry (List.mem_cons_of_mem _ member)

theorem Represents.names (represents : Represents heap entries) : ∀ entry ∈ entries, entry.2.name.isSome := by
  intro entry member
  obtain ⟨cell, -, same⟩ := represents.cell member
  rw [same]
  rfl

theorem beginJob_refines (represents : Represents jobs.heap entries) :
    beginJob buf num addr jobs = .error .busy ∨
    (∃ fault, beginJob buf num addr jobs = .error (.fault fault) ∧
      beginPkg buf num {} (vars jobs (entries.map Prod.snd)) = .error fault) ∨
    ∃ after entries', beginJob buf num addr jobs = .ok after ∧ Represents after.heap entries' ∧
      beginPkg buf num {} (vars jobs (entries.map Prod.snd)) = .ok (vars after (entries'.map Prod.snd)) := by
  unfold beginJob beginPkg
  cases copyName buf 6 num with
  | error fault => exact Or.inr (Or.inl ⟨fault, rfl, rfl⟩)
  | ok tmp =>
    dsimp only [Except.mapError, bind, Except.bind]
    by_cases free : jobs.heap.cells addr = none
    · obtain ⟨middle, after, allocated, added, represents'⟩ := addTail_spec represents free (cname tmp) tmp.length
      refine Or.inr (Or.inr ⟨{ jobs with heap := after, livePkg := jobs.livePkg + 1 }, _, ?_, represents', ?_⟩)
      · rw [allocated]
        dsimp only
        rw [added]
      · rw [List.map_append]
        rfl
    · unfold Heap.malloc
      rw [if_pos (Option.isSome_iff_ne_none.mpr free)]
      exact Or.inl rfl

theorem endJob_refines (represents : Represents jobs.heap entries) (enough : entries.length < turns) :
    (∃ fault, endJob turns buf num jobs = .error (.fault fault) ∧
      endPkg buf num (vars jobs (entries.map Prod.snd)) = .error fault) ∨
    ∃ after entries' line, endJob turns buf num jobs = .ok after ∧ Represents after.heap entries' ∧
      endPkg buf num (vars jobs (entries.map Prod.snd)) = .ok (vars after (entries'.map Prod.snd), line) := by
  unfold endJob
  cases copied : copyName buf 4 num with
  | error fault =>
    refine Or.inl ⟨fault, rfl, ?_⟩
    unfold endPkg
    rw [copied]
    rfl
  | ok tmp =>
    obtain ⟨after, deleted, represents'⟩ := @deleteName_spec jobs.heap [] entries turns represents (cname tmp) enough
    have finished : (if jobs.finishedPkg < jobs.totalPkg then jobs.finishedPkg + 1 else jobs.finishedPkg) =
        nextFinished (vars jobs (entries.map Prod.snd)) := rfl
    have total : (vars jobs (entries.map Prod.snd)).totalPkg = jobs.totalPkg := rfl
    change Heap.deleteName _ _ _ .head _ _ = _ at deleted
    rw [endPkg_eq _ copied, show (vars jobs (entries.map Prod.snd)).pkgs = entries.map Prod.snd from rfl,
      findPkg_eq represents.names]
    dsimp only [Except.mapError, bind, Except.bind]
    rw [forEach_eq represents, deleted, finished, total]
    dsimp only
    cases percentOf (nextFinished (vars jobs (entries.map Prod.snd))) jobs.totalPkg with
    | error fault => exact Or.inl ⟨fault, rfl, rfl⟩
    | ok percent =>
      dsimp only
      cases barLine percent (nextFinished (vars jobs (entries.map Prod.snd))) jobs.totalPkg tmp with
      | error fault => exact Or.inl ⟨fault, rfl, rfl⟩
      | ok line =>
        refine Or.inr ⟨_, _, line, rfl, represents', ?_⟩
        rw [List.nil_append, List.eraseP_map]
        rfl

/-- A message does the same to both lists, unless `malloc` gives out what is in use. -/
theorem processJob_refines (represents : Represents jobs.heap entries) (enough : entries.length < turns) :
    processJob turns buf num addr jobs = .error .busy ∨
    (∃ fault, processJob turns buf num addr jobs = .error (.fault fault) ∧
      processMessage buf num {} (vars jobs (entries.map Prod.snd)) = .error fault) ∨
    ∃ after entries' buf', processJob turns buf num addr jobs = .ok after ∧ Represents after.heap entries' ∧
      processMessage buf num {} (vars jobs (entries.map Prod.snd)) = .ok (vars after (entries'.map Prod.snd), buf') := by
  unfold processJob processMessage
  cases kind buf with
  | stop | total | other => exact Or.inr (Or.inr ⟨_, entries, _, rfl, represents, rfl⟩)
  | begins =>
    obtain busy | ⟨fault, failed, failed'⟩ | ⟨after, entries', begun, represents', begun'⟩ :=
      @beginJob_refines addr entries jobs num buf represents
    · exact Or.inl busy
    · refine Or.inr (Or.inl ⟨fault, failed, ?_⟩)
      dsimp only
      rw [failed']
      rfl
    · refine Or.inr (Or.inr ⟨after, entries', buf, begun, represents', ?_⟩)
      dsimp only
      rw [begun']
      rfl
  | ends =>
    refine Or.inr ?_
    have total : (vars jobs (entries.map Prod.snd)).totalPkg = jobs.totalPkg := rfl
    dsimp only
    rw [total]
    by_cases counted : jobs.totalPkg ≠ 0
    · rw [if_pos counted, if_pos counted]
      obtain ⟨fault, failed, failed'⟩ | ⟨after, entries', line, ended, represents', ended'⟩ :=
        endJob_refines represents enough
      · refine Or.inl ⟨fault, failed, ?_⟩
        rw [failed']
        rfl
      · refine Or.inr ⟨after, entries', buf.print line, ended, represents', ?_⟩
        rw [ended']
        rfl
    · rw [if_neg counted, if_neg counted]
      exact Or.inr ⟨jobs, entries, buf, rfl, represents, rfl⟩

end CBuild.Soundness.JobList
