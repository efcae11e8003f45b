import CBuild.Model.Progress.Datagram

/-! # The list of the running jobs in memory

The `pkg_list` of `progress.c`: nodes that are linked from the head and back to it, with the last node in the head. The
cursors `p`, `pos` and `n` of the loops are arguments, and an access through `NULL` or to a freed node is a failure.
-/

namespace CBuild.Model.Progress

/-- Where a pointer points. -/
inductive Ptr where
  | head
  | node (addr : ℕ)
  deriving DecidableEq

/-- `struct pkg_node`. -/
structure Cell where
  next : Option Ptr
  name : Bytes
  len : ℕ

/-- `pkghead`, and the nodes that are allocated. -/
structure Heap where
  headNext : Option Ptr
  headPrev : Option Ptr
  cells : ℕ → Option Cell

inductive Failure where
  | fault (fault : Fault)
  /-- `NULL` or a node that is not allocated is used -/
  | pointer
  /-- more turns of a loop than are given -/
  | fuel
  /-- `malloc` gives out what is in use, which it does not do -/
  | busy
  deriving DecidableEq

def deref {α : Type} : Option α → Except Failure α
  | some value => .ok value
  | none => .error .pointer

namespace Heap

/-- `INIT_PKG_LIST_HEAD`. -/
def init : Heap := ⟨some .head, some .head, fun _ => none⟩

def next (heap : Heap) : Ptr → Except Failure (Option Ptr)
  | .head => .ok heap.headNext
  | .node addr => (deref (heap.cells addr)).map Cell.next

def setNext (heap : Heap) (ptr : Ptr) (value : Option Ptr) : Except Failure Heap :=
  match ptr with
  | .head => .ok { heap with headNext := value }
  | .node addr =>
    (deref (heap.cells addr)).map fun cell =>
      { heap with cells := Function.update heap.cells addr (some { cell with next := value }) }

def malloc (heap : Heap) (addr : ℕ) (cell : Cell) : Except Failure Heap :=
  if (heap.cells addr).isSome then .error .busy
  else .ok { heap with cells := Function.update heap.cells addr (some cell) }

def free (heap : Heap) (addr : ℕ) : Except Failure Heap :=
  (deref (heap.cells addr)).map fun _ => { heap with cells := Function.update heap.cells addr none }

def addTail (heap : Heap) (list : Ptr) : Except Failure Heap := do
  let prev ← deref heap.headPrev
  let next ← heap.next prev
  let heap ← heap.setNext list next
  let heap ← heap.setNext prev (some list)
  .ok { heap with headPrev := some list }

def del (heap : Heap) (list prev : Ptr) : Except Failure Heap := do
  let next ← heap.next list
  let heap := if next = some .head then { heap with headPrev := some prev } else heap
  let heap ← heap.setNext prev next
  heap.setNext list none

/-- The loop of `end=`: the first node of the name is deleted. -/
def deleteName (name : Bytes) : ℕ → Heap → Ptr → Ptr → Option Ptr → Except Failure (Heap × Bool)
  | 0, _, _, _, _ => .error .fuel
  | turns + 1, heap, p, pos, n =>
    match pos with
    | .head => .ok (heap, false)
    | .node addr => do
      let cell ← deref (heap.cells addr)
      if cell.name = name then
        let heap ← heap.del pos p
        let heap ← heap.free addr
        .ok (heap, true)
      else
        let next ← deref n
        deleteName name turns heap pos next (← heap.next next)

/-- The loop at the end, with the nodes that are freed. -/
def cleanUp : ℕ → Heap → Ptr → Ptr → Option Ptr → Except Failure (Heap × List ℕ)
  | 0, _, _, _, _ => .error .fuel
  | turns + 1, heap, p, pos, n =>
    match pos with
    | .head => .ok (heap, [])
    | .node addr => do
      let heap ← heap.del pos p
      let heap ← heap.free addr
      let next ← deref n
      let (heap, freed) ← cleanUp turns heap p next (← heap.next next)
      .ok (heap, addr :: freed)

/-- `pkg_list_for_each_entry_safe`: `p` is the head, `pos` is behind it, and `n` is behind `pos`. -/
def forEach {α : Type} (heap : Heap) (loop : Heap → Ptr → Ptr → Option Ptr → Except Failure α) : Except Failure α := do
  let pos ← deref heap.headNext
  loop heap .head pos (← heap.next pos)

end Heap

/-- The variables of `Vars`, with the list in memory. -/
structure Jobs where
  running : Bool := true
  totalPkg : ℤ := 0
  finishedPkg : ℤ := 0
  percent : ℤ := 0
  livePkg : ℤ := 0
  ccnt : ℕ := 0
  heap : Heap := .init

/-- What `begin=` does, where `malloc` returns the address. -/
def beginJob (buf : Buf) (num addr : ℕ) (jobs : Jobs) : Except Failure Jobs := do
  let tmp ← (copyName buf 6 num).mapError .fault
  let heap ← jobs.heap.malloc addr ⟨none, cname tmp, tmp.length⟩
  let heap ← heap.addTail (.node addr)
  .ok { jobs with heap, livePkg := jobs.livePkg + 1 }

/-- What `end=` does, where the loop has so many turns. -/
def endJob (turns : ℕ) (buf : Buf) (num : ℕ) (jobs : Jobs) : Except Failure Jobs := do
  let finishedPkg := if jobs.finishedPkg < jobs.totalPkg then jobs.finishedPkg + 1 else jobs.finishedPkg
  let tmp ← (copyName buf 4 num).mapError .fault
  let (heap, found) ← jobs.heap.forEach (Heap.deleteName (cname tmp) turns)
  let livePkg := if found then jobs.livePkg - 1 else jobs.livePkg
  let percent ← (percentOf finishedPkg jobs.totalPkg).mapError .fault
  let _ ← (barLine percent finishedPkg jobs.totalPkg tmp).mapError .fault
  .ok { jobs with finishedPkg, livePkg, percent, heap, ccnt := 1 }

def processJob (turns : ℕ) (buf : Buf) (num addr : ℕ) (jobs : Jobs) : Except Failure Jobs :=
  match kind buf with
  | .stop => .ok { jobs with running := false }
  | .total => .ok { jobs with totalPkg := atoi ((buf.set num 0).cstr (bufSize - 6) 6) }
  | .begins => beginJob buf num addr jobs
  | .ends => if jobs.totalPkg ≠ 0 then endJob turns buf num jobs else .ok jobs
  | .other => .ok jobs

/-- `ipv4_recvfrom`, and what follows. -/
def processJobDatagram (turns : ℕ) (buf : Buf) (datagram : Bytes) (addr : ℕ) (jobs : Jobs) : Except Failure Jobs :=
  let received := datagram.take bufSize
  if received = [] then .ok { jobs with running := false }
  else processJob turns (buf.write received) received.length addr jobs

/-- The clean-up at `exit3`. -/
def exitJobs (turns : ℕ) (jobs : Jobs) : Except Failure (Heap × List ℕ) := jobs.heap.forEach (Heap.cleanUp turns)

end CBuild.Model.Progress
