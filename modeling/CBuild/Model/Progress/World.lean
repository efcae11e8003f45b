import CBuild.Machine.Run
import CBuild.Model.Progress.Handler

/-! # The handler with its pipes and its socket

The child and its descendants write to two pipes and close them, and datagrams arrive, between any two
calls of the handler. Opens, reads and writes succeed, and the port file stays as it was written.
-/

namespace CBuild.Model.Progress

/-- What was read of a pipe, and what is still in it. It is closed when its last writer has closed it. -/
structure Pipe where
  taken : Bytes := []
  queue : Bytes := []
  closed : Bool := false

namespace Pipe

def written (pipe : Pipe) : Bytes := pipe.taken ++ pipe.queue

/-- `select` finds it: there is something to read, or its end. -/
def ready (pipe : Pipe) : Bool := pipe.queue ≠ [] || pipe.closed

/-- A read takes what is there, as much as fits in the buffer. -/
def read (pipe : Pipe) : Pipe :=
  { pipe with taken := pipe.taken ++ pipe.queue.take bufSize, queue := pipe.queue.drop bufSize }

def write (pipe : Pipe) (bytes : Bytes) : Pipe :=
  if pipe.closed then pipe else { pipe with queue := pipe.queue ++ bytes }

def close (pipe : Pipe) : Pipe := { pipe with closed := true }

end Pipe

/-- A datagram that is not empty and does not start with `stop`. -/
structure Datagram where
  bytes : Bytes
  some : bytes ≠ []
  noStop : ¬ ascii "stop" <+: bytes

structure World where
  handler : Handler
  out : Pipe := {}
  err : Pipe := {}
  sock : List Datagram := []

/-- A writer of a pipe or a sender does something, or the handler makes its next call. For that call the
system says what time it is, whether `select` is interrupted and whether there is memory. -/
inductive Event
  | writeOut (bytes : Bytes)
  | writeErr (bytes : Bytes)
  | closeOut
  | closeErr
  | send (datagram : Datagram)
  | call (stamp : Bytes) (interrupted : Bool) (alloc : Alloc)

namespace World

/-- Somebody reads the pipes. -/
def Open (world : World) : Bool :=
  match world.handler.pc with
  | .returned | .crashed _ => false
  | _ => true

def selected (world : World) (interrupted : Bool) : Selected :=
  if interrupted then .failed
  else if world.out.ready || world.err.ready || world.sock ≠ [] then
    .ready world.out.ready world.err.ready (world.sock ≠ [])
  else .timeout

/-- What the system answers to a call; the port file has the number and nothing else. -/
def answer (setting : Setting) (stamp : Bytes) (interrupted : Bool) (alloc : Alloc) (world : World)
    (read : Read) : Answer :=
  { stamp, alloc, read, selected := world.selected interrupted, portFile := .holds (printed setting.port.toNat) }

/-- The handler makes its next call. A read waits as long as there is nothing. -/
def call (setting : Setting) (stamp : Bytes) (interrupted : Bool) (alloc : Alloc) (world : World) : World :=
  let h := world.handler
  let answer := world.answer setting stamp interrupted alloc
  match h.pc with
  | .readOut =>
    if ¬ h.readyOut then { world with handler := h.step setting (answer .failed) }
    else if world.out.ready then
      { world with
        handler := h.step setting (answer (.received (world.out.queue.take bufSize)))
        out := world.out.read }
    else world
  | .readErr =>
    if ¬ h.readyErr then { world with handler := h.step setting (answer .failed) }
    else if world.err.ready then
      { world with
        handler := h.step setting (answer (.received (world.err.queue.take bufSize)))
        err := world.err.read }
    else world
  | .readSock =>
    if ¬ h.readySock then { world with handler := h.step setting (answer .failed) }
    else match world.sock with
      | [] => world
      | datagram :: sock =>
        { world with handler := h.step setting (answer (.received datagram.bytes)), sock }
  | _ => { world with handler := h.step setting (answer .failed) }

def step (setting : Setting) (world : World) : Event → World
  | .writeOut bytes => if world.Open then { world with out := world.out.write bytes } else world
  | .writeErr bytes => if world.Open then { world with err := world.err.write bytes } else world
  | .closeOut => { world with out := world.out.close }
  | .closeErr => { world with err := world.err.close }
  | .send datagram => { world with sock := world.sock ++ [datagram] }
  | .call stamp interrupted alloc => world.call setting stamp interrupted alloc

end World

end CBuild.Model.Progress
