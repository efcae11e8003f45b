import CBuild.Machine.Run
import CBuild.Model.Progress.Handler

/-! # The wrapper around a command

`process_handler` sets the log up, runs its loop and returns; `main` makes the pipes and the child before,
and waits for the child after it.
-/

namespace CBuild.Model.Progress

open CBuild.Machine

/-- `create_dir`: every directory on the way that is not there is made, the first that cannot be made is a
failure. -/
def createDir (present mkdir : Bytes → Bool) (dir : Bytes) : Bool :=
  (((List.range dir.length).filter fun i => 1 ≤ i ∧ dir[i]? = some 47).all fun i =>
    present (dir.take i) || mkdir (dir.take i)) &&
  (dir.getLast? = some 47 || present dir || mkdir dir)

/-- What succeeds before the loop. -/
structure SetUp where
  malloc : Bool := true
  socket : Bool := true
  openPort : Bool := true
  strdup : Bool := true
  present : Bytes → Bool := fun _ => true
  mkdir : Bytes → Bool := fun _ => true
  openLog : Bool := true

def SetUp.createDir (setUp : SetUp) (setting : Setting) : Bool :=
  Progress.createDir setUp.present setUp.mkdir setting.dir

/-- The exits before the loop with what they return, or the handler at its loop. -/
def Handler.setUp (setting : Setting) (buf : Buf) (setUp : SetUp) : Except ℤ Handler :=
  if ¬ setUp.malloc then .error (-1)
  else if ¬ setUp.socket then .error (-1)
  else
    let buf := buf.print setting.portFile
    if ¬ setUp.openPort then .error (-1)
    else
      let buf := buf.print setting.dir
      if ¬ setUp.strdup then .error 0
      else if ¬ setUp.createDir setting then .error 0
      else
        let buf := buf.print (ascii "\x1b[34mlog path is " ++ setting.dir ++ ascii "\x1b[0m\n")
        let buf := buf.print (setting.logFile 0 setting.stamp)
        if ¬ setUp.openLog then .error (-1) else .ok { buf }

/-- How the child ends. -/
inductive Child
  | exited (code : UInt8)
  | killed (signal : Fin 128) (core : Bool)
deriving DecidableEq

def Child.status : Child → ℕ
  | .exited code => code.toNat * 256
  | .killed signal core => signal + if core then 128 else 0

def wexitstatus (status : ℕ) : ℕ := (status &&& 0xff00) >>> 8

def exitSuccess : ℕ := 0
def exitFailure : ℕ := 1

/-- How the wrapper ends: it exits, or is killed where what it does is undefined. -/
inductive Exit
  | exits (code : ℕ)
  | dies (fault : Fault)
deriving DecidableEq

/-- Everything that is decided by the system in a run of the wrapper. -/
structure Outcomes where
  /-- both pipes and the child -/
  pipeOut : Bool := true
  pipeErr : Bool := true
  fork : Bool := true
  setUp : SetUp := {}
  garbage : Buf
  answers : List Answer
  child : Child

def exitCode (ret : ℤ) (status : ℕ) : ℕ :=
  if ret = 0 then (if wexitstatus status ≠ 0 then exitFailure else exitSuccess) else exitFailure

/-- What comes after the loop; there is no end as long as the handler is in it. -/
def afterLoop (last : Handler) (child : Child) : Option Exit :=
  match last.pc with
  | .returned => some (.exits (exitCode last.ret child.status))
  | .crashed fault => some (.dies fault)
  | _ => none

/-- `main` with a path for the log. -/
def wrapper (setting : Setting) (outcomes : Outcomes) : Option Exit :=
  if ¬ outcomes.pipeOut then some (.exits exitFailure)
  else if ¬ outcomes.pipeErr then some (.exits exitFailure)
  else if ¬ outcomes.fork then some (.exits exitFailure)
  else match Handler.setUp setting outcomes.garbage outcomes.setUp with
    | .error ret => some (.exits (exitCode ret outcomes.child.status))
    | .ok h => afterLoop (run (Handler.step setting) h outcomes.answers) outcomes.child

end CBuild.Model.Progress
