import CBuild.Model.Progress.Datagram

/-! # The loop of `process_handler`

A step of the handler is one system call with what is done until the next one; everything that the
system decides is in its answer. The log files are the ones that are closed and the one that is open.
-/

namespace CBuild.Model.Progress

def maxLogSize : ℕ := 128 * 1024

/-- What is the same all the time: the arguments, the port of the socket and the time of the start. -/
structure Setting where
  logpath : Bytes
  logout : Bool
  port : UInt16
  stamp : Bytes
  nsec : Bytes

def Setting.dir (setting : Setting) : Bytes :=
  setting.logpath ++ (if setting.logpath.getLast? = some 47 then [] else [47]) ++
    setting.stamp ++ [46] ++ setting.nsec ++ [47]

def Setting.portFile (setting : Setting) : Bytes := setting.logpath ++ ascii "/port"

/-- The settings of the examples. -/
def logSetting : Setting := ⟨ascii "/tmp/log", false, 40000, ascii "2024-01-01--00-00-00", ascii "000000001"⟩

/-- `%s%04d-%s.log`. -/
def Setting.logFile (setting : Setting) (logcnt : ℕ) (stamp : Bytes) : Bytes :=
  let count := printed logcnt
  setting.dir ++ List.replicate (4 - count.length) 48 ++ count ++ [45] ++ stamp ++ ascii ".log"

/-- The call that the handler makes next. -/
inductive Pc
  /-- the head of the loop, with the next log file -/
  | top
  | select
  /-- the port file, with the line of the running jobs -/
  | checkPort
  | readOut
  | readErr
  | readSock
  | returned
  | crashed (fault : Fault)
deriving DecidableEq

/-- The local variables of `process_handler`. The files that are closed are `rotated`, in the order of
their counters, and `log` is open. -/
structure Handler where
  pc : Pc := .top
  ret : ℤ := 0
  vars : Vars := {}
  buf : Buf
  totalSize : ℕ := 0
  rotated : List Bytes := []
  log : Bytes := []
  readyOut : Bool := false
  readyErr : Bool := false
  readySock : Bool := false

/-- What `select` returns: -1, 0, or which descriptors are ready. -/
inductive Selected
  | failed
  | timeout
  | ready (out err sock : Bool)
deriving DecidableEq

/-- What is found of the port file: it cannot be opened, it cannot be read, or this is in it. -/
inductive PortFile
  | missing
  | unreadable
  | holds (content : Bytes)
deriving DecidableEq

inductive Read
  | failed
  | received (bytes : Bytes)
deriving DecidableEq

/-- What the system answers; each step looks at the part that is for its call. -/
structure Answer where
  /-- whether the next log file is opened, and the time then -/
  opened : Bool := true
  stamp : Bytes := []
  selected : Selected := .timeout
  portFile : PortFile := .missing
  read : Read := .failed
  alloc : Alloc := {}
deriving DecidableEq

namespace Handler

variable (setting : Setting) (answer : Answer) (h : Handler)

def stop : Handler := { h with vars := { h.vars with running := false } }

def resetCcnt : Handler := { h with vars := { h.vars with ccnt := 0 } }

/-- `while (running)`, and the next log file. -/
def top : Handler :=
  if ¬ h.vars.running then { h with pc := .returned }
  else if maxLogSize < h.totalSize then
    let buf := h.buf.print (setting.logFile (h.rotated.length + 1) answer.stamp)
    let rotated := h.rotated ++ [h.log]
    if answer.opened then { h with pc := .select, totalSize := 0, buf, rotated, log := [] }
    else { h with pc := .returned, ret := -1, totalSize := 0, buf, rotated, log := [] }
  else { h with pc := .select }

/-- A result that is not positive leads to the port file. -/
def select : Handler :=
  match answer.selected with
  | .failed | .timeout => { h with pc := .checkPort }
  | .ready out err sock => { h with pc := .readOut, readyOut := out, readyErr := err, readySock := sock }

/-- The names of the running jobs, until the line has 116 bytes. -/
def jobNames (num : ℕ) : List Pkg → Except Fault Bytes
  | [] => .ok []
  | pkg :: rest =>
    if 116 ≤ num + pkg.len then .ok []
    else match pkg.name with
      | none => if pkg.len = 0 then (jobNames (num + 1) rest).map (32 :: ·) else .error .null
      | some name =>
        if name.length + 1 < pkg.len then .error .overread
        else (jobNames (num + 1 + pkg.len) rest).map (32 :: (name ++ [0]).take pkg.len ++ ·)

def jobsLine (v : Vars) : Except Fault Bytes :=
  let line := ascii "\x1b[32m[" ++ decimal 2 v.percent ++ ascii "%][" ++ decimal 0 v.finishedPkg ++ ascii "/" ++
    decimal 0 v.totalPkg ++ ascii "] \x1b[0mjobs(" ++ decimal 0 v.livePkg ++ ascii "):"
  (jobNames line.length v.pkgs).map fun names => line ++ names ++ ascii "...\r"

def showJobs : Handler :=
  if h.vars.livePkg = 0 then { h with pc := .top }
  else if 3 ≤ h.vars.ccnt then { h.resetCcnt with pc := .top }
  else
    let vars := { h.vars with ccnt := h.vars.ccnt + 1 }
    if vars.ccnt ≠ 1 then { h with vars, pc := .top }
    else match jobsLine vars with
      | .ok line => { h with vars, buf := h.buf.write line, pc := .top }
      | .error fault => { h with vars, pc := .crashed fault }

def comparePort : Handler :=
  if (setting.port.toNat : ℤ) ≠ atoi (h.buf.cstr bufSize 0) then { h with pc := .returned } else h.showJobs

/-- The port file is read into the buffer, where its path is. If nothing is read, the byte before the
buffer is set to zero and the path is taken for the number. -/
def checkPort : Handler :=
  let buf := h.buf.print setting.portFile
  match answer.portFile with
  | .missing => { h with buf, pc := .returned, ret := -1 }
  | .unreadable => comparePort setting { h with buf }
  | .holds content =>
    let received := content.take bufSize
    comparePort setting { h with buf := (buf.write received).set received.length 0 }

/-- What both pipes have in common; a line of the progress bar is cleared when `shown`. -/
def readPipe (ready shown : Bool) (next : Pc) : Handler :=
  if ¬ ready then { h with pc := next }
  else match answer.read with
    | .failed => { h.stop with ret := -1, pc := next }
    | .received bytes =>
      let bytes := bytes.take bufSize
      if bytes = [] then { h.stop with pc := next }
      else
        let h := if shown then h.resetCcnt else h
        { h with buf := h.buf.write bytes, totalSize := h.totalSize + bytes.length, log := h.log ++ bytes, pc := next }

def readOut : Handler := h.readPipe answer h.readyOut setting.logout .readErr

def readErr : Handler := h.readPipe answer h.readyErr true .readSock

def readSock : Handler :=
  if ¬ h.readySock then { h with pc := .top }
  else match answer.read with
    | .failed => { h.stop with ret := -1, pc := .top }
    | .received datagram =>
      match processDatagram h.buf datagram answer.alloc h.vars with
      | .ok (vars, buf) => { h with vars, buf, pc := .top }
      | .error fault => { h with pc := .crashed fault }

/-- The next call and what follows. -/
def step (answer : Answer) : Handler :=
  match h.pc with
  | .top => h.top setting answer
  | .select => h.select answer
  | .checkPort => h.checkPort setting answer
  | .readOut => h.readOut setting answer
  | .readErr => h.readErr answer
  | .readSock => h.readSock answer
  | .returned | .crashed _ => h

def logged : Bytes := h.rotated.flatten ++ h.log

end Handler

end CBuild.Model.Progress
