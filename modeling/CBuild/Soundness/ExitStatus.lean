import CBuild.Model.Progress.Wrapper

/-! # The exit status of the wrapper

The handler returns -1 for the failures that it reports. It returns 0 after others, and a child that was
killed has a status whose exit code is 0.
-/

namespace CBuild.Soundness.ExitStatus

open CBuild.Machine CBuild.Model.Progress

variable {setting : Setting}

/-- The call of this step fails and the handler says so: a log file or the port file cannot be opened, or a
pipe or the socket cannot be read. Where a step is undefined, the handler ends at once. -/
def Reported (setting : Setting) (h : Handler) (answer : Answer) : Prop :=
  match h.pc with
  | .top => h.vars.running = true ∧ maxLogSize < h.totalSize ∧ answer.opened = false
  | .select => False
  | .checkPort => answer.portFile = .missing ∨ ∃ fault, (h.step setting answer).pc = .crashed fault
  | .readOut => h.readyOut = true ∧ answer.read = .failed
  | .readErr => h.readyErr = true ∧ answer.read = .failed
  | .readSock => h.readySock = true ∧
      (answer.read = .failed ∨ ∃ fault, (h.step setting answer).pc = .crashed fault)
  | .returned | .crashed _ => False

/-- The call of this step fails and the handler goes on: `select` fails, the port file cannot be read, or
there is no memory for the name of a package. -/
def Unreported (h : Handler) (answer : Answer) : Prop :=
  match h.pc with
  | .select => answer.selected = .failed
  | .checkPort => answer.portFile = .unreadable
  | .readSock => h.readySock = true ∧ answer.alloc.node = true ∧ answer.alloc.name = false ∧
      ∃ datagram, answer.read = .received datagram ∧ datagram.take bufSize ≠ [] ∧
        kind (h.buf.write (datagram.take bufSize)) = .begins
  | _ => False

/-- The handler has reported nothing. -/
def Fine (h : Handler) : Prop := h.ret = 0 ∧ ∀ fault, h.pc ≠ .crashed fault

theorem readPipe_ret {h : Handler} {answer : Answer} {ready shown : Bool} {next : Pc} (uncrashed : ∀ fault, next ≠ .crashed fault)
    (fine : Fine h) :
    ¬ (ready = true ∧ answer.read = .failed) ↔ Fine (h.readPipe answer ready shown next) := by
  unfold Handler.readPipe
  cases ready with
  | false => exact iff_of_true nofun ⟨fine.1, uncrashed⟩
  | true =>
    rw [if_neg (by decide)]
    cases read : answer.read with
    | failed => exact iff_of_false (fun not => not ⟨rfl, rfl⟩) fun fine => absurd fine.1 (by simp)
    | received bytes =>
      refine iff_of_true nofun ?_
      dsimp only
      split
      · exact ⟨fine.1, uncrashed⟩
      · cases shown <;> exact ⟨fine.1, uncrashed⟩

theorem readPipe_ret_cases {h : Handler} {answer : Answer} {ready shown : Bool} {next : Pc} :
    (h.readPipe answer ready shown next).ret = h.ret ∨ (h.readPipe answer ready shown next).ret = -1 := by
  unfold Handler.readPipe
  dsimp only
  split
  · exact Or.inl rfl
  split
  · exact Or.inr rfl
  split
  · exact Or.inl rfl
  · cases shown <;> exact Or.inl rfl

theorem showJobs_ret (h : Handler) : h.showJobs.ret = h.ret := by
  unfold Handler.showJobs
  split
  · rfl
  split
  · rfl
  dsimp only
  split
  · rfl
  split <;> rfl

theorem comparePort_ret (h : Handler) : (h.comparePort setting).ret = h.ret := by
  unfold Handler.comparePort
  split
  · rfl
  · exact showJobs_ret h

/-- Where the port file is there, the handler returns what it would have returned. -/
theorem checkPort_ret {h : Handler} {answer : Answer} (there : answer.portFile ≠ .missing) :
    (h.checkPort setting answer).ret = h.ret := by
  unfold Handler.checkPort
  dsimp only
  split
  · contradiction
  · exact comparePort_ret _
  · exact comparePort_ret _

theorem readSock_ret {h : Handler} {answer : Answer} (read : h.readySock = true → answer.read ≠ .failed) :
    (h.readSock answer).ret = h.ret := by
  unfold Handler.readSock
  cases ready : h.readySock
  · rfl
  rw [if_neg (by decide)]
  split
  · next failed => exact absurd failed (read ready)
  split <;> rfl

/-- A step reports exactly when it makes the handler return -1 or die. -/
theorem step_fine_iff {h : Handler} (answer : Answer) (fine : Fine h) :
    ¬ Reported setting h answer ↔ Fine (h.step setting answer) := by
  cases pc : h.pc with
  | top =>
    simp only [Reported, Handler.step, pc, Handler.top]
    cases running : h.vars.running
    · exact iff_of_true nofun ⟨fine.1, nofun⟩
    by_cases large : maxLogSize < h.totalSize
    · cases opened : answer.opened
      · simp [large, Fine]
      · simp [large, Fine, fine.1]
    · simp [large, Fine, fine.1]
  | select =>
    simp only [Reported, Handler.step, pc, Handler.select, not_false_eq_true, true_iff]
    split <;> exact ⟨fine.1, nofun⟩
  | checkPort =>
    simp only [Reported, Handler.step, pc]
    by_cases missing : answer.portFile = .missing
    · refine iff_of_false (fun not => not (Or.inl missing)) fun fine => ?_
      rw [Handler.checkPort, missing] at fine
      exact absurd fine.1 (show (-1 : ℤ) ≠ 0 by decide)
    · rw [Fine, checkPort_ret missing]
      simp [missing, fine.1]
  | readOut =>
    simp only [Reported, Handler.step, pc]
    exact readPipe_ret nofun fine
  | readErr =>
    simp only [Reported, Handler.step, pc]
    exact readPipe_ret nofun fine
  | readSock =>
    simp only [Reported, Handler.step, pc]
    by_cases failed : h.readySock = true ∧ answer.read = .failed
    · refine iff_of_false (fun not => not ⟨failed.1, Or.inl failed.2⟩) fun fine => ?_
      rw [Handler.readSock, if_neg (not_not_intro failed.1), failed.2] at fine
      exact absurd fine.1 (show (-1 : ℤ) ≠ 0 by decide)
    · rw [Fine, readSock_ret fun ready failed' => failed ⟨ready, failed'⟩]
      cases ready : h.readySock
      · rw [Handler.readSock, if_pos (by rw [ready]; decide)]
        simp [fine.1]
      · simp only [fine.1, not_or, not_exists, true_and]
        exact and_iff_right fun failed' => failed ⟨ready, failed'⟩
  | returned =>
    simp only [Reported, Handler.step, pc]
    exact iff_of_true not_false fine
  | crashed fault => exact absurd pc (fine.2 fault)

/-- A failure that is reported is not taken back. -/
theorem step_ret (h : Handler) (answer : Answer) :
    (h.step setting answer).ret = h.ret ∨ (h.step setting answer).ret = -1 := by
  cases pc : h.pc <;> simp only [Handler.step, pc]
  case top =>
    unfold Handler.top
    dsimp only
    split
    · exact Or.inl rfl
    split
    · split
      · exact Or.inl rfl
      · exact Or.inr rfl
    · exact Or.inl rfl
  case select =>
    unfold Handler.select
    split <;> exact Or.inl rfl
  case checkPort =>
    by_cases missing : answer.portFile = .missing
    · rw [Handler.checkPort, missing]
      exact Or.inr rfl
    · exact Or.inl (checkPort_ret missing)
  case readOut => exact readPipe_ret_cases
  case readErr => exact readPipe_ret_cases
  case readSock =>
    by_cases failed : h.readySock = true ∧ answer.read = .failed
    · rw [Handler.readSock, if_neg (not_not_intro failed.1), failed.2]
      exact Or.inr rfl
    · exact Or.inl (readSock_ret fun ready failed' => failed ⟨ready, failed'⟩)
  case returned => exact Or.inl trivial
  case crashed => exact Or.inl trivial

theorem fine_of_step {h : Handler} {answer : Answer} (fine : Fine (h.step setting answer)) : Fine h := by
  refine ⟨?_, fun fault crashed => fine.2 fault ?_⟩
  · obtain same | failed := @step_ret setting h answer
    · exact same.symm.trans fine.1
    · rw [fine.1] at failed
      exact absurd failed (by decide)
  · rw [Handler.step, crashed]
    exact crashed

/-- The handler returns 0 exactly when no step reports. -/
theorem run_fine_iff {h : Handler} (fine : Fine h) (answers : List Answer) :
    Fine (run (Handler.step setting) h answers) ↔
      Guarded (Handler.step setting) (fun h answer => ¬ Reported setting h answer) h answers :=
  guarded_iff_final (fun _ answer fine => step_fine_iff answer fine) (fun _ _ => fine_of_step) fine answers

theorem wexitstatus_exited (code : UInt8) : wexitstatus (Child.exited code).status = code.toNat := by
  have each : ∀ n < 256, wexitstatus (n * 256) = n := by decide +kernel
  exact each code.toNat code.toNat_lt

theorem wexitstatus_killed (signal : Fin 128) (core : Bool) : wexitstatus (Child.killed signal core).status = 0 := by
  revert signal core
  decide +kernel

/-- The handler at its loop, after everything before it has succeeded. -/
def atLoop (setting : Setting) (outcomes : Outcomes) : Handler :=
  match Handler.setUp setting outcomes.garbage outcomes.setUp with
  | .ok h => h
  | .error _ => { buf := outcomes.garbage }

/-- The steps of the handler each meet a condition. -/
def EachStep (setting : Setting) (outcomes : Outcomes) (condition : Handler → Answer → Prop) : Prop :=
  Guarded (Handler.step setting) condition (atLoop setting outcomes) outcomes.answers

/-- Nothing failed that is reported. -/
def NoneReported (setting : Setting) (outcomes : Outcomes) : Prop :=
  (outcomes.pipeOut = true ∧ outcomes.pipeErr = true ∧ outcomes.fork = true) ∧
  (outcomes.setUp.malloc = true ∧ outcomes.setUp.socket = true ∧ outcomes.setUp.openPort = true) ∧
  (outcomes.setUp.strdup = true ∧ outcomes.setUp.createDir setting = true → outcomes.setUp.openLog = true ∧
    EachStep setting outcomes fun h answer => ¬ Reported setting h answer)

/-- Nothing failed that is not reported. -/
def NoneUnreported (setting : Setting) (outcomes : Outcomes) : Prop :=
  (outcomes.setUp.strdup = true ∧ outcomes.setUp.createDir setting = true) ∧
  EachStep setting outcomes fun h answer => ¬ Unreported h answer

/-- The log was set up. -/
def LogSetUp (setting : Setting) (outcomes : Outcomes) : Prop :=
  (outcomes.pipeOut = true ∧ outcomes.pipeErr = true ∧ outcomes.fork = true) ∧
  (outcomes.setUp.malloc = true ∧ outcomes.setUp.socket = true ∧ outcomes.setUp.openPort = true) ∧
  (outcomes.setUp.strdup = true ∧ outcomes.setUp.createDir setting = true) ∧ outcomes.setUp.openLog = true

/-- The wrapper exits with success exactly when the log was set up, no step of the handler failed and the
child exited with 0. -/
def Faithful (setting : Setting) (outcomes : Outcomes) : Prop :=
  wrapper setting outcomes = some (.exits exitSuccess) ↔
    LogSetUp setting outcomes ∧
      (EachStep setting outcomes fun h answer => ¬ (Reported setting h answer ∨ Unreported h answer)) ∧
      outcomes.child = .exited 0

theorem exitCode_success_iff (ret : ℤ) (status : ℕ) :
    exitCode ret status = exitSuccess ↔ ret = 0 ∧ wexitstatus status = 0 := by
  unfold exitCode exitSuccess exitFailure
  split <;> simp [*]

/-- Success after the loop is a handler that returns 0 and an exit code of 0. -/
theorem afterLoop_success_iff {last : Handler} (child : Child) (ended : afterLoop last child ≠ none) :
    afterLoop last child = some (.exits exitSuccess) ↔ Fine last ∧ wexitstatus child.status = 0 := by
  unfold afterLoop at ended ⊢
  cases pc : last.pc <;> simp only [pc, ne_eq, not_true_eq_false] at ended
  case returned => simp [exitCode_success_iff, Fine, pc]
  case crashed fault => simp [Fine, pc]

/-- The wrapper exits with success when nothing is reported and the exit code in the status is 0. -/
theorem wrapper_success_iff (setting : Setting) (outcomes : Outcomes) (ended : wrapper setting outcomes ≠ none) :
    wrapper setting outcomes = some (.exits exitSuccess) ↔
      NoneReported setting outcomes ∧ wexitstatus outcomes.child.status = 0 := by
  unfold NoneReported
  cases pipeOut : outcomes.pipeOut
  · simp [wrapper, pipeOut, exitFailure, exitSuccess]
  cases pipeErr : outcomes.pipeErr
  · simp [wrapper, pipeOut, pipeErr, exitFailure, exitSuccess]
  cases fork : outcomes.fork
  · simp [wrapper, pipeOut, pipeErr, fork, exitFailure, exitSuccess]
  rw [wrapper, if_neg (by simp [pipeOut]), if_neg (by simp [pipeErr]), if_neg (by simp [fork])] at ended ⊢
  cases malloc : outcomes.setUp.malloc
  · simp [Handler.setUp, malloc, exitCode, exitFailure, exitSuccess]
  cases socket : outcomes.setUp.socket
  · simp [Handler.setUp, malloc, socket, exitCode, exitFailure, exitSuccess]
  cases openPort : outcomes.setUp.openPort
  · simp [Handler.setUp, malloc, socket, openPort, exitCode, exitFailure, exitSuccess]
  cases strdup : outcomes.setUp.strdup
  · simp [Handler.setUp, malloc, socket, openPort, strdup, exitCode_success_iff]
  cases createDir : outcomes.setUp.createDir setting
  · simp [Handler.setUp, malloc, socket, openPort, strdup, createDir, exitCode_success_iff]
  cases openLog : outcomes.setUp.openLog
  · simp [Handler.setUp, malloc, socket, openPort, strdup, createDir, openLog, exitCode, exitFailure, exitSuccess]
  obtain ⟨h, set, fine⟩ : ∃ h, Handler.setUp setting outcomes.garbage outcomes.setUp = .ok h ∧ Fine h := by
    simp [Handler.setUp, malloc, socket, openPort, strdup, createDir, openLog, Fine]
  simp only [EachStep, atLoop, set] at ended ⊢
  rw [afterLoop_success_iff _ ended, run_fine_iff fine]
  simp

/-- Nothing failed exactly when nothing failed that is reported, and nothing that is not. -/
theorem noFailure_iff (setting : Setting) (outcomes : Outcomes) :
    (LogSetUp setting outcomes ∧
      EachStep setting outcomes fun h answer => ¬ (Reported setting h answer ∨ Unreported h answer)) ↔
    NoneReported setting outcomes ∧ NoneUnreported setting outcomes := by
  have each : (EachStep setting outcomes fun h answer => ¬ (Reported setting h answer ∨ Unreported h answer)) ↔
      (EachStep setting outcomes fun h answer => ¬ Reported setting h answer) ∧
        EachStep setting outcomes fun h answer => ¬ Unreported h answer := by
    simp only [EachStep, not_or, guarded_and]
  rw [each]
  constructor
  · rintro ⟨⟨spawned, opened, named, logged⟩, reported, unreported⟩
    exact ⟨⟨spawned, opened, fun _ => ⟨logged, reported⟩⟩, named, unreported⟩
  · rintro ⟨⟨spawned, opened, rest⟩, named, unreported⟩
    exact ⟨⟨spawned, opened, named, (rest named).1⟩, (rest named).2, unreported⟩

/-- The exit status is faithful exactly when a failure is reported, or the child exits with another code than
0, or the child is not killed and there is no failure that is not reported. -/
theorem faithful_iff (setting : Setting) (outcomes : Outcomes) (ended : wrapper setting outcomes ≠ none) :
    Faithful setting outcomes ↔
      (NoneReported setting outcomes →
        (∃ code, code ≠ 0 ∧ outcomes.child = .exited code) ∨
        NoneUnreported setting outcomes ∧ ∀ signal core, outcomes.child ≠ .killed signal core) := by
  rw [Faithful, wrapper_success_iff setting outcomes ended, ← and_assoc, noFailure_iff]
  by_cases reported : NoneReported setting outcomes
  · cases child : outcomes.child with
    | killed signal core =>
      rw [wexitstatus_killed]
      simp [reported]
    | exited code =>
      rw [wexitstatus_exited]
      by_cases zero : code = 0
      · simp [reported, zero]
      · have positive : code.toNat ≠ 0 := fun same => zero (UInt8.toNat_inj.mp same)
        simp [reported, zero, positive]
  · simp [reported]

/-- A run in which nothing fails: both pipes are found at their ends. -/
def atEnds (child : Child) : Outcomes where
  garbage := zeros
  answers := [{}, { selected := .ready true true false }, { read := .received [] }, { read := .received [] }, {}, {}]
  child := child

example : wrapper logSetting (atEnds (.exited 0)) = some (.exits exitSuccess) := by decide +kernel

/-- A build that exits with 2 makes the wrapper fail. -/
theorem failedBuild_faithful :
    wrapper logSetting (atEnds (.exited 2)) = some (.exits exitFailure) ∧
    Faithful logSetting (atEnds (.exited 2)) :=
  ⟨by decide +kernel, (faithful_iff logSetting (atEnds (.exited 2)) (by decide +kernel)).mpr fun _ =>
    Or.inl ⟨2, by decide, rfl⟩⟩

/-- A build that is killed makes the wrapper succeed. -/
theorem killedBuild_succeeds :
    wrapper logSetting (atEnds (.killed 9 false)) = some (.exits exitSuccess) ∧
    ¬ Faithful logSetting (atEnds (.killed 9 false)) := by
  have success : wrapper logSetting (atEnds (.killed 9 false)) = some (.exits exitSuccess) := by decide +kernel
  exact ⟨success, fun faithful => nomatch (faithful.mp success).2.2⟩

end CBuild.Soundness.ExitStatus
