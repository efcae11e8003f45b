import CBuild.Data.Merge
import CBuild.Model.Progress.World

/-! # What is logged of the build output

The log is at all times a merge of what was read of the two pipes. The loop stops when it reads the end of
one pipe, or by a datagram; what is in a pipe then, and not read in the same iteration, is not logged.
-/

namespace CBuild.Soundness.BuildOutput

open CBuild.Machine CBuild.Data CBuild.Model.Progress

theorem take_bufSize_eq_nil {queue : Bytes} : queue.take bufSize = [] ↔ queue = [] := by
  rw [List.take_eq_nil_iff, or_iff_right (by decide)]

section Handler

variable {setting : Setting} {answer : Answer} {h : Handler}

theorem top_stopped (stopped : h.vars.running = false) : h.top setting answer = { h with pc := .returned } := by
  rw [Handler.top, if_pos (by rw [stopped]; decide)]

theorem top_running (running : h.vars.running = true) (opened : answer.opened = true) :
    (h.top setting answer).pc = .select ∧ (h.top setting answer).vars = h.vars ∧
      (h.top setting answer).logged = h.logged := by
  rw [Handler.top, if_neg (not_not_intro running)]
  by_cases large : maxLogSize < h.totalSize
  · rw [if_pos large]
    dsimp only
    rw [if_pos opened]
    refine ⟨rfl, rfl, ?_⟩
    simp only [Handler.logged, List.flatten_append, List.flatten_cons, List.flatten_nil, List.append_nil]
  · rw [if_neg large]
    exact ⟨rfl, rfl, rfl⟩

theorem select_next : ((h.select answer).pc = .readOut ∨ (h.select answer).pc = .checkPort) ∧
    (h.select answer).vars = h.vars ∧ (h.select answer).logged = h.logged := by
  unfold Handler.select
  split
  · exact ⟨Or.inr rfl, rfl, rfl⟩
  · exact ⟨Or.inr rfl, rfl, rfl⟩
  · exact ⟨Or.inl rfl, rfl, rfl⟩

theorem showJobs_next : (h.showJobs.pc = .top ∨ ∃ fault, h.showJobs.pc = .crashed fault) ∧
    h.showJobs.vars.running = h.vars.running ∧ h.showJobs.logged = h.logged := by
  unfold Handler.showJobs
  split
  · exact ⟨Or.inl rfl, rfl, rfl⟩
  split
  · exact ⟨Or.inl rfl, rfl, rfl⟩
  dsimp only
  split
  · exact ⟨Or.inl rfl, rfl, rfl⟩
  split
  · exact ⟨Or.inl rfl, rfl, rfl⟩
  · exact ⟨Or.inr ⟨_, rfl⟩, rfl, rfl⟩

theorem readPipe_idle {shown : Bool} {next : Pc} :
    h.readPipe answer false shown next = { h with pc := next } := by
  rw [Handler.readPipe, if_pos (by decide)]

/-- A read is logged; the end of the pipe stops the loop. -/
theorem readPipe_received {shown : Bool} {next : Pc} {bytes : Bytes} (read : answer.read = .received bytes)
    (fits : bytes.length ≤ bufSize) :
    (h.readPipe answer true shown next).pc = next ∧
      (h.readPipe answer true shown next).vars.running = (h.vars.running && bytes ≠ []) ∧
      (h.readPipe answer true shown next).readyErr = h.readyErr ∧
      (h.readPipe answer true shown next).logged = h.logged ++ bytes := by
  rw [Handler.readPipe, if_neg (by decide), read]
  dsimp only
  rw [List.take_of_length_le fits]
  by_cases ended : bytes = []
  · rw [if_pos ended]
    refine ⟨rfl, ?_, rfl, ?_⟩
    · simp [ended, Handler.stop]
    · simp [ended, Handler.stop, Handler.logged]
  · rw [if_neg ended]
    refine ⟨rfl, ?_, ?_, ?_⟩
    · cases shown <;> simp [ended, Handler.resetCcnt]
    · cases shown <;> rfl
    · cases shown <;> simp [Handler.resetCcnt, Handler.logged]

/-- A datagram stops the loop when it is found to be `stop`. -/
theorem processMessage_running {v after : Vars} {num : ℕ} {buf buf' : Buf} {alloc : Alloc}
    (done : processMessage buf num alloc v = .ok (after, buf')) :
    after.running = (v.running && kind buf ≠ .stop) := by
  rw [processMessage] at done
  cases message : kind buf <;> simp only [message] at done
  case stop => cases done; simp
  case total | other => cases done; simp
  case begins =>
    cases begun : beginPkg buf num alloc v with
    | error fault => rw [begun] at done; cases done
    | ok begins => rw [begun] at done; cases done; simp [(beginPkg_ok begun).2]
  case ends =>
    split at done
    · cases ended : endPkg buf num v with
      | error fault => rw [ended] at done; cases done
      | ok result => rw [ended] at done; cases done; simp [(endPkg_ok ended).2]
    · cases done
      simp

/-- As long as the port file stays as it was written, the handler goes on. -/
theorem checkPort_next (port : answer.portFile = .holds (printed setting.port.toNat)) :
    ((h.checkPort setting answer).pc = .top ∨ ∃ fault, (h.checkPort setting answer).pc = .crashed fault) ∧
      (h.checkPort setting answer).vars.running = h.vars.running ∧
      (h.checkPort setting answer).logged = h.logged := by
  have small : setting.port.toNat < 65536 := setting.port.toNat_lt
  have short : (printed setting.port.toNat).length ≤ bufSize := by
    have : (printed setting.port.toNat).length ≤ 5 :=
      (printed_length_le_iff setting.port.toNat (by decide)).mpr (by omega)
    unfold bufSize
    omega
  have nonzero : ∀ byte ∈ printed setting.port.toNat, byte ≠ 0 := by
    intro byte member zero
    have := (printed_bounds _ byte member).1
    rw [zero] at this
    exact absurd this (by decide)
  rw [Handler.checkPort, port]
  dsimp only
  rw [List.take_of_length_le short, Handler.comparePort, if_neg]
  · exact showJobs_next
  · rw [not_not, cstr_write nonzero _ _ _ (by omega) (Nat.zero_le _), List.drop_zero, atoi_printed (by omega)]

theorem readSock_idle (idle : h.readySock = false) : h.readSock answer = { h with pc := .top } := by
  rw [Handler.readSock, if_pos (by rw [idle]; decide)]

theorem readSock_received {datagram : Bytes} (ready : h.readySock = true) (some : datagram ≠ [])
    (read : answer.read = .received datagram) :
    ((∃ fault, (h.readSock answer).pc = .crashed fault) ∧ (h.readSock answer).vars.running = h.vars.running ∧
          kind (h.buf.write (datagram.take bufSize)) ≠ .stop ∨
        (h.readSock answer).pc = .top ∧ (h.readSock answer).vars.running =
          (h.vars.running && kind (h.buf.write (datagram.take bufSize)) ≠ .stop)) ∧
      (h.readSock answer).logged = h.logged := by
  have received : datagram.take bufSize ≠ [] := mt take_bufSize_eq_nil.mp some
  rw [Handler.readSock, if_neg (not_not_intro ready), read]
  simp only [processDatagram, if_neg received]
  cases done : processMessage (h.buf.write (datagram.take bufSize)) (datagram.take bufSize).length answer.alloc
      h.vars with
  | error fault =>
    refine ⟨Or.inl ⟨⟨fault, rfl⟩, rfl, fun stop => ?_⟩, rfl⟩
    rw [processMessage, stop] at done
    cases done
  | ok result => exact ⟨Or.inr ⟨rfl, processMessage_running done⟩, rfl⟩

end Handler

/-- What the loop leaves in the pipe of stderr, when it makes its next calls to the end of an iteration. -/
def leftErr (world : World) : Bytes :=
  if world.handler.pc = .readErr ∧ world.handler.readyErr = true then world.err.queue.drop bufSize
  else world.err.queue

/-- The loop has been stopped, and will not read what is in a pipe. -/
def Lost (world : World) : Prop :=
  world.handler.vars.running = false ∧ (∀ fault, world.handler.pc ≠ .crashed fault) ∧
    (world.out.queue ≠ [] ∨ leftErr world ≠ [])

/-- Nothing gets lost by an event: where the handler reads the end of a pipe or a datagram that stops it,
what is in the pipes is read in the rest of the iteration, and from then on nothing else is written. -/
def Calm (world : World) : Event → Prop
  | .writeOut bytes => world.handler.vars.running = false → world.Open → world.out.closed = false → bytes = []
  | .writeErr bytes => world.handler.vars.running = false → world.Open → world.err.closed = false →
      bytes = [] ∨ world.handler.pc = .readErr ∧ world.handler.readyErr = true ∧
        (world.err.queue ++ bytes).length ≤ bufSize
  | .call .. =>
    match world.handler.pc with
    | .readOut => world.handler.readyOut = true → world.out.queue = [] → world.out.closed = true →
        world.err.queue = [] ∨ world.handler.readyErr = true ∧ world.err.queue.length ≤ bufSize
    | .readErr => world.handler.readyErr = true → world.err.queue = [] → world.err.closed = true →
        world.out.queue = []
    | .readSock => ∀ datagram sock, world.handler.readySock = true → world.sock = datagram :: sock →
        kind (world.handler.buf.write (datagram.bytes.take bufSize)) = .stop →
        world.out.queue = [] ∧ world.err.queue = []
    | _ => True
  | _ => True

/-- The log is a merge of what was read, and the loop is stopped from the reads on. -/
structure Inv (world : World) : Prop where
  merge : Merge world.out.taken world.err.taken world.handler.logged
  stops : world.handler.vars.running = false →
    world.handler.pc ≠ .select ∧ world.handler.pc ≠ .checkPort ∧ world.handler.pc ≠ .readOut
  returned : world.handler.pc = .returned → world.handler.vars.running = false

variable {setting : Setting} {world after : World} {event : Event}

/-- What an event does: the log stays a merge, the event is calm exactly when nothing gets lost by it, and
what is lost stays lost. -/
structure Sound (world : World) (event : Event) (after : World) : Prop where
  inv : Inv after
  exact : ¬ Lost world → (Calm world event ↔ ¬ Lost after)
  lasting : Lost world → Lost after ∨ ∃ fault, after.handler.pc = .crashed fault

/-- A calm event that changes no queue and does not stop the loop. -/
theorem sound_same (inv : Inv world) (calm : Calm world event)
    (out : after.out.taken = world.out.taken ∧ after.out.queue = world.out.queue)
    (err : after.err.taken = world.err.taken ∧ after.err.queue = world.err.queue)
    (logged : after.handler.logged = world.handler.logged)
    (running : after.handler.vars.running = world.handler.vars.running)
    (left : world.handler.vars.running = false → leftErr after = leftErr world)
    (stops : world.handler.vars.running = false →
      after.handler.pc ≠ .select ∧ after.handler.pc ≠ .checkPort ∧ after.handler.pc ≠ .readOut)
    (returned : after.handler.pc = .returned → world.handler.vars.running = false)
    (live : (∃ fault, after.handler.pc = .crashed fault) ∨ ∀ fault, world.handler.pc ≠ .crashed fault) :
    Sound world event after where
  inv := ⟨by rw [out.1, err.1, logged]; exact inv.merge, by rw [running]; exact stops, by rw [running]; exact returned⟩
  exact kept := by
    refine iff_of_true calm fun lost => kept ?_
    obtain ⟨stopped, uncrashed, lost⟩ := lost
    rw [running] at stopped
    rw [out.2, left stopped] at lost
    obtain ⟨fault, crashed⟩ | live := live
    · exact absurd crashed (uncrashed fault)
    · exact ⟨stopped, live, lost⟩
  lasting lost := by
    obtain ⟨stopped, -, lost⟩ := lost
    by_cases crashed : ∃ fault, after.handler.pc = .crashed fault
    · exact Or.inr crashed
    · refine Or.inl ⟨running.trans stopped, fun fault same => crashed ⟨fault, same⟩, ?_⟩
      rwa [out.2, left stopped]

variable {stamp : Bytes} {interrupted : Bool} {alloc : Alloc}

theorem call_top (inv : Inv world) (pc : world.handler.pc = .top) :
    Sound world (.call stamp interrupted alloc) (world.call setting stamp interrupted alloc) := by
  have calm : Calm world (.call stamp interrupted alloc) := by simp only [Calm, pc]
  simp only [World.call, pc, Handler.step]
  cases running : world.handler.vars.running with
  | false =>
    rw [top_stopped running]
    refine sound_same inv calm ⟨rfl, rfl⟩ ⟨rfl, rfl⟩ rfl rfl ?_ ?_ (fun _ => running) ?_
    · intro _
      simp only [leftErr, pc, reduceCtorEq, false_and, if_false]
    · exact fun _ => ⟨nofun, nofun, nofun⟩
    · exact Or.inr fun fault => by rw [pc]; exact nofun
  | true =>
    obtain ⟨next, vars, logged⟩ := @top_running setting (world.answer setting stamp interrupted alloc .failed)
      world.handler running rfl
    refine sound_same inv calm ⟨rfl, rfl⟩ ⟨rfl, rfl⟩ logged (congrArg Vars.running vars) ?_ ?_ ?_ ?_
    · rw [running]; exact nofun
    · rw [running]; exact nofun
    · exact fun same => nomatch next.symm.trans same
    · exact Or.inr fun fault => by rw [pc]; exact nofun

theorem call_select (inv : Inv world) (pc : world.handler.pc = .select) :
    Sound world (.call stamp interrupted alloc) (world.call setting stamp interrupted alloc) := by
  have calm : Calm world (.call stamp interrupted alloc) := by simp only [Calm, pc]
  have running : world.handler.vars.running ≠ false := fun stopped => (inv.stops stopped).1 pc
  simp only [World.call, pc, Handler.step]
  obtain ⟨next, vars, logged⟩ := @select_next (world.answer setting stamp interrupted alloc .failed) world.handler
  refine sound_same inv calm ⟨rfl, rfl⟩ ⟨rfl, rfl⟩ logged (congrArg Vars.running vars)
    (fun stopped => absurd stopped running) (fun stopped => absurd stopped running) ?_ ?_
  · intro same
    obtain next | next := next <;> cases next.symm.trans same
  · exact Or.inr fun fault => by rw [pc]; exact nofun

theorem call_checkPort (inv : Inv world) (pc : world.handler.pc = .checkPort) :
    Sound world (.call stamp interrupted alloc) (world.call setting stamp interrupted alloc) := by
  have calm : Calm world (.call stamp interrupted alloc) := by simp only [Calm, pc]
  have running : world.handler.vars.running ≠ false := fun stopped => (inv.stops stopped).2.1 pc
  simp only [World.call, pc, Handler.step]
  obtain ⟨next, vars, logged⟩ := @checkPort_next setting (world.answer setting stamp interrupted alloc .failed)
    world.handler rfl
  generalize world.handler.checkPort setting (world.answer setting stamp interrupted alloc .failed) = h at *
  refine sound_same inv calm ⟨rfl, rfl⟩ ⟨rfl, rfl⟩ logged vars
    (fun stopped => absurd stopped running) (fun stopped => absurd stopped running) ?_ ?_
  · intro same
    obtain next | ⟨fault, next⟩ := next <;> cases next.symm.trans same
  · exact Or.inr fun fault => by rw [pc]; exact nofun

theorem call_readOut (inv : Inv world) (pc : world.handler.pc = .readOut) :
    Sound world (.call stamp interrupted alloc) (world.call setting stamp interrupted alloc) := by
  have running : world.handler.vars.running = true := by
    by_contra stopped
    exact (inv.stops (Bool.eq_false_iff.mpr stopped)).2.2 pc
  have never : world.handler.vars.running ≠ false := by rw [running]; decide
  have notLost : ¬ Lost world := fun lost => never lost.1
  have live : ∀ fault, world.handler.pc ≠ .crashed fault := fun fault => by rw [pc]; exact nofun
  have calm_iff : Calm world (.call stamp interrupted alloc) ↔
      (world.handler.readyOut = true → world.out.queue = [] → world.out.closed = true →
        world.err.queue = [] ∨ world.handler.readyErr = true ∧ world.err.queue.length ≤ bufSize) := by
    simp only [Calm, pc]
  simp only [World.call, pc, Handler.step, Handler.readOut]
  cases ready : world.handler.readyOut with
  | false =>
    rw [if_pos (by decide), readPipe_idle]
    exact sound_same inv (calm_iff.mpr (by rw [ready]; exact nofun)) ⟨rfl, rfl⟩ ⟨rfl, rfl⟩ rfl rfl
      (fun stopped => absurd stopped never) (fun stopped => absurd stopped never) nofun (Or.inr live)
  | true =>
    rw [if_neg (by decide)]
    by_cases some : world.out.ready = true
    · rw [if_pos some]
      obtain ⟨next, runs, readyErr, logged⟩ := @readPipe_received
        (world.answer setting stamp interrupted alloc (.received (world.out.queue.take bufSize))) world.handler
        setting.logout .readErr _ rfl (List.length_take_le ..)
      generalize world.handler.readPipe
        (world.answer setting stamp interrupted alloc (.received (world.out.queue.take bufSize))) true
        setting.logout .readErr = h at *
      refine ⟨⟨?_, ?_, ?_⟩, fun _ => ?_, fun lost => absurd lost notLost⟩
      · rw [logged]
        exact inv.merge.append_fst _
      · intro _
        simp only [next]
        exact ⟨nofun, nofun, nofun⟩
      · simp only [next]
        exact nofun
      · rw [calm_iff, Lost]
        by_cases ended : world.out.queue = []
        · have closed : world.out.closed = true := by simpa [Pipe.ready, ended] using some
          have stopped : h.vars.running = false := by rw [runs, ended, List.take_nil]; exact Bool.and_false _
          have out : world.out.read.queue = [] := by rw [Pipe.read, ended]; exact List.drop_nil
          cases readyErr' : world.handler.readyErr
          · simp [ready, ended, closed, stopped, out, next, readyErr, readyErr', leftErr]
          · simp [ready, ended, closed, stopped, out, next, readyErr, readyErr', leftErr]
            exact fun empty => empty ▸ Nat.zero_le _
        · have goes : h.vars.running = true := by
            rw [runs, running, Bool.true_and, decide_eq_true (mt take_bufSize_eq_nil.mp ended)]
          simp [ended, goes]
    · rw [if_neg some]
      have open' : world.out.closed = false := by
        rw [Pipe.ready, Bool.or_eq_true, not_or] at some
        exact Bool.eq_false_iff.mpr some.2
      exact sound_same inv (calm_iff.mpr fun _ _ closed => nomatch closed.symm.trans open') ⟨rfl, rfl⟩ ⟨rfl, rfl⟩
        rfl rfl (fun stopped => absurd stopped never) (fun stopped => absurd stopped never)
        (fun same => nomatch same.symm.trans pc) (Or.inr live)

theorem call_readErr (inv : Inv world) (pc : world.handler.pc = .readErr) :
    Sound world (.call stamp interrupted alloc) (world.call setting stamp interrupted alloc) := by
  have live : ∀ fault, world.handler.pc ≠ .crashed fault := fun fault => by rw [pc]; exact nofun
  have calm_iff : Calm world (.call stamp interrupted alloc) ↔
      (world.handler.readyErr = true → world.err.queue = [] → world.err.closed = true → world.out.queue = []) := by
    simp only [Calm, pc]
  simp only [World.call, pc, Handler.step, Handler.readErr]
  cases ready : world.handler.readyErr with
  | false =>
    rw [if_pos (by decide), readPipe_idle]
    refine sound_same inv (calm_iff.mpr (by rw [ready]; exact nofun)) ⟨rfl, rfl⟩ ⟨rfl, rfl⟩ rfl rfl
      (fun _ => ?_) (fun _ => ⟨nofun, nofun, nofun⟩) nofun (Or.inr live)
    simp only [leftErr, ready, reduceCtorEq, and_false, if_false]
  | true =>
    have left : leftErr world = world.err.queue.drop bufSize := by
      rw [leftErr, if_pos ⟨pc, ready⟩]
    rw [if_neg (by decide)]
    by_cases some : world.err.ready = true
    · rw [if_pos some]
      obtain ⟨next, runs, readyErr, logged⟩ := @readPipe_received
        (world.answer setting stamp interrupted alloc (.received (world.err.queue.take bufSize))) world.handler
        true .readSock _ rfl (List.length_take_le ..)
      generalize world.handler.readPipe
        (world.answer setting stamp interrupted alloc (.received (world.err.queue.take bufSize))) true
        true .readSock = h at *
      have left' : leftErr { world with handler := h, err := world.err.read } = world.err.queue.drop bufSize := by
        simp only [leftErr, next, reduceCtorEq, false_and, if_false, Pipe.read]
      refine ⟨⟨?_, ?_, ?_⟩, fun kept => ?_, fun lost => Or.inl ⟨?_, ?_, ?_⟩⟩
      · rw [logged]
        exact inv.merge.append_snd _
      · intro _
        simp only [next]
        exact ⟨nofun, nofun, nofun⟩
      · simp only [next]
        exact nofun
      · by_cases ended : world.err.queue = []
        · have closed : world.err.closed = true := by simpa [Pipe.ready, ended] using some
          have stopped : h.vars.running = false := by rw [runs, ended, List.take_nil]; exact Bool.and_false _
          rw [calm_iff, Lost, left', ended]
          simp [ready, closed, stopped, next]
        · have same : h.vars.running = world.handler.vars.running := by
            rw [runs, decide_eq_true (mt take_bufSize_eq_nil.mp ended), Bool.and_true]
          refine iff_of_true (calm_iff.mpr fun _ none => absurd none ended) fun lost => kept ?_
          obtain ⟨stopped, -, lost⟩ := lost
          rw [left'] at lost
          exact ⟨same.symm.trans stopped, live, by rwa [left]⟩
      · simp only [runs, lost.1, Bool.false_and]
      · simp only [next]
        exact fun fault => nofun
      · rw [left', ← left]
        exact lost.2.2
    · rw [if_neg some]
      have open' : world.err.closed = false := by
        rw [Pipe.ready, Bool.or_eq_true, not_or] at some
        exact Bool.eq_false_iff.mpr some.2
      exact sound_same inv (calm_iff.mpr fun _ _ closed => nomatch closed.symm.trans open') ⟨rfl, rfl⟩ ⟨rfl, rfl⟩
        rfl rfl (fun _ => rfl) inv.stops inv.returned (Or.inr live)

theorem leftErr_elsewhere {pc : Pc} (here : world.handler.pc = pc) (elsewhere : pc ≠ .readErr) :
    leftErr world = world.err.queue :=
  if_neg fun both => elsewhere (here.symm.trans both.1)

section Received

variable {datagram : Datagram} {sock : List Datagram}

theorem calm_readSock (pc : world.handler.pc = .readSock) : Calm world (.call stamp interrupted alloc) ↔
    ∀ datagram sock, world.handler.readySock = true → world.sock = datagram :: sock →
      kind (world.handler.buf.write (datagram.bytes.take bufSize)) = .stop →
      world.out.queue = [] ∧ world.err.queue = [] := by
  simp only [Calm, pc]

/-- A datagram that does not stop the loop is calm. -/
theorem calm_of_other (pc : world.handler.pc = .readSock) (queued : world.sock = datagram :: sock)
    (other : kind (world.handler.buf.write (datagram.bytes.take bufSize)) ≠ .stop) :
    Calm world (.call stamp interrupted alloc) :=
  (calm_readSock pc).mpr fun datagram' sock' _ queued' stop => by
    cases queued.symm.trans queued'
    exact absurd stop other

theorem received_crashed {fault : Fault} (inv : Inv world) (pc : world.handler.pc = .readSock)
    (queued : world.sock = datagram :: sock)
    (other : kind (world.handler.buf.write (datagram.bytes.take bufSize)) ≠ .stop) (crashed : h.pc = .crashed fault)
    (same : h.vars.running = world.handler.vars.running) (logged : h.logged = world.handler.logged) :
    Sound world (.call stamp interrupted alloc) { world with handler := h, sock } := by
  have left : leftErr { world with handler := h, sock } = leftErr world := by
    rw [leftErr_elsewhere pc nofun]
    exact leftErr_elsewhere crashed nofun
  refine sound_same inv (calm_of_other pc queued other) ⟨rfl, rfl⟩ ⟨rfl, rfl⟩ logged same (fun _ => left)
    (fun _ => ?_) ?_ (Or.inl ⟨fault, crashed⟩)
  · simp only [crashed]
    exact ⟨nofun, nofun, nofun⟩
  · simp only [crashed]
    exact nofun

/-- The message that stops the loop is calm when the pipes are empty. -/
theorem received_stop (inv : Inv world) (pc : world.handler.pc = .readSock) (ready : world.handler.readySock = true)
    (queued : world.sock = datagram :: sock)
    (stop : kind (world.handler.buf.write (datagram.bytes.take bufSize)) = .stop) (next : h.pc = .top)
    (stopped : h.vars.running = false) (logged : h.logged = world.handler.logged) :
    Sound world (.call stamp interrupted alloc) { world with handler := h, sock } := by
  have left : leftErr world = world.err.queue := leftErr_elsewhere pc nofun
  have left' : leftErr { world with handler := h, sock } = world.err.queue := leftErr_elsewhere next nofun
  refine ⟨⟨?_, ?_, ?_⟩, fun _ => ?_, fun lost => Or.inl ⟨stopped, ?_, ?_⟩⟩
  · rw [logged]
    exact inv.merge
  · simp only [next]
    exact fun _ => ⟨nofun, nofun, nofun⟩
  · exact fun _ => stopped
  · rw [calm_readSock pc, Lost, left']
    simp [ready, queued, stop, stopped, next]
  · simp only [next]
    exact fun fault => nofun
  · rw [left', ← left]
    exact lost.2.2

theorem received_other (inv : Inv world) (pc : world.handler.pc = .readSock) (queued : world.sock = datagram :: sock)
    (other : kind (world.handler.buf.write (datagram.bytes.take bufSize)) ≠ .stop) (next : h.pc = .top)
    (same : h.vars.running = world.handler.vars.running) (logged : h.logged = world.handler.logged) :
    Sound world (.call stamp interrupted alloc) { world with handler := h, sock } := by
  have left : leftErr { world with handler := h, sock } = leftErr world := by
    rw [leftErr_elsewhere pc nofun]
    exact leftErr_elsewhere next nofun
  refine sound_same inv (calm_of_other pc queued other) ⟨rfl, rfl⟩ ⟨rfl, rfl⟩ logged same (fun _ => left)
    (fun _ => ?_) ?_ (Or.inr fun fault => by rw [pc]; exact nofun)
  · simp only [next]
    exact ⟨nofun, nofun, nofun⟩
  · simp only [next]
    exact nofun

end Received

theorem call_readSock (inv : Inv world) (pc : world.handler.pc = .readSock) :
    Sound world (.call stamp interrupted alloc) (world.call setting stamp interrupted alloc) := by
  have live : ∀ fault, world.handler.pc ≠ .crashed fault := fun fault => by rw [pc]; exact nofun
  simp only [World.call, pc, Handler.step]
  cases ready : world.handler.readySock with
  | false =>
    rw [if_pos (by decide), readSock_idle ready]
    refine sound_same inv ((calm_readSock pc).mpr (by rw [ready]; exact fun _ _ => nofun)) ⟨rfl, rfl⟩ ⟨rfl, rfl⟩ rfl rfl
      (fun _ => ?_) (fun _ => ⟨nofun, nofun, nofun⟩) nofun (Or.inr live)
    rw [leftErr_elsewhere pc nofun]
    exact leftErr_elsewhere rfl nofun
  | true =>
    rw [if_neg (by decide)]
    cases queued : world.sock with
    | nil =>
      exact sound_same inv ((calm_readSock pc).mpr fun _ _ _ some => nomatch queued.symm.trans some) ⟨rfl, rfl⟩
        ⟨rfl, rfl⟩ rfl rfl (fun _ => rfl) inv.stops inv.returned (Or.inr live)
    | cons datagram sock =>
      dsimp only
      obtain ⟨next, logged⟩ := @readSock_received (world.answer setting stamp interrupted alloc
        (.received datagram.bytes)) world.handler datagram.bytes ready datagram.some rfl
      obtain ⟨⟨fault, crashed⟩, same, other⟩ | ⟨next, runs⟩ := next
      · exact received_crashed inv pc queued other crashed same logged
      · by_cases stop : kind (world.handler.buf.write (datagram.bytes.take bufSize)) = .stop
        · rw [decide_eq_false (not_not_intro stop), Bool.and_false] at runs
          exact received_stop inv pc ready queued stop next runs logged
        · rw [decide_eq_true stop, Bool.and_true] at runs
          exact received_other inv pc queued stop next runs logged

theorem call_ended (inv : Inv world) (pc : world.handler.pc = .returned ∨ ∃ fault, world.handler.pc = .crashed fault) :
    Sound world (.call stamp interrupted alloc) (world.call setting stamp interrupted alloc) := by
  have same : world.call setting stamp interrupted alloc = world := by
    obtain pc | ⟨fault, pc⟩ := pc <;> simp only [World.call, pc, Handler.step]
  have calm : Calm world (.call stamp interrupted alloc) := by
    obtain pc | ⟨fault, pc⟩ := pc <;> simp only [Calm, pc]
  rw [same]
  refine sound_same inv calm ⟨rfl, rfl⟩ ⟨rfl, rfl⟩ rfl rfl (fun _ => rfl) inv.stops inv.returned ?_
  obtain pc | crashed := pc
  · exact Or.inr fun fault => by rw [pc]; exact nofun
  · exact Or.inl crashed

/-- Closing a pipe and sending a datagram change nothing that is written. -/
theorem kept_sound (inv : Inv world) (calm : Calm world event)
    (out : after.out.taken = world.out.taken ∧ after.out.queue = world.out.queue)
    (err : after.err.taken = world.err.taken ∧ after.err.queue = world.err.queue)
    (handler : after.handler = world.handler) : Sound world event after := by
  have left : leftErr after = leftErr world := by rw [leftErr, leftErr, handler, err.2]
  refine sound_same inv calm out err (congrArg _ handler) (by rw [handler]) (fun _ => left) ?_ ?_ ?_
  · rw [handler]; exact inv.stops
  · rw [handler]; exact inv.returned
  · rw [handler]
    by_cases crashed : ∃ fault, world.handler.pc = .crashed fault
    · exact Or.inl crashed
    · exact Or.inr fun fault same => crashed ⟨fault, same⟩

theorem writeOut_sound (inv : Inv world) (bytes : Bytes) (isOpen : world.Open) :
    Sound world (.writeOut bytes) { world with out := world.out.write bytes } := by
  have live : ∀ fault, world.handler.pc ≠ .crashed fault := by
    intro fault crashed
    simp only [World.Open, crashed, Bool.false_eq_true] at isOpen
  have taken : (world.out.write bytes).taken = world.out.taken := by
    unfold Pipe.write
    split <;> rfl
  have left (out : Pipe) : leftErr { world with out } = leftErr world := rfl
  refine ⟨⟨?_, inv.stops, inv.returned⟩, fun kept => ?_, fun lost => Or.inl ⟨lost.1, lost.2.1, ?_⟩⟩
  · rw [taken]
    exact inv.merge
  · cases running : world.handler.vars.running with
    | true => simp [Calm, Lost, running]
    | false =>
      have nothing : ¬ (world.out.queue ≠ [] ∨ leftErr world ≠ []) := fun lost => kept ⟨running, live, lost⟩
      rw [not_or, not_not, not_not] at nothing
      cases closed : world.out.closed <;>
        simp [Calm, Lost, running, live, isOpen, closed, left, nothing.1, nothing.2, Pipe.write]
  · obtain queued | lost := lost.2.2
    · refine Or.inl ?_
      unfold Pipe.write
      split
      · exact queued
      · exact fun empty => queued (List.append_eq_nil_iff.mp empty).1
    · exact Or.inr lost

/-- What is left of stderr after a write, where it is read once more. -/
theorem leftErr_write (bytes : Bytes) :
    leftErr { world with err := { world.err with queue := world.err.queue ++ bytes } } =
      if world.handler.pc = .readErr ∧ world.handler.readyErr = true then (world.err.queue ++ bytes).drop bufSize
      else world.err.queue ++ bytes := rfl

theorem writeErr_sound (inv : Inv world) (bytes : Bytes) (isOpen : world.Open) :
    Sound world (.writeErr bytes) { world with err := world.err.write bytes } := by
  have live : ∀ fault, world.handler.pc ≠ .crashed fault := by
    intro fault crashed
    simp only [World.Open, crashed, Bool.false_eq_true] at isOpen
  cases closed : world.err.closed with
  | true =>
    rw [Pipe.write, if_pos closed]
    exact kept_sound inv (fun _ _ open' => nomatch open'.symm.trans closed) ⟨rfl, rfl⟩ ⟨rfl, rfl⟩ rfl
  | false =>
    rw [Pipe.write, if_neg (by rw [closed]; decide)]
    refine ⟨⟨inv.merge, inv.stops, inv.returned⟩, fun kept => ?_, fun lost => Or.inl ⟨lost.1, lost.2.1, ?_⟩⟩
    · cases running : world.handler.vars.running with
      | true => simp [Calm, Lost, running]
      | false =>
        have nothing : ¬ (world.out.queue ≠ [] ∨ leftErr world ≠ []) := fun lost => kept ⟨running, live, lost⟩
        rw [not_or, not_not, not_not, leftErr] at nothing
        rw [Lost, leftErr_write]
        by_cases reads : world.handler.pc = .readErr ∧ world.handler.readyErr = true
        · rw [if_pos reads] at nothing ⊢
          simp [Calm, running, isOpen, closed, reads, nothing.1]
          rintro rfl
          exact List.drop_eq_nil_iff.mp nothing.2
        · rw [if_neg reads] at nothing ⊢
          simp [Calm, running, isOpen, closed, live, nothing.1, nothing.2]
          exact fun pc ready => absurd ⟨pc, ready⟩ reads
    · obtain queued | lost := lost.2.2
      · exact Or.inl queued
      · refine Or.inr fun empty => lost ?_
        rw [leftErr_write] at empty
        rw [leftErr]
        split at empty
        · rw [if_pos ‹_›]
          rw [List.drop_append] at empty
          exact (List.append_eq_nil_iff.mp empty).1
        · rw [if_neg ‹_›]
          exact (List.append_eq_nil_iff.mp empty).1

theorem step_sound (inv : Inv world) (event : Event) : Sound world event (world.step setting event) := by
  cases event with
  | writeOut bytes =>
    rw [World.step]
    split
    · exact writeOut_sound inv bytes ‹_›
    · exact kept_sound inv (fun _ isOpen => absurd isOpen ‹_›) ⟨rfl, rfl⟩ ⟨rfl, rfl⟩ rfl
  | writeErr bytes =>
    rw [World.step]
    split
    · exact writeErr_sound inv bytes ‹_›
    · exact kept_sound inv (fun _ isOpen => absurd isOpen ‹_›) ⟨rfl, rfl⟩ ⟨rfl, rfl⟩ rfl
  | closeOut => exact kept_sound inv trivial ⟨rfl, rfl⟩ ⟨rfl, rfl⟩ rfl
  | closeErr => exact kept_sound inv trivial ⟨rfl, rfl⟩ ⟨rfl, rfl⟩ rfl
  | send datagram => exact kept_sound inv trivial ⟨rfl, rfl⟩ ⟨rfl, rfl⟩ rfl
  | call stamp interrupted alloc =>
    rw [World.step]
    cases pc : world.handler.pc with
    | top => exact call_top inv pc
    | select => exact call_select inv pc
    | checkPort => exact call_checkPort inv pc
    | readOut => exact call_readOut inv pc
    | readErr => exact call_readErr inv pc
    | readSock => exact call_readSock inv pc
    | returned => exact call_ended inv (Or.inl pc)
    | crashed fault => exact call_ended inv (Or.inr ⟨fault, pc⟩)

def start (buf : Buf) : World := { handler := { buf } }

theorem start_inv (buf : Buf) : Inv (start buf) where
  merge := .nil
  stops := nofun
  returned := nofun

theorem start_kept (buf : Buf) : ¬ Lost (start buf) := fun lost => nomatch lost.1

theorem run_inv (inv : Inv world) (events : List Event) : Inv (run (World.step setting) world events) := by
  induction events generalizing world with
  | nil => exact inv
  | cons event events ih => exact ih (step_sound inv event).inv

theorem run_crashed {fault : Fault} (crashed : world.handler.pc = .crashed fault) (events : List Event) :
    (run (World.step setting) world events).handler.pc = .crashed fault := by
  induction events generalizing world with
  | nil => exact crashed
  | cons event events ih =>
    refine ih ?_
    cases event <;> simp [World.step, World.Open, World.call, Handler.step, crashed]

/-- What is lost stays lost until the handler returns. -/
theorem run_lasting (inv : Inv world) (lost : Lost world) (events : List Event) :
    Lost (run (World.step setting) world events) ∨
      ∃ fault, (run (World.step setting) world events).handler.pc = .crashed fault := by
  induction events generalizing world with
  | nil => exact Or.inl lost
  | cons event events ih =>
    have sound : Sound world event (world.step setting event) := step_sound inv event
    obtain lost' | ⟨fault, crashed⟩ := sound.lasting lost
    · exact ih sound.inv lost'
    · exact Or.inr ⟨fault, run_crashed crashed events⟩

/-- When the handler has returned, the log is a merge of everything that was written to the pipes exactly
when every event was calm. -/
theorem logged_merge_iff (setting : Setting) (buf : Buf) (events : List Event)
    (returned : (run (World.step setting) (start buf) events).handler.pc = .returned) :
    Merge (run (World.step setting) (start buf) events).out.written
        (run (World.step setting) (start buf) events).err.written
        (run (World.step setting) (start buf) events).handler.logged ↔
      Guarded (World.step setting) Calm (start buf) events := by
  have guarded : (∀ first, first <+: events → ¬ Lost (run (World.step setting) (start buf) first)) ↔
      Guarded (World.step setting) Calm (start buf) events :=
    @guarded_iff_good _ _ (World.step setting) Calm (fun world => Inv world ∧ ¬ Lost world) (fun world => ¬ Lost world)
      (fun world event good calm => ⟨(step_sound good.1 event).inv, ((step_sound good.1 event).exact good.2).mp calm⟩)
      (fun world event good => (step_sound good.1 event).exact good.2)
      (start buf) ⟨start_inv buf, start_kept buf⟩ (start_kept buf) events
  have inv : Inv (run (World.step setting) (start buf) events) := run_inv (start_inv buf) events
  have final : (∀ first, first <+: events → ¬ Lost (run (World.step setting) (start buf) first)) ↔
      ¬ Lost (run (World.step setting) (start buf) events) := by
    refine ⟨fun each => each events List.prefix_rfl, fun kept first front lost => ?_⟩
    obtain ⟨rest, rfl⟩ := front
    rw [run_append] at kept returned
    obtain lost' | ⟨fault, crashed⟩ := run_lasting (run_inv (start_inv buf) first) lost rest
    · exact kept lost'
    · cases crashed.symm.trans returned
  rw [← guarded, final]
  generalize run (World.step setting) (start buf) events = world at *
  have left : leftErr world = world.err.queue := by
    simp only [leftErr, returned, reduceCtorEq, false_and, if_false]
  rw [Pipe.written, Pipe.written, inv.merge.complete_iff, Lost, left]
  simp [inv.returned returned, returned]

def tick : Event := .call [] false {}

def quietBuild : List Event :=
  [.writeOut (ascii "a"), .writeErr (ascii "b"), .closeOut, .closeErr] ++ List.replicate 11 tick

theorem quietBuild_logged :
    (run (World.step logSetting) (start zeros) quietBuild).handler.pc = .returned ∧
    Guarded (World.step logSetting) Calm (start zeros) quietBuild := by
  have returned : (run (World.step logSetting) (start zeros) quietBuild).handler.pc = .returned := by
    decide +kernel
  have out : (run (World.step logSetting) (start zeros) quietBuild).out.written = ascii "a" := by decide +kernel
  have err : (run (World.step logSetting) (start zeros) quietBuild).err.written = ascii "b" := by decide +kernel
  have logged : (run (World.step logSetting) (start zeros) quietBuild).handler.logged = ascii "a" ++ ascii "b" := by
    decide +kernel
  refine ⟨returned, (logged_merge_iff logSetting zeros quietBuild returned).mp ?_⟩
  rw [out, err, logged]
  exact (Merge.fst_list _).append_snd _

/-- The child closes stdout and then writes to stderr. -/
def earlyClose : List Event :=
  [.closeOut, tick, tick, .writeErr (ascii "error")] ++ List.replicate 4 tick

/-- The handler returns at the end of stdout, and what is in the pipe of stderr is not logged. -/
theorem earlyClose_lost :
    (run (World.step logSetting) (start zeros) earlyClose).handler.pc = .returned ∧
    (run (World.step logSetting) (start zeros) earlyClose).err.written = ascii "error" ∧
    (run (World.step logSetting) (start zeros) earlyClose).handler.logged = [] ∧
    ¬ Merge (run (World.step logSetting) (start zeros) earlyClose).out.written
        (run (World.step logSetting) (start zeros) earlyClose).err.written
        (run (World.step logSetting) (start zeros) earlyClose).handler.logged := by
  have err : (run (World.step logSetting) (start zeros) earlyClose).err.written = ascii "error" := by decide +kernel
  have logged : (run (World.step logSetting) (start zeros) earlyClose).handler.logged = [] := by decide +kernel
  refine ⟨by decide +kernel, err, logged, fun merge => ?_⟩
  have size := merge.length_eq
  rw [err, logged] at size
  exact absurd size (by simp [ascii])

end CBuild.Soundness.BuildOutput
