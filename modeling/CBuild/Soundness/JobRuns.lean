import CBuild.Soundness.ProgressCounters
import CBuild.Soundness.RunningJobs

/-! # Runs of the list in memory

Whatever the datagrams are, the list in memory goes through the states of the list of packages: no pointer to `NULL` or
to a freed node is followed, and each loop ends. A run ends early where the list of packages has a fault too, or where
`malloc` gives out what is in use.
-/

namespace CBuild.Soundness.JobRuns

open CBuild.Machine CBuild.Model.Progress JobList

/-- A datagram, what the buffer held before, and where `malloc` finds a node. -/
structure Arrival where
  left : Buf
  datagram : Bytes
  addr : ℕ

def Arrival.event (arrival : Arrival) : ProgressCounters.Event := ⟨arrival.left, arrival.datagram, {}⟩

/-- The loop takes a datagram as long as it is running. -/
def receive (turns : ℕ) (jobs : Jobs) (arrival : Arrival) : Except Failure Jobs :=
  if jobs.running then processJobDatagram turns arrival.left arrival.datagram arrival.addr jobs else .ok jobs

def step (turns : ℕ) (state : Except Failure Jobs) (arrival : Arrival) : Except Failure Jobs :=
  state.bind (receive turns · arrival)

/-- The variables and the list in memory are those of the list of packages, of so many packages at most. -/
def Simulates (size : ℕ) (state : Except Failure Jobs) (abstract : Except Fault Vars) : Prop :=
  state = .error .busy ∨ (∃ fault, state = .error (.fault fault) ∧ abstract = .error fault) ∨
  ∃ jobs entries, state = .ok jobs ∧ abstract = .ok (vars jobs (entries.map Prod.snd)) ∧
    Represents jobs.heap entries ∧ entries.length ≤ size

variable {turns size num : ℕ} {buf buf' : Buf} {v after : Vars} {jobs : Jobs} {entries : List (ℕ × Pkg)}
  {arrival : Arrival}

theorem beginPkg_length {alloc : Alloc} (begun : beginPkg buf num alloc v = .ok after) :
    after.pkgs.length ≤ v.pkgs.length + 1 := by
  unfold beginPkg at begun
  cases copied : copyName buf 6 num with
  | error fault => rw [copied] at begun; cases begun
  | ok tmp =>
    rw [copied] at begun
    dsimp only [bind, Except.bind] at begun
    cases node : alloc.node <;> rw [node] at begun <;> cases begun
    exact (List.length_append ..).le

theorem endPkg_length {line : Bytes} (ended : endPkg buf num v = .ok (after, line)) :
    after.pkgs.length ≤ v.pkgs.length := by
  cases copied : copyName buf 4 num with
  | error fault => rw [endPkg, copied] at ended; cases ended
  | ok tmp =>
    rw [endPkg_eq v copied] at ended
    cases known : findPkg (cname tmp) v.pkgs with
    | error fault => rw [known] at ended; cases ended
    | ok found =>
      rw [known] at ended
      dsimp only [Except.bind] at ended
      cases quotient : percentOf (nextFinished v) v.totalPkg with
      | error fault => rw [quotient] at ended; cases ended
      | ok percent =>
        rw [quotient] at ended
        dsimp only at ended
        cases drawn : barLine percent (nextFinished v) v.totalPkg tmp with
        | error fault => rw [drawn] at ended; cases ended
        | ok line =>
          rw [drawn] at ended
          cases ended
          exact List.length_eraseP_le

theorem processMessage_length {alloc : Alloc} (done : processMessage buf num alloc v = .ok (after, buf')) :
    after.pkgs.length ≤ v.pkgs.length + 1 := by
  unfold processMessage at done
  cases message : kind buf <;> rw [message] at done <;> dsimp only at done
  case stop | total | other => cases done; exact Nat.le_succ _
  case begins =>
    cases begun : beginPkg buf num alloc v with
    | error fault => rw [begun] at done; cases done
    | ok next =>
      rw [begun] at done
      cases done
      exact beginPkg_length begun
  case ends =>
    by_cases counted : v.totalPkg ≠ 0
    · rw [if_pos counted] at done
      cases ended : endPkg buf num v with
      | error fault => rw [ended] at done; cases done
      | ok result =>
        rw [ended] at done
        cases done
        exact (endPkg_length ended).trans (Nat.le_succ _)
    · rw [if_neg counted] at done
      cases done
      exact Nat.le_succ _

theorem receive_simulates (represents : Represents jobs.heap entries) (enough : entries.length < turns) :
    Simulates (entries.length + 1) (receive turns jobs arrival)
      (ProgressCounters.receive (vars jobs (entries.map Prod.snd)) arrival.event) := by
  unfold receive ProgressCounters.receive
  have running : (vars jobs (entries.map Prod.snd)).running = jobs.running := rfl
  rw [running]
  by_cases goes : jobs.running = true
  · rw [if_pos goes, if_pos goes]
    unfold processJobDatagram processDatagram
    dsimp only [Arrival.event]
    by_cases empty : arrival.datagram.take bufSize = []
    · rw [if_pos empty, if_pos empty]
      exact Or.inr (Or.inr ⟨_, entries, rfl, rfl, represents, Nat.le_succ _⟩)
    · rw [if_neg empty, if_neg empty]
      obtain busy | ⟨fault, failed, failed'⟩ | ⟨after, entries', buf', done, represents', done'⟩ :=
        @processJob_refines arrival.addr entries jobs turns (arrival.datagram.take bufSize).length
          (arrival.left.write (arrival.datagram.take bufSize)) represents enough
      · exact Or.inl busy
      · exact Or.inr (Or.inl ⟨fault, failed, by rw [failed']; rfl⟩)
      · have length := processMessage_length done'
        change (entries'.map Prod.snd).length ≤ (entries.map Prod.snd).length + 1 at length
        rw [List.length_map, List.length_map] at length
        exact Or.inr (Or.inr ⟨after, entries', done, by rw [done']; rfl, represents', length⟩)
  · rw [if_neg goes, if_neg goes]
    exact Or.inr (Or.inr ⟨jobs, entries, rfl, rfl, represents, Nat.le_succ _⟩)

theorem run_error (failure : Failure) (arrivals : List Arrival) :
    run (step turns) (.error failure) arrivals = .error failure := by
  induction arrivals with
  | nil => rfl
  | cons arrival arrivals ih => exact ih

theorem run_fault (fault : Fault) (events : List ProgressCounters.Event) :
    run ProgressCounters.step (.error fault) events = .error fault := by
  induction events with
  | nil => rfl
  | cons event events ih => exact ih

theorem run_simulates (represents : Represents jobs.heap entries) (arrivals : List Arrival)
    (enough : entries.length + arrivals.length < turns) :
    Simulates (entries.length + arrivals.length) (run (step turns) (.ok jobs) arrivals)
      (run ProgressCounters.step (.ok (vars jobs (entries.map Prod.snd))) (arrivals.map Arrival.event)) := by
  induction arrivals generalizing jobs entries with
  | nil => exact Or.inr (Or.inr ⟨jobs, entries, rfl, rfl, represents, Nat.le_refl _⟩)
  | cons arrival arrivals ih =>
    rw [List.length_cons] at enough
    rw [run_cons, List.map_cons, run_cons]
    change Simulates _ (run _ (receive turns jobs arrival) _) (run _ (ProgressCounters.receive _ arrival.event) _)
    obtain busy | ⟨fault, failed, failed'⟩ | ⟨after, entries', done, done', represents', length⟩ :=
      @receive_simulates turns jobs entries arrival represents (by omega)
    · rw [busy, run_error]
      exact Or.inl rfl
    · rw [failed, failed', run_error, run_fault]
      exact Or.inr (Or.inl ⟨fault, rfl, rfl⟩)
    · rw [done, done']
      obtain busy | faulty | ⟨last, entries'', done'', abstract, represents'', length'⟩ := ih represents' (by omega)
      · exact Or.inl busy
      · exact Or.inr (Or.inl faulty)
      · refine Or.inr (Or.inr ⟨last, entries'', done'', abstract, represents'', ?_⟩)
        rw [List.length_cons]
        omega

/-- In every run the list in memory is the list of packages, and the clean-up frees each of its nodes once. -/
theorem datagrams_simulate (arrivals : List Arrival) (enough : arrivals.length < turns) :
    Simulates arrivals.length (run (step turns) (.ok {}) arrivals)
      (run ProgressCounters.step (.ok {}) (arrivals.map Arrival.event)) ∧
    ∀ jobs, run (step turns) (.ok {}) arrivals = .ok jobs → RunningJobs.CleansUp turns jobs := by
  have simulates := @run_simulates turns {} [] represents_init arrivals (by rwa [List.length_nil, Nat.zero_add])
  rw [List.length_nil, Nat.zero_add] at simulates
  refine ⟨simulates, fun jobs ran => ?_⟩
  obtain busy | ⟨fault, failed, -⟩ | ⟨last, entries, done, -, represents, length⟩ := simulates
  · cases busy.symm.trans ran
  · cases failed.symm.trans ran
  · cases done.symm.trans ran
    exact RunningJobs.cleansUp represents (by omega)

private def twoJobs : List Arrival :=
  [⟨zeros, ascii "total=3", 1⟩, ⟨zeros, ascii "begin=lib", 1⟩, ⟨zeros, ascii "begin=app", 2⟩, ⟨zeros, ascii "end=lib", 3⟩,
    ⟨zeros, ascii "begin=doc", 1⟩]

/-- The node of the first package is freed in the middle of the run, and given out again. -/
theorem twoJobs_simulate : ∃ jobs, run (step 6) (.ok {}) twoJobs = .ok jobs ∧ RunningJobs.CleansUp 6 jobs := by
  cases ran : run (step 6) (.ok {}) twoJobs with
  | error failure =>
    have fine : (run (step 6) (.ok {}) twoJobs).toOption.isSome = true := by decide +kernel
    rw [ran] at fine
    cases fine
  | ok jobs => exact ⟨jobs, rfl, (@datagrams_simulate 6 twoJobs (by decide)).2 jobs ran⟩

end CBuild.Soundness.JobRuns
