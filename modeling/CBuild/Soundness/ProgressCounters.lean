import CBuild.Machine.Run
import CBuild.Model.Progress.Datagram

/-! # The counters of the progress bar

`total_pkg` is what the last `total=` said, while `finished_pkg` only grows. The counters stay in range as
long as no total is below what is finished, and the percentage is computed from numbers that fit.
-/

namespace CBuild.Soundness.ProgressCounters

open CBuild.Machine CBuild.Model.Progress

/-- A datagram, what the buffer holds when it arrives, and the memory that there is for it. -/
structure Event where
  left : Buf
  datagram : Bytes
  alloc : Alloc

def Event.num (event : Event) : ℕ := (event.datagram.take bufSize).length

def Event.buf (event : Event) : Buf := event.left.write (event.datagram.take bufSize)

/-- The variables after the datagrams so far, unless one of them ended in a fault. -/
abbrev State := Except Fault Vars

/-- The loop takes a datagram as long as it is running. -/
def receive (v : Vars) (event : Event) : State :=
  if v.running then (processDatagram event.left event.datagram event.alloc v).map Prod.fst else .ok v

def step (state : State) (event : Event) : State := state.bind (receive · event)

/-- `finished_pkg` and `percent` are in range. -/
structure InRange (v : Vars) : Prop where
  finished : 0 < v.totalPkg → 0 ≤ v.finishedPkg ∧ v.finishedPkg ≤ v.totalPkg
  percent : 0 ≤ v.percent ∧ v.percent ≤ 100

/-- The counters are in range. Nothing overflowed, was divided by zero or was out of the bounds of `space`; a
negative length of a copy and a name that is `NULL` end the run. -/
def Good : State → Prop
  | .ok v => InRange v
  | .error fault => fault = .copyLength ∨ fault = .null

/-- A positive total is not below what is finished. -/
def CarefulTotal (buf : Buf) (num : ℕ) (v : Vars) : Prop :=
  0 < atoi ((buf.set num 0).cstr (bufSize - 6) 6) → v.finishedPkg ≤ atoi ((buf.set num 0).cstr (bufSize - 6) 6)

/-- Where a package ends, what is finished can be multiplied by 100, and is a small part of a total that is
negative. -/
def CarefulEnd (buf : Buf) (num : ℕ) (v : Vars) : Prop :=
  v.totalPkg ≠ 0 → ∀ tmp found, copyName buf 4 num = .ok tmp → findPkg (cname tmp) v.pkgs = .ok found →
    100 * nextFinished v ≤ intMax ∧ (v.totalPkg < 0 → 100 * nextFinished v < -v.totalPkg)

def Careful (v : Vars) (event : Event) : Prop :=
  v.running = true → event.num ≠ 0 →
    (kind event.buf = .total → CarefulTotal event.buf event.num v) ∧
    (kind event.buf = .ends → CarefulEnd event.buf event.num v)

def allowed (state : State) (event : Event) : Prop := ∀ v, state = .ok v → Careful v event

/-- Nothing is finished that was not counted. -/
structure Inv (v : Vars) : Prop where
  inRange : InRange v
  nonneg : 0 ≤ v.finishedPkg

/-- The bar is cut inside of `space` for each percentage. -/
theorem barLine_ok {percent : ℤ} (range : 0 ≤ percent ∧ percent ≤ 100) (finishedPkg totalPkg : ℤ) (tmp : Bytes) :
    ∃ line, barLine percent finishedPkg totalPkg tmp = .ok line := by
  have inside : ¬ (percent.tdiv 2 < 0 ∨ 51 < percent.tdiv 2 + 1) := by
    rw [Int.tdiv_eq_ediv_of_nonneg range.1]
    omega
  unfold barLine
  split
  · exact ⟨_, rfl⟩
  split
  · exact ⟨_, rfl⟩
  rw [if_neg inside]
  exact ⟨_, rfl⟩

theorem nextFinished_nonneg {v : Vars} (nonneg : 0 ≤ v.finishedPkg) : 0 ≤ nextFinished v := by
  unfold nextFinished
  split <;> omega

theorem nextFinished_le {v : Vars} (inv : Inv v) (positive : 0 < v.totalPkg) : nextFinished v ≤ v.totalPkg := by
  have below := inv.inRange.finished positive
  unfold nextFinished
  split <;> omega

/-- The quotient is a percentage of a positive total, and zero or negative for a negative one. -/
theorem percent_range_iff {finished total : ℤ} (nonneg : 0 ≤ finished) (below : 0 < total → finished ≤ total)
    (nonzero : total ≠ 0) :
    (0 ≤ (100 * finished).tdiv total ∧ (100 * finished).tdiv total ≤ 100) ↔ (total < 0 → 100 * finished < -total) := by
  obtain negative | positive := lt_or_gt_of_ne nonzero
  · have quotient : (100 * finished).tdiv total = -((100 * finished) / (-total)) := by
      rw [← neg_neg total, Int.tdiv_neg, neg_neg, Int.tdiv_eq_ediv_of_nonneg (by omega)]
    have size : 0 ≤ (100 * finished) / (-total) := Int.ediv_nonneg (by omega) (by omega)
    have small : (100 * finished) / (-total) ≤ 0 ↔ 100 * finished < -total := by
      rw [← Int.lt_add_one_iff, zero_add, Int.ediv_lt_iff_lt_mul (by omega), one_mul]
    rw [quotient]
    exact ⟨fun range _ => small.mp (by omega), fun part => by have := small.mpr (part negative); omega⟩
  · have quotient : (100 * finished).tdiv total = (100 * finished) / total :=
      Int.tdiv_eq_ediv_of_nonneg (by omega)
    have low : 0 ≤ (100 * finished) / total := Int.ediv_nonneg (by omega) (by omega)
    have high : (100 * finished) / total ≤ 100 := by
      apply Int.ediv_le_of_le_mul positive
      have := below positive
      omega
    rw [quotient]
    exact iff_of_true ⟨low, high⟩ fun negative => absurd negative (by omega)

/-- A package that ends keeps the counters in range exactly when the percentage can be computed from them. -/
theorem endPkg_good_iff {v : Vars} (inv : Inv v) (nonzero : v.totalPkg ≠ 0) {num : ℕ} {buf : Buf} {tmp : Bytes}
    {found : Bool} (copied : copyName buf 4 num = .ok tmp) (known : findPkg (cname tmp) v.pkgs = .ok found) :
    Good ((endPkg buf num v).map Prod.fst) ↔
      100 * nextFinished v ≤ intMax ∧ (v.totalPkg < 0 → 100 * nextFinished v < -v.totalPkg) := by
  have nonneg := nextFinished_nonneg inv.nonneg
  have range_iff := percent_range_iff nonneg (nextFinished_le inv) nonzero
  rw [endPkg_eq v copied, known, percentOf]
  by_cases fits : 100 * nextFinished v ≤ intMax
  · rw [if_neg (by simp only [intMin]; omega), if_neg nonzero, ← range_iff]
    refine Iff.trans ?_ (and_iff_right fits).symm
    constructor
    · intro good
      cases drawn : barLine ((100 * nextFinished v).tdiv v.totalPkg) (nextFinished v) v.totalPkg tmp with
      | error fault =>
        simp only [Except.bind, drawn, Except.map, Good, barLine_error drawn] at good
        exact absurd good (by decide)
      | ok line =>
        simp only [Except.bind, drawn, Except.map, Good] at good
        exact good.percent
    · intro range
      obtain ⟨line, drawn⟩ := barLine_ok range (nextFinished v) v.totalPkg tmp
      simp only [Except.bind, drawn, Except.map, Good]
      exact ⟨fun positive => ⟨nonneg, nextFinished_le inv positive⟩, range⟩
  · rw [if_pos (Or.inr (by omega))]
    simp only [Except.bind, Except.map, Good]
    exact iff_of_false (by decide) fun careful => fits careful.1

/-- The condition on a package that ends. -/
theorem endPkg_careful_iff {v : Vars} (inv : Inv v) (nonzero : v.totalPkg ≠ 0) (buf : Buf) (num : ℕ) :
    Good ((endPkg buf num v).map Prod.fst) ↔ CarefulEnd buf num v := by
  cases copied : copyName buf 4 num with
  | error fault =>
    rw [endPkg, copied, copyName_fault copied]
    refine iff_of_true (Or.inl rfl) fun _ tmp found copied' => ?_
    cases copied.symm.trans copied'
  | ok tmp =>
    cases known : findPkg (cname tmp) v.pkgs with
    | error fault =>
      rw [endPkg_eq v copied, known, findPkg_error known]
      refine iff_of_true (Or.inr rfl) fun _ tmp' found copied' known' => ?_
      cases copied.symm.trans copied'
      cases known.symm.trans known'
    | ok found =>
      rw [endPkg_good_iff inv nonzero copied known]
      exact ⟨fun careful _ _ _ _ _ => careful, fun careful => careful nonzero tmp found copied known⟩

theorem beginPkg_good {v : Vars} (range : InRange v) (buf : Buf) (num : ℕ) (alloc : Alloc) :
    Good (beginPkg buf num alloc v) := by
  unfold beginPkg
  cases copied : copyName buf 6 num with
  | error fault => rw [copyName_fault copied]; exact Or.inl rfl
  | ok tmp =>
    cases node : alloc.node
    · exact Or.inr rfl
    · exact ⟨range.finished, range.percent⟩

/-- The condition on a message of a kind. -/
theorem processMessage_good_iff {v : Vars} (inv : Inv v) (buf : Buf) (num : ℕ) (alloc : Alloc) :
    Good ((processMessage buf num alloc v).map Prod.fst) ↔
      (kind buf = .total → CarefulTotal buf num v) ∧ (kind buf = .ends → CarefulEnd buf num v) := by
  rw [processMessage]
  cases message : kind buf with
  | stop => exact iff_of_true ⟨inv.inRange.finished, inv.inRange.percent⟩ ⟨nofun, nofun⟩
  | other => exact iff_of_true inv.inRange ⟨nofun, nofun⟩
  | total =>
    constructor
    · intro good
      exact ⟨fun _ positive => (InRange.finished good positive).2, nofun⟩
    · rintro ⟨notBelow, -⟩
      exact ⟨fun positive => ⟨inv.nonneg, notBelow rfl positive⟩, inv.inRange.percent⟩
  | begins =>
    refine iff_of_true ?_ ⟨nofun, nofun⟩
    have good := beginPkg_good inv.inRange buf num alloc
    cases begun : beginPkg buf num alloc v with
    | error fault => rwa [begun] at good
    | ok after => rwa [begun] at good
  | ends =>
    simp only [reduceCtorEq, false_implies, true_and, forall_const]
    by_cases zero : v.totalPkg = 0
    · rw [if_neg (not_not_intro zero)]
      exact iff_of_true inv.inRange fun nonzero => absurd zero nonzero
    · rw [if_pos zero, ← endPkg_careful_iff inv zero]
      cases endPkg buf num v <;> rfl

theorem processMessage_finished {v after : Vars} {buf left : Buf} {num : ℕ} {alloc : Alloc}
    (done : processMessage buf num alloc v = .ok (after, left)) :
    after.finishedPkg = v.finishedPkg ∨ after.finishedPkg = nextFinished v := by
  rw [processMessage] at done
  cases message : kind buf <;> simp only [message] at done
  case stop | total | other => cases done; exact Or.inl rfl
  case begins =>
    cases begun : beginPkg buf num alloc v with
    | error fault => rw [begun] at done; cases done
    | ok begins => rw [begun] at done; cases done; exact Or.inl (beginPkg_ok begun).1
  case ends =>
    split at done
    · cases ended : endPkg buf num v with
      | error fault => rw [ended] at done; cases done
      | ok result => rw [ended] at done; cases done; exact Or.inr (endPkg_ok ended).1
    · cases done
      exact Or.inl rfl

/-- A datagram keeps the counters in range exactly when it is careful. -/
theorem receive_good_iff {v : Vars} (inv : Inv v) (event : Event) : Careful v event ↔ Good (receive v event) := by
  unfold Careful receive processDatagram
  by_cases running : v.running = true
  · by_cases empty : event.datagram.take bufSize = []
    · have none : event.num = 0 := congrArg List.length empty
      rw [if_pos running, if_pos empty]
      exact iff_of_true (fun _ some => absurd none some) ⟨inv.inRange.finished, inv.inRange.percent⟩
    · have some : event.num ≠ 0 := mt List.length_eq_zero_iff.mp empty
      rw [if_pos running, if_neg empty]
      exact Iff.trans ⟨fun careful => careful running some, fun careful _ _ => careful⟩
        (processMessage_good_iff inv event.buf event.num event.alloc).symm
  · rw [if_neg running]
    exact iff_of_true (fun running' => absurd running' running) inv.inRange

theorem receive_finished {v after : Vars} {event : Event} (done : receive v event = .ok after) :
    after.finishedPkg = v.finishedPkg ∨ after.finishedPkg = nextFinished v := by
  unfold receive processDatagram at done
  split at done
  · simp only at done
    split at done
    · cases done
      exact Or.inl rfl
    · cases processed : processMessage event.buf event.num event.alloc v with
      | error fault => simp only [Event.buf, Event.num] at processed; rw [processed] at done; cases done
      | ok result =>
        have finished := processMessage_finished processed
        simp only [Event.buf, Event.num] at processed
        rw [processed] at done
        cases done
        exact finished
  · cases done
    exact Or.inl rfl

/-- Nothing was finished that was not counted, in the variables that are left. -/
def StateInv : State → Prop
  | .ok v => Inv v
  | .error fault => fault = .copyLength ∨ fault = .null

theorem step_preserves (state : State) (event : Event) (inv : StateInv state) (careful : allowed state event) :
    StateInv (step state event) := by
  cases state with
  | error fault => exact inv
  | ok v =>
    have good : Good (receive v event) := (receive_good_iff inv event).mp (careful v rfl)
    change StateInv (receive v event)
    cases done : receive v event with
    | error fault =>
      rw [done] at good
      exact good
    | ok after =>
      rw [done] at good
      have nonneg := inv.nonneg
      have counted := nextFinished_nonneg nonneg
      obtain same | counts := receive_finished done
      · exact ⟨good, by omega⟩
      · exact ⟨good, by omega⟩

theorem step_good_iff (state : State) (event : Event) (inv : StateInv state) :
    allowed state event ↔ Good (step state event) := by
  cases state with
  | error fault => exact iff_of_true nofun inv
  | ok v =>
    refine Iff.trans ?_ (receive_good_iff inv event)
    exact ⟨fun careful => careful v rfl, fun careful w same => by cases same; exact careful⟩

theorem initial_inv : Inv {} := ⟨⟨fun _ => by decide, by decide⟩, by decide⟩

/-- The counters are in range along the datagrams exactly when each of them is careful. -/
theorem counters_inRange_iff (events : List Event) :
    (∀ first, first <+: events → Good (run step (.ok {}) first)) ↔ Guarded step allowed (.ok {}) events :=
  guarded_iff_good step_preserves step_good_iff (show StateInv (.ok {}) from initial_inv) initial_inv.inRange events

/-- Datagrams that each find a buffer of zeros, and memory. -/
def messages (texts : List String) : List Event := texts.map fun text => ⟨zeros, ascii text, {}⟩

def counters : State → Option (ℤ × ℤ × ℤ)
  | .ok v => some (v.totalPkg, v.finishedPkg, v.percent)
  | .error _ => none

example : counters (run step (.ok {}) (messages ["total=2", "begin=a", "end=a", "end=b"])) = some (2, 2, 100) := by
  decide +kernel

/-- Ten packages are announced and five are finished; then a total of three is announced, and one more is
finished. -/
def smallerTotal : List Event :=
  messages ["total=10", "end=a", "end=b", "end=c", "end=d", "end=e", "total=3", "end=f"]

/-- Five of three packages are 166 percent, and the bar is cut behind its end. -/
theorem smallerTotal_barIndex :
    counters (run step (.ok {}) (smallerTotal.take 7)) = some (3, 5, 50) ∧
    run step (.ok {}) smallerTotal = .error .barIndex ∧
    ¬ ∀ first, first <+: smallerTotal → Good (run step (.ok {}) first) := by
  have outside : run step (.ok {}) smallerTotal = .error .barIndex := by decide +kernel
  refine ⟨by decide +kernel, outside, fun always => ?_⟩
  have good := always smallerTotal List.prefix_rfl
  rw [outside] at good
  obtain fault | fault := good <;> cases fault

end CBuild.Soundness.ProgressCounters
