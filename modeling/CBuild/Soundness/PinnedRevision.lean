import CBuild.Machine.Run
import CBuild.Model.FetchPackage.Svn

/-! # Fetching a revision

A checkout is at the last revision, and the update to the revision that is wanted runs where the caller is; the
tarball is made of the working copy in any case, and later requests of the revision unpack it. Else the working
copy is at the wanted revision, or at a later one with the same files.
-/

namespace CBuild.Soundness.PinnedRevision

open CBuild.Machine CBuild.Svn CBuild.Model.FetchPackage

variable {Files : Type} (history : History Files)

/-- What a request is fetched with: its revision, where the caller is, and what the mirror has. -/
structure Request where
  rev : Option ℕ
  cwd : Cwd
  mirror : Option ℕ → Option ℕ

/-- A request, a commit, or the loss of a file in ENV_DOWN_DIR. -/
inductive Event
  | fetch (request : Request)
  | commit
  | losePackage
  | loseRecord
  | loseTarball (rev : Option ℕ)

/-- The last revision of the repository, and ENV_DOWN_DIR. -/
structure World where
  head : ℕ
  down : SvnDir := {}

def World.fetch (w : World) (request : Request) : SvnDir × Bool :=
  doFetchSvn history w.head request.rev request.cwd request.mirror w.down

def step (w : World) : Event → World
  | .fetch request => { w with down := (w.fetch history request).1 }
  | .commit => { w with head := w.head + 1 }
  | .losePackage => { w with down := { w.down with package := none } }
  | .loseRecord => { w with down := { w.down with checksrc := none } }
  | .loseTarball rev => { w with down := { w.down with tarballs := Function.update w.down.tarballs rev none } }

/-- The working copy or its record is missing. -/
def Missing (w : World) : Prop := w.down.package = none ∨ w.down.checksrc = none

/-- What the request then unpacks: the tarball under its name when there is a record, or the one of the mirror. -/
def unpacked (w : World) (request : Request) : Option ℕ :=
  if w.down.checksrc.isSome && (w.down.tarballs request.rev).isSome then w.down.tarballs request.rev
  else request.mirror request.rev

/-- The files are those of the revision, or of the last one, and the last change up to it is recorded. -/
def AtRevision (head : ℕ) (rev : Option ℕ) (down : SvnDir) : Prop :=
  ∃ base, down.package = some base ∧ history.Exists head (rev.getD head) ∧
    history.files base = history.files (rev.getD head) ∧
    down.checksrc = some (history.lastChange (rev.getD head))

/-- A fetch that succeeds ends at the revision, and a checkout of a revision that is there succeeds. -/
def Fetches (w : World) : Event → Prop
  | .fetch request =>
    ((w.fetch history request).2 = true → AtRevision history w.head request.rev (w.fetch history request).1) ∧
      (Missing w → unpacked w request = none → history.Exists w.head (request.rev.getD w.head) →
        (w.fetch history request).2 = true)
  | _ => True

/-- A tarball that is unpacked for a revision holds a working copy with the last change of the revision. Else the
caller is in a working copy of another repository that has the revision, and the path has not been changed since;
or neither repository has it. -/
def Sound (w : World) : Event → Prop
  | .fetch request => ∀ r, request.rev = some r → Missing w →
      match unpacked w request with
      | some base => history.Exists w.head r ∧ history.lastChange base = history.lastChange r
      | none =>
        if history.Exists w.head r then
          request.cwd.update r = true ∧ history.lastChange r = history.lastChange w.head
        else request.cwd.update r = false
  | _ => True

/-- The tarballs of the mirror hold working copies of this repository. -/
def Mirrored (w : World) : Event → Prop
  | .fetch request => ∀ base, request.mirror request.rev = some base → history.Exists w.head base
  | _ => True

/-- What every request leaves: working copies of this repository, whatever their names tell, and the last change
as the record. -/
structure Kept (w : World) : Prop where
  born : history.created ≤ w.head
  package : ∀ base, w.down.package = some base → history.Exists w.head base
  record : ∀ base change, w.down.package = some base → w.down.checksrc = some change →
    change = history.lastChange base
  tarball : ∀ rev base, w.down.tarballs rev = some base → history.Exists w.head base

variable {history} {w : World} {request : Request} {rev : Option ℕ} {base : ℕ} {down : SvnDir}

theorem Kept.tip (kept : Kept history w) : history.Exists w.head w.head := ⟨kept.born, Nat.le_refl _⟩

/-- The tarballs of ENV_DOWN_DIR hold working copies. -/
def Tarballs (history : History Files) (head : ℕ) (down : SvnDir) : Prop :=
  ∀ rev base, down.tarballs rev = some base → history.Exists head base

theorem tarballs_update {head : ℕ} {tarballs : Option ℕ → Option ℕ}
    (each : ∀ rev base, tarballs rev = some base → history.Exists head base) {made : Option ℕ}
    (there : ∀ base, made = some base → history.Exists head base) :
    ∀ rev' base, Function.update tarballs rev made rev' = some base → history.Exists head base := by
  intro rev' base found
  by_cases same : rev' = rev
  · subst same
    rw [Function.update_self] at found
    exact there base found
  · rw [Function.update_of_ne same] at found
    exact each rev' base found

theorem kept_store (kept : Kept history w) (each : Tarballs history w.head down)
    (there : history.Exists w.head base) : Kept history { w with down := storeSvn history rev base down } where
  born := kept.born
  package other same := by
    cases same
    exact there
  record other change same found := by
    cases same
    cases found
    rfl
  tarball := tarballs_update each fun other same => by
    cases same
    exact there

theorem kept_leave (kept : Kept history w) (each : Tarballs history w.head down)
    (there : history.Exists w.head base) : Kept history { w with down := leaveSvn rev base down } where
  born := kept.born
  package other same := by
    cases same
    exact there
  record other change _ found := by cases found
  tarball := tarballs_update each nofun

/-- A working copy with a record of its last change. -/
theorem kept_record (kept : Kept history w) (each : Tarballs history w.head down)
    (there : history.Exists w.head base) (package : down.package = some base)
    (record : down.checksrc = some (history.lastChange base)) : Kept history { w with down := down } where
  born := kept.born
  package other same := by
    rw [package] at same
    cases same
    exact there
  record other change same found := by
    rw [package] at same
    cases same
    rw [record] at found
    cases found
    rfl
  tarball := each

theorem atRevision_head {head : ℕ} (tip : history.Exists head head) (package : down.package = some head)
    (record : down.checksrc = some (history.lastChange head)) : AtRevision history head none down :=
  ⟨head, package, tip, rfl, record⟩

/-- A recorded working copy is at a revision exactly when the revision is there and has the same last change. -/
theorem atRevision_some {head r : ℕ} (package : down.package = some base)
    (record : down.checksrc = some (history.lastChange base)) :
    AtRevision history head (some r) down ↔
      history.Exists head r ∧ history.lastChange base = history.lastChange r := by
  constructor
  · rintro ⟨-, -, there, -, found⟩
    exact ⟨there, Option.some.inj (record.symm.trans found)⟩
  · rintro ⟨there, last⟩
    exact ⟨base, package, there, history.files_eq last, record.trans (congrArg some last)⟩

/-- A fetch ends at the revision when it succeeds, and leaves what requests leave. -/
structure Good (history : History Files) (w : World) (rev : Option ℕ) (result : SvnDir × Bool) : Prop where
  kept : Kept history { w with down := result.1 }
  revision : result.2 = true → AtRevision history w.head rev result.1

theorem good_head (kept : Kept history w) (each : Tarballs history w.head down) :
    Good history w none (storeSvn history none w.head down, true) :=
  ⟨kept_store kept each kept.tip, fun _ => atRevision_head kept.tip rfl rfl⟩

theorem good_leave (kept : Kept history w) (each : Tarballs history w.head down)
    (there : history.Exists w.head base) : Good history w rev (leaveSvn rev base down, false) :=
  ⟨kept_leave kept each there, nofun⟩

/-- A fetch that finds a working copy and its record. -/
theorem good_again (kept : Kept history w) (package : w.down.package = some base) {change : ℕ}
    (record : w.down.checksrc = some change) (rev : Option ℕ) :
    Good history w rev (fetchAgainSvn history w.head rev w.down base) := by
  have there := kept.package base package
  have recorded := kept.record base change package record
  subst recorded
  unfold fetchAgainSvn
  cases rev with
  | some r =>
    by_cases other : r = history.lastChange base
    · have exact' : history.Exists w.head r :=
        ⟨other ▸ history.created_le_lastChange there.1, other ▸ Nat.le_trans (history.lastChange_le base) there.2⟩
      have last : history.lastChange base = history.lastChange r := by rw [other, history.lastChange_lastChange]
      simp only [ne_eq, other, not_true_eq_false, if_false]
      rw [← other]
      split
      · exact ⟨kept_store kept kept.tarball there, fun _ => (atRevision_some rfl rfl).mpr ⟨exact', last⟩⟩
      · exact ⟨kept, fun _ => (atRevision_some package record).mpr ⟨exact', last⟩⟩
    · simp only [ne_eq, other, not_false_eq_true, if_true]
      split
      · next exact' =>
        exact ⟨kept_store kept kept.tarball exact', fun _ => (atRevision_some rfl rfl).mpr ⟨exact', rfl⟩⟩
      · exact good_leave kept kept.tarball kept.tip
  | none =>
    dsimp only
    split
    · exact good_head kept kept.tarball
    · next same =>
      have last : history.lastChange base = history.lastChange w.head := by
        by_contra changed
        exact same (.inl changed)
      rw [last] at record
      exact ⟨kept_record kept kept.tarball kept.tip rfl record, fun _ => atRevision_head kept.tip rfl record⟩

section Fresh

variable (kept : Kept history w) (mirrored : Mirrored history w (.fetch request))

include kept mirrored

theorem tarballs_unpack : Tarballs history w.head (unpackSvn request.rev request.mirror w.down) := by
  unfold unpackSvn
  split
  · exact kept.tarball
  · exact tarballs_update kept.tarball mirrored

theorem exists_unpacked (found : unpacked w request = some base) : history.Exists w.head base := by
  unfold unpacked at found
  split at found
  · exact kept.tarball _ _ found
  · exact mirrored _ found

/-- A request without a revision. -/
theorem good_tip (tip : request.rev = none) :
    Good history w none (fetchFreshSvn history w.head none request.cwd request.mirror w.down) ∧
      (fetchFreshSvn history w.head none request.cwd request.mirror w.down).2 = true := by
  have each := tip ▸ tarballs_unpack kept mirrored
  unfold fetchFreshSvn
  generalize unpackSvn none request.mirror w.down = down at *
  dsimp only
  split
  · exact ⟨good_head kept each, rfl⟩
  · next given => cases given
  · next given => cases given
  · split
    · exact ⟨good_head kept each, rfl⟩
    · exact ⟨⟨kept_record kept each kept.tip rfl rfl, fun _ => atRevision_head kept.tip rfl rfl⟩, rfl⟩

end Fresh

theorem package_unpack (w : World) (request : Request) :
    (unpackSvn request.rev request.mirror w.down).package = unpacked w request := by
  unfold unpackSvn unpacked
  split <;> rfl

/-- A tarball that is unpacked for a revision is recorded as it is. -/
theorem fresh_unpacked {r : ℕ} (given : request.rev = some r) (found : unpacked w request = some base) :
    fetchFreshSvn history w.head (some r) request.cwd request.mirror w.down =
      ({ unpackSvn request.rev request.mirror w.down with checksrc := some (history.lastChange base) }, true) := by
  rw [← package_unpack, given] at found
  unfold fetchFreshSvn
  simp only [given, found]

/-- A checkout is at the last revision, whether the update goes elsewhere or fails. -/
theorem fresh_checkout {r : ℕ} (given : request.rev = some r) (found : unpacked w request = none) :
    fetchFreshSvn history w.head (some r) request.cwd request.mirror w.down =
      if request.cwd.update r then
        (storeSvn history (some r) w.head (unpackSvn request.rev request.mirror w.down), true)
      else (leaveSvn (some r) w.head (unpackSvn request.rev request.mirror w.down), false) := by
  rw [← package_unpack, given] at found
  unfold fetchFreshSvn
  simp only [given, found]

theorem fetch_missing (missing : Missing w) (request : Request) :
    w.fetch history request = fetchFreshSvn history w.head request.rev request.cwd request.mirror w.down := by
  unfold World.fetch doFetchSvn
  cases package : w.down.package with
  | none => rfl
  | some base =>
    have none : w.down.checksrc = none := missing.resolve_left (by simp [package])
    simp [none]

theorem fetch_again {change : ℕ} (package : w.down.package = some base) (record : w.down.checksrc = some change)
    (request : Request) : w.fetch history request = fetchAgainSvn history w.head request.rev w.down base := by
  simp [World.fetch, doFetchSvn, package, record]

/-- What a request finds: the working copy with its record, or one of them is missing. -/
theorem missing_or_again (w : World) :
    Missing w ∨ ∃ base change, w.down.package = some base ∧ w.down.checksrc = some change := by
  unfold Missing
  cases w.down.package <;> cases w.down.checksrc <;> simp

/-- A fetch for a revision where the working copy or its record is missing. -/
theorem fetch_fresh (kept : Kept history w) (mirrored : Mirrored history w (.fetch request)) (missing : Missing w)
    {r : ℕ} (given : request.rev = some r) :
    (Fetches history w (.fetch request) ↔ Sound history w (.fetch request)) ∧
      Kept history (step history w (.fetch request)) := by
  have each := tarballs_unpack kept mirrored
  have sound : Sound history w (.fetch request) ↔
      match unpacked w request with
      | some base => history.Exists w.head r ∧ history.lastChange base = history.lastChange r
      | none =>
        if history.Exists w.head r then
          request.cwd.update r = true ∧ history.lastChange r = history.lastChange w.head
        else request.cwd.update r = false := by
    refine ⟨fun sound => sound r given missing, fun sound r' given' _ => ?_⟩
    cases given.symm.trans given'
    exact sound
  rw [sound, Fetches, step, fetch_missing missing, given]
  cases found : unpacked w request with
  | some base =>
    have there := exists_unpacked kept mirrored found
    rw [fresh_unpacked given found]
    have package := (package_unpack w request).trans found
    refine ⟨?_, kept_record kept each there package rfl⟩
    exact ((and_iff_left fun _ => nofun).trans (forall_prop_of_true rfl)).trans (atRevision_some package rfl)
  | none =>
    rw [fresh_checkout given found]
    cases request.cwd.update r with
    | true =>
      refine ⟨?_, kept_store kept each kept.tip⟩
      have revision : AtRevision history w.head (some r)
          (storeSvn history (some r) w.head (unpackSvn request.rev request.mirror w.down)) ↔ _ :=
        atRevision_some rfl rfl
      simp only [if_true, true_implies, implies_true, and_true, true_and]
      rw [revision, @eq_comm _ (history.lastChange w.head)]
      split <;> simp [*]
    | false =>
      refine ⟨?_, kept_leave kept each kept.tip⟩
      simp only [Bool.false_eq_true, if_false, false_implies, true_and, missing, true_implies, false_and, imp_false]
      split <;> simp [*]

/-- In a state that requests leave, a fetch does what it should exactly when it is sound. -/
theorem fetch_exact (kept : Kept history w) (mirrored : Mirrored history w (.fetch request)) :
    (Fetches history w (.fetch request) ↔ Sound history w (.fetch request)) ∧
      Kept history (step history w (.fetch request)) := by
  rcases missing_or_again w with missing | ⟨base, change, package, record⟩
  · cases given : request.rev with
    | some r => exact fetch_fresh kept mirrored missing given
    | none =>
      obtain ⟨good, success⟩ := good_tip kept mirrored given
      have result := @fetch_missing Files history w missing request
      rw [given] at result
      refine ⟨iff_of_true ?_ fun r other _ => ?_, ?_⟩
      · rw [Fetches, result, given]
        exact ⟨good.revision, fun _ _ _ => success⟩
      · rw [given] at other
        cases other
      · rw [step, result]
        exact good.kept
  · have there : ¬ Missing w := by simp [Missing, package, record]
    have good := good_again kept package record request.rev
    rw [← fetch_again package record request] at good
    exact ⟨iff_of_true ⟨good.revision, fun missing => absurd missing there⟩ fun r _ missing => absurd missing there,
      good.kept⟩

/-- In a state that requests leave, an event does what it should exactly when it is sound, and it leaves such a
state in any case. -/
theorem event_exact (w : World) (e : Event) (kept : Kept history w) (mirrored : Mirrored history w e) :
    (Fetches history w e ↔ Sound history w e) ∧ Kept history (step history w e) := by
  cases e with
  | fetch request => exact fetch_exact kept mirrored
  | commit =>
    refine ⟨Iff.rfl, Nat.le_succ_of_le kept.born, fun base package => ?_, kept.record, fun rev base found => ?_⟩
    · exact (kept.package base package).mono (Nat.le_succ _)
    · exact (kept.tarball rev base found).mono (Nat.le_succ _)
  | losePackage => exact ⟨Iff.rfl, kept.born, nofun, nofun, kept.tarball⟩
  | loseRecord => exact ⟨Iff.rfl, kept.born, kept.package, fun _ _ _ => nofun, kept.tarball⟩
  | loseTarball rev =>
    exact ⟨Iff.rfl, kept.born, kept.package, kept.record, tarballs_update kept.tarball nofun⟩

/-- After any requests, commits and losses, every fetch of a run ends at its revision when it succeeds, and every
checkout of a revision that is there succeeds, exactly when every tarball that is unpacked for a revision has its
last change and no checkout of a revision is made but in another working copy that does not matter. -/
theorem fetches_iff (history : History Files) (head : ℕ) (born : history.created ≤ head) (earlier events : List Event)
    (mirrored : Guarded (step history) (Mirrored history) { head } (earlier ++ events)) :
    Guarded (step history) (Fetches history) (run (step history) { head } earlier) events ↔
      Guarded (step history) (Sound history) (run (step history) { head } earlier) events := by
  obtain ⟨before, after⟩ := (guarded_append ..).mp mirrored
  have start : Kept history (run (step history) { head } earlier) :=
    before.invariant (fun w e kept mirrored => (event_exact w e kept mirrored).2) ⟨born, nofun, nofun, nofun⟩
  exact guarded_congr (fun w e kept mirrored _ => (event_exact w e kept mirrored).2)
    (fun w e kept mirrored => (event_exact w e kept mirrored).1) start after

def numbers : History ℕ where
  files r := r
  changed _ := true
  created := 1
  changed_created := rfl
  same _ unchanged := by cases unchanged

def ask (rev : Option ℕ) (cwd : Cwd) : Event := .fetch ⟨rev, cwd, fun _ => none⟩

def earlier : List Event := [ask none .outside, .commit]

/-- The revision before the last one is fetched, again from its tarball, and then the last one. -/
def back : List Event :=
  [ask (some 1) .outside, .losePackage, ask (some 1) .outside, ask none .outside]

theorem back_fetched :
    Guarded (step numbers) (Fetches numbers) (run (step numbers) { head := 1 } earlier) back ∧
      (run (step numbers) { head := 1 } (earlier ++ back.take 3)).down.package = some 1 ∧
      (run (step numbers) { head := 1 } (earlier ++ back)).down.package = some 2 := by
  have mirrored : Guarded (step numbers) (Mirrored numbers) { head := 1 } (earlier ++ back) :=
    ⟨nofun, trivial, nofun, trivial, nofun, nofun, trivial⟩
  refine ⟨(fetches_iff numbers 1 (Nat.le_refl 1) earlier back mirrored).mpr ⟨?_, trivial, ?_, nofun, trivial⟩,
    rfl, rfl⟩
  · exact fun r _ missing => absurd missing (by unfold Missing; decide)
  · intro r given _
    cases given
    exact ⟨⟨by decide, by decide⟩, rfl⟩

/-- A checkout of the first revision fails, or stays at the last one when another working copy is updated
instead; the tarball that this leaves is taken for the first revision later. -/
theorem checkout_misses :
    ¬ Guarded (step numbers) (Fetches numbers) { head := 2 } [ask (some 1) .outside] ∧
      ¬ Guarded (step numbers) (Fetches numbers) { head := 2 } [ask (some 1) (.other 5)] ∧
      ¬ Guarded (step numbers) (Fetches numbers)
        (run (step numbers) { head := 2 } [ask (some 1) (.other 5), .losePackage])
        [ask (some 1) .outside] := by
  refine ⟨?_, ?_, ?_⟩
  · rintro ⟨fetches, -⟩
    exact absurd (fetches.2 (.inl rfl) rfl ⟨by decide, by decide⟩) (by decide)
  all_goals
    rintro ⟨fetches, -⟩
    obtain ⟨base, package, -, files, -⟩ := fetches.1 (by decide)
    cases package
    exact absurd files (by decide)

end CBuild.Soundness.PinnedRevision
