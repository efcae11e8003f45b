import CBuild.Machine.Run
import CBuild.Model.FetchPackage.Unpack
import CBuild.Soundness.FetchAgreement

/-! # Interrupted unpacking

`do_unpack` takes `$outdir/$outname` for complete when its checksum file has the record of the download. The file
is written last, and the exit status of `unzip` and `tar` is looked at before; that of the `cp` for git and
svn is not, so a copy that fails gets its record all the same. Nor is it looked at whether an archive had anything of
the name.
-/

namespace CBuild.Soundness.UnpackTrust

open CBuild.Machine CBuild.Text CBuild.Model.FetchPackage

/-- The fetchers of the script. -/
inductive IsMethod : Fetcher → Prop
  | archives {Content : Type} (md5sum : Content → Text) : IsMethod (archives md5sum)
  | gitClones {Commit : Type} [DecidableEq Commit] (history : CBuild.Git.History Commit) (hash : Commit → Text) :
      IsMethod (gitClones history hash)
  | svnCopies {Files : Type} (history : CBuild.Svn.History Files) : IsMethod (svnCopies history)

variable (f : Fetcher)

/-- The checksum file has the recorded checksum of the download. -/
def Marked (s : Work f) : Prop :=
  ∃ record, f.checksrc s.down = some record ∧ s.checkdst = some (.record record)

/-- `$outdir/$outname` is all of a download with the recorded checksum. -/
def Complete (s : Work f) : Prop :=
  ∃ content, s.outname = some (.whole content) ∧ f.checksrc s.down = some (f.sum content)

/-- What has the recorded checksum is complete, and what `do_unpack` leaves with success is. -/
structure Trustworthy (s : Work f) : Prop where
  taken : s.outname.isSome = true → Marked f s → Complete f s
  returned : s.returned = true → Marked f s ∧ Complete f s

variable (unpacks : f.Content → Bool)

/-- The download holds something named `$outname`. -/
def Named (s : Work f) : Prop := ∀ content, f.package s.down = some content → unpacks content = true

/-- Removing what was unpacked before does not fail, unless all of it is gone, and is not killed when a part of it
is gone and its checksum file is there; what is unpacked or copied holds something named `$outname`, and a copy of git
or svn does not fail unless all of it is done; and what a cut copy of the record leaves is not the record of another
download. -/
def EffectSound (s : Work f) : Effect → Outcome (Left f.Record) → Prop
  | .rmOutname, .failed left =>
    (leaves f unpacks s left .rmOutname).outname = none ∧ (leaves f unpacks s left .rmOutname).checkdst = none
  | .rmOutname, .killed left =>
    (leaves f unpacks s left .rmOutname).checkdst = none ∨
      (leaves f unpacks s left .rmOutname).outname = s.outname
  | .unpack, .success => Named f unpacks s
  | .unpack, .failed left => f.copied = true → left.tree = .all ∧ Named f unpacks s
  | .copyRecord, .failed left | .copyRecord, .killed left =>
    left.record = .part → ∀ content, left.mark ≠ .record (f.sum content)
  | _, _ => True

theorem effectSound_success {s : Work f} (named : Named f unpacks s) (effect : Effect) :
    EffectSound f unpacks s effect .success := by
  cases effect with
  | unpack => exact named
  | _ => trivial

/-- The event ends no effect in one of these ways. -/
def Sound (p : Process (Work f) Effect) : Event f → Prop
  | .call .. => True
  | .ends outcome => p.Allowed (EffectSound f unpacks) outcome

/-- The record is that of the package, or of one that is gone. -/
def Recorded (down : f.Down) : Prop :=
  ∀ record, f.checksrc down = some record →
    (∃ content, f.sum content = record) ∧ ∀ content, f.package down = some content → f.sum content = record

/-- The package is there with its record. -/
def Holding (down : f.Down) : Prop :=
  ∃ content, f.package down = some content ∧ f.checksrc down = some (f.sum content)

/-- What `do_fetch` keeps and what it leaves with success. -/
structure Faithful : Prop where
  fetched : ∀ call down, Recorded f down →
    Recorded f (f.fetch call down).1 ∧ ((f.fetch call down).2 = true → Holding f (f.fetch call down).1)
  removed : ∀ package record down, Recorded f down → Recorded f (f.remove package record down)

variable {f unpacks}

theorem recorded_of_none {down : f.Down} (none : f.checksrc down = none) : Recorded f down := fun record there => by
  rw [none] at there
  cases there

theorem Holding.recorded {down : f.Down} (holding : Holding f down) : Recorded f down := by
  obtain ⟨content, package, checksrc⟩ := holding
  intro record there
  rw [checksrc] at there
  cases there
  refine ⟨⟨content, rfl⟩, fun other same => ?_⟩
  rw [package] at same
  cases same
  rfl

/-- A state that holds the package with its record, whatever the exit status. -/
theorem of_holding {down : f.Down} {success : Prop} (holding : Holding f down) :
    Recorded f down ∧ (success → Holding f down) := ⟨holding.recorded, fun _ => holding⟩

theorem recorded_remove {down after : f.Down} {package record : Bool} (recorded : Recorded f down)
    (left : f.package after = if package then none else f.package down)
    (noted : f.checksrc after = if record then none else f.checksrc down) : Recorded f after := by
  intro value there
  rw [noted] at there
  cases record with
  | true => cases there
  | false =>
    obtain ⟨known, same⟩ := recorded value there
    refine ⟨known, fun content present => ?_⟩
    rw [left] at present
    cases package with
    | true => cases present
    | false => exact same content present

section Archives

variable {Content : Type} (md5sum : Content → Text)

theorem accept_faithful (md5 : Text) (package : Option Content) {checksrc : Option Text}
    (known : ∀ record, checksrc = some record → ∃ content, md5sum content = record) :
    Recorded (archives md5sum) (accept md5sum md5 package checksrc).1 ∧
      ((accept md5sum md5 package checksrc).2 = true →
        Holding (archives md5sum) (accept md5sum md5 package checksrc).1) := by
  have gone : Recorded (archives md5sum) (⟨none, checksrc⟩ : DownDir Content) :=
    fun record there => ⟨known record there, nofun⟩
  cases package with
  | none => exact ⟨gone, nofun⟩
  | some file =>
    rw [accept]
    split
    · exact ⟨gone, nofun⟩
    · have holding : Holding (archives md5sum) (⟨some file, some (md5sum file)⟩ : DownDir Content) := ⟨file, rfl, rfl⟩
      exact ⟨holding.recorded, fun _ => holding⟩

theorem doFetch_faithful (md5 : Text) (downloads : Downloads Content) {down : DownDir Content}
    (recorded : Recorded (archives md5sum) down) :
    Recorded (archives md5sum) (doFetch md5sum md5 downloads down).1 ∧
      ((doFetch md5sum md5 downloads down).2 = true →
        Holding (archives md5sum) (doFetch md5sum md5 downloads down).1) := by
  rw [doFetch]
  split
  · refine accept_faithful md5sum md5 _ ?_
    rw [prepare]
    split
    · exact fun record there => (recorded record there).1
    · exact nofun
  · next both =>
    refine ⟨recorded, fun _ => ?_⟩
    obtain ⟨package, checksrc⟩ := down
    obtain ⟨here, noted⟩ := not_or.mp both
    cases package with
    | none => exact absurd rfl here
    | some content =>
      cases checksrc with
      | none => exact absurd rfl noted
      | some record => exact ⟨content, rfl, congrArg some ((recorded record rfl).2 content rfl).symm⟩

theorem archives_faithful : Faithful (archives md5sum) where
  fetched call _ recorded := doFetch_faithful md5sum call.1 call.2 recorded
  removed _ _ _ recorded := recorded_remove recorded rfl rfl

end Archives

section Git

open CBuild.Git

variable {Commit : Type} [DecidableEq Commit] (history : History Commit) (hash : Commit → Text)

theorem store_holding (wanted : Wanted Commit) (clone : Clone Commit) (down : GitDir Commit) :
    Holding (gitClones history hash) (store wanted hash clone down) := ⟨clone, rfl, rfl⟩

theorem leave_recorded (wanted : Wanted Commit) (clone : Clone Commit) (down : GitDir Commit) :
    Recorded (gitClones history hash) (leave wanted hash clone down) := recorded_of_none rfl

theorem fetchFresh_faithful (remote : Remote Commit) (wanted : Wanted Commit) (mirror : Text → Option (Clone Commit))
    (down : GitDir Commit) :
    Recorded (gitClones history hash) (fetchFresh history remote wanted hash mirror down).1 ∧
      ((fetchFresh history remote wanted hash mirror down).2 = true →
        Holding (gitClones history hash) (fetchFresh history remote wanted hash mirror down).1) := by
  unfold fetchFresh
  cases there : (unpack wanted hash mirror down).package with
  | none =>
    simp only [there]
    cases cloneFresh history remote wanted with
    | ok clone => exact of_holding (f := gitClones history hash) (store_holding history hash wanted clone _)
    | error clone => exact ⟨leave_recorded history hash wanted clone _, nofun⟩
  | some clone =>
    simp only [there]
    split
    · split
      · exact of_holding (f := gitClones history hash) (store_holding history hash wanted _ _)
      · exact of_holding (f := gitClones history hash) ⟨_, rfl, rfl⟩
    · exact of_holding (f := gitClones history hash) ⟨clone, rfl, rfl⟩

theorem fetchAgain_faithful (remote : Remote Commit) (wanted : Wanted Commit) {down : GitDir Commit}
    {clone : Clone Commit} (noted : down.checksrc = some clone.commit) :
    Recorded (gitClones history hash) (fetchAgain history remote wanted hash down clone).1 ∧
      ((fetchAgain history remote wanted hash down clone).2 = true →
        Holding (gitClones history hash) (fetchAgain history remote wanted hash down clone).1) := by
  unfold fetchAgain
  cases switched : switchBranch history remote wanted clone with
  | error clone => exact ⟨leave_recorded history hash wanted clone _, nofun⟩
  | ok result =>
    obtain ⟨clone', switched'⟩ := result
    simp only
    cases moved : moveHead history remote wanted clone' with
    | error clone => exact ⟨leave_recorded history hash wanted clone _, nofun⟩
    | ok result =>
      obtain ⟨clone'', moved'⟩ := result
      simp only
      split
      · exact of_holding (f := gitClones history hash) (store_holding history hash wanted _ _)
      · next neither =>
        have notSwitched : switched' = false := by cases switched' <;> simp_all
        have notMoved : moved' = false := by cases moved' <;> simp_all
        subst notSwitched notMoved
        have same : clone''.commit = clone.commit := by
          rw [FetchAgreement.moveHead_same moved, FetchAgreement.switchBranch_same switched]
        exact of_holding (f := gitClones history hash) ⟨clone'', rfl, noted.trans (congrArg some same.symm)⟩

theorem gitClones_faithful : Faithful (gitClones history hash) where
  fetched call down recorded := by
    have fresh := fetchFresh_faithful history hash call.remote call.wanted call.mirror down
    show Recorded (gitClones history hash) (doFetchGit history call.remote call.wanted hash call.mirror down).1 ∧
      ((doFetchGit history call.remote call.wanted hash call.mirror down).2 = true →
        Holding (gitClones history hash) (doFetchGit history call.remote call.wanted hash call.mirror down).1)
    unfold doFetchGit
    cases there : down.package with
    | none => exact fresh
    | some clone =>
      cases noted : down.checksrc with
      | none => exact fresh
      | some commit =>
        obtain rfl : clone.commit = commit := (recorded commit noted).2 clone there
        exact fetchAgain_faithful history hash call.remote call.wanted noted
  removed _ _ _ recorded := recorded_remove recorded rfl rfl

end Git

section Svn

open CBuild.Svn

variable {Files : Type} (history : History Files)

theorem storeSvn_holding (rev : Option ℕ) (base : ℕ) (down : SvnDir) :
    Holding (svnCopies history) (storeSvn history rev base down) := ⟨base, rfl, rfl⟩

theorem leaveSvn_recorded (rev : Option ℕ) (base : ℕ) (down : SvnDir) :
    Recorded (svnCopies history) (leaveSvn rev base down) := recorded_of_none rfl

theorem fetchFreshSvn_faithful (head : ℕ) (rev : Option ℕ) (cwd : Cwd) (mirror : Option ℕ → Option ℕ)
    (down : SvnDir) :
    Recorded (svnCopies history) (fetchFreshSvn history head rev cwd mirror down).1 ∧
      ((fetchFreshSvn history head rev cwd mirror down).2 = true →
        Holding (svnCopies history) (fetchFreshSvn history head rev cwd mirror down).1) := by
  unfold fetchFreshSvn
  cases there : (unpackSvn rev mirror down).package with
  | none =>
    cases rev with
    | none =>
      simp only [there]
      exact of_holding (f := svnCopies history) (storeSvn_holding history none head _)
    | some r =>
      simp only [there]
      split
      · exact of_holding (f := svnCopies history) (storeSvn_holding history (some r) head _)
      · exact ⟨leaveSvn_recorded history (some r) head _, nofun⟩
  | some base =>
    cases rev with
    | none =>
      simp only [there]
      split
      · exact of_holding (f := svnCopies history) (storeSvn_holding history none head _)
      · exact of_holding (f := svnCopies history) ⟨head, rfl, rfl⟩
    | some r =>
      simp only [there]
      exact of_holding (f := svnCopies history) ⟨base, rfl, rfl⟩

theorem fetchAgainSvn_faithful (head : ℕ) (rev : Option ℕ) {down : SvnDir} {base : ℕ}
    (package : down.package = some base) (noted : down.checksrc = some (history.lastChange base)) :
    Recorded (svnCopies history) (fetchAgainSvn history head rev down base).1 ∧
      ((fetchAgainSvn history head rev down base).2 = true →
        Holding (svnCopies history) (fetchAgainSvn history head rev down base).1) := by
  unfold fetchAgainSvn
  cases rev with
  | none =>
    simp only
    split
    · exact of_holding (f := svnCopies history) (storeSvn_holding history none head _)
    · next same =>
      have last : history.lastChange base = history.lastChange head := by
        by_contra differs
        exact same (Or.inl differs)
      exact of_holding (f := svnCopies history) ⟨head, rfl, noted.trans (congrArg some last)⟩
  | some r =>
    simp only
    split
    · split
      · exact of_holding (f := svnCopies history) (storeSvn_holding history (some r) r _)
      · exact ⟨leaveSvn_recorded history (some r) head _, nofun⟩
    · split
      · exact of_holding (f := svnCopies history) (storeSvn_holding history (some r) base _)
      · exact of_holding (f := svnCopies history) ⟨base, package, noted⟩

theorem svnCopies_faithful : Faithful (svnCopies history) where
  fetched call down recorded := by
    have fresh := fetchFreshSvn_faithful history call.head call.rev call.cwd call.mirror down
    show Recorded (svnCopies history) (doFetchSvn history call.head call.rev call.cwd call.mirror down).1 ∧
      ((doFetchSvn history call.head call.rev call.cwd call.mirror down).2 = true →
        Holding (svnCopies history) (doFetchSvn history call.head call.rev call.cwd call.mirror down).1)
    unfold doFetchSvn
    cases there : down.package with
    | none => exact fresh
    | some base =>
      cases noted : down.checksrc with
      | none => exact fresh
      | some last =>
        obtain rfl : history.lastChange base = last := (recorded last noted).2 base there
        exact fetchAgainSvn_faithful history call.head call.rev there noted
  removed _ _ _ recorded := recorded_remove recorded rfl rfl

end Svn

theorem IsMethod.faithful (method : IsMethod f) : Faithful f := by
  cases method with
  | archives md5sum => exact archives_faithful md5sum
  | gitClones history hash => exact gitClones_faithful history hash
  | svnCopies history => exact svnCopies_faithful history

/-- What the checksum file vouches for is all of a download with its record. -/
def Trusted (s : Work f) : Prop :=
  ∀ record tree, s.checkdst = some (.record record) → (∃ content, f.sum content = record) →
    s.outname = some tree → ∃ content, tree = .whole content ∧ f.sum content = record

/-- What holds wherever a call is stopped. -/
structure Good (s : Work f) : Prop where
  recorded : Recorded f s.down
  trusted : Trusted s
  returned : s.returned = true → Marked f s ∧ s.outname.isSome = true

theorem Good.trustworthy {s : Work f} (good : Good s) : Trustworthy f s := by
  have taken (there : s.outname.isSome = true) (marked : Marked f s) : Complete f s := by
    obtain ⟨record, noted, marks⟩ := marked
    obtain ⟨tree, here⟩ := Option.isSome_iff_exists.mp there
    obtain ⟨content, rfl, rfl⟩ := good.trusted record tree marks (good.recorded record noted).1 here
    exact ⟨content, here, noted⟩
  refine ⟨taken, fun returned => ?_⟩
  obtain ⟨marked, there⟩ := good.returned returned
  exact ⟨marked, taken there marked⟩

/-- Nothing is vouched for. -/
theorem Good.unmarked {s : Work f} (recorded : Recorded f s.down) (unmarked : s.checkdst = none)
    (running : s.returned = false) : Good s where
  recorded := recorded
  trusted record tree marks := by
    rw [unmarked] at marks
    cases marks
  returned returned := by
    rw [running] at returned
    cases returned

abbrev Keeps (unpacks : f.Content → Bool) (prog : Script f) (s : Work f) : Prop :=
  prog.Keeps (apply f unpacks) (EffectSound f unpacks) Good s

variable {s : Work f} {content : f.Content}

/-- A command that changes nothing. -/
theorem mkdir_keeps {rest : Script f} (keeps : Keeps unpacks rest s) : Keeps unpacks (command f .mkdir rest) s :=
  ⟨keeps.good, fun _ => keeps, fun _ _ => keeps, fun _ _ => keeps.good⟩

theorem finish_keeps (good : Good s) (marked : Marked f s) (there : s.outname.isSome = true) :
    Keeps unpacks (command f .finish .exit) s :=
  ⟨good, fun _ => ⟨good.recorded, good.trusted, fun _ => ⟨marked, there⟩⟩, fun _ _ => good, fun _ _ => good⟩

/-- Where all of the download is unpacked, the record may be copied. -/
theorem copy_keeps (holding : f.package s.down = some content) (noted : f.checksrc s.down = some (f.sum content))
    (unmarked : s.checkdst = none) (running : s.returned = false)
    (whole : s.outname = some (.whole content)) :
    Keeps unpacks (.act .copyRecord fun success => if success then command f .finish .exit else .exit) s := by
  have recorded : Recorded f s.down := Holding.recorded ⟨content, holding, noted⟩
  have good : Good s := .unmarked recorded unmarked running
  have copied : done f unpacks s .copyRecord = { s with checkdst := some (.record (f.sum content)) } := by
    rw [done, noted]
  have goodCopied : Good (done f unpacks s .copyRecord) := by
    rw [copied]
    refine ⟨recorded, fun record tree marks _ there => ?_, fun returned => ?_⟩
    · cases marks
      rw [show s.outname = some tree from there] at whole
      cases whole
      exact ⟨content, rfl, rfl⟩
    · rw [show s.returned = true from returned] at running
      cases running
  have goodLeft (left : Left f.Record) (sound : left.record = .part → ∀ content, left.mark ≠ .record (f.sum content)) :
      Good (leaves f unpacks s left .copyRecord) := by
    unfold leaves
    cases extent : left.record with
    | nothing => exact good
    | all => exact goodCopied
    | part =>
      refine ⟨recorded, fun record tree marks known _ => ?_, fun returned => ?_⟩
      · obtain ⟨other, rfl⟩ := known
        exact absurd (Option.some.inj marks) (sound extent other)
      · rw [show s.returned = true from returned] at running
        cases running
  have marked : Marked f (done f unpacks s .copyRecord) := by
    rw [copied]
    exact ⟨f.sum content, noted, rfl⟩
  have there : (done f unpacks s .copyRecord).outname.isSome = true := by
    rw [copied]
    exact Option.isSome_iff_exists.mpr ⟨_, whole⟩
  exact ⟨good, fun _ => finish_keeps goodCopied marked there, fun left sound => goodLeft left sound,
    fun left sound => goodLeft left sound⟩

/-- What follows the removal of what was unpacked before. -/
theorem unpack_keeps (faithful : Faithful f) (holding : f.package s.down = some content)
    (noted : f.checksrc s.down = some (f.sum content)) (empty : s.outname = none) (unmarked : s.checkdst = none)
    (running : s.returned = false) :
    Keeps unpacks (command f .mkdir <| .act .unpack fun success =>
      if success || f.copied then
        .act .copyRecord fun success => if success then command f .finish .exit else .exit
      else command f .rmPackage .exit) s := by
  have recorded : Recorded f s.down := Holding.recorded ⟨content, holding, noted⟩
  have good : Good s := .unmarked recorded unmarked running
  have whole (named : Named f unpacks s) : unpacked f unpacks s = some (.whole content) := by
    unfold unpacked
    rw [holding, empty]
    simp [named content holding]
  -- an unfinished tree has no checksum file beside it
  have goodLeft (left : Left f.Record) : Good (leaves f unpacks s left .unpack) := by
    unfold leaves
    cases left.tree with
    | nothing => exact good
    | part => exact .unmarked recorded unmarked running
    | all => exact .unmarked recorded unmarked running
  refine mkdir_keeps ⟨good, fun named => ?_, fun left sound => ?_, fun left _ => goodLeft left⟩
  · exact copy_keeps holding noted unmarked running (whole named)
  · cases copied : f.copied with
    | true =>
      obtain ⟨all, named⟩ := sound copied
      have same : leaves f unpacks s left .unpack = done f unpacks s .unpack := by rw [leaves, all]
      show Keeps unpacks (.act .copyRecord fun success => if success then command f .finish .exit else .exit)
        (leaves f unpacks s left .unpack)
      rw [same]
      exact copy_keeps holding noted unmarked running (whole named)
    | false =>
      have unmarkedLeft : (leaves f unpacks s left .unpack).checkdst = none := by
        unfold leaves
        cases left.tree <;> exact unmarked
      have runningLeft : (leaves f unpacks s left .unpack).returned = false := by
        unfold leaves
        cases left.tree <;> exact running
      have removed (package record : Bool) :
          Good { leaves f unpacks s left .unpack with
            down := f.remove package record (leaves f unpacks s left .unpack).down } :=
        .unmarked (faithful.removed package record _ (goodLeft left).recorded) unmarkedLeft runningLeft
      exact ⟨goodLeft left, fun _ => removed true true, fun other _ => removed _ _, fun other _ => removed _ _⟩

/-- `do_unpack` on a package with its record. -/
theorem doUnpack_keeps (faithful : Faithful f) (good : Good s) (holding : Holding f s.down)
    (running : s.returned = false) : Keeps unpacks (doUnpack f) s := by
  obtain ⟨content, package, noted⟩ := holding
  show Keeps unpacks (if s.outname.isSome && s.checkdst.any (sameRecord f (f.checksrc s.down)) then
    command f .finish .exit else _) s
  split
  · next same =>
    obtain ⟨there, marks⟩ := Bool.and_eq_true_iff.mp same
    refine finish_keeps good ?_ there
    cases marked : s.checkdst with
    | none =>
      rw [marked] at marks
      cases marks
    | some mark =>
      rw [marked, noted] at marks
      exact ⟨f.sum content, noted, by rw [marked, of_decide_eq_true marks]⟩
  · refine ⟨good, fun _ => unpack_keeps faithful package noted rfl rfl running, fun left sound => ?_, fun left sound => ?_⟩
    · exact unpack_keeps faithful package noted sound.1 sound.2 running
    · refine ⟨good.recorded, fun record tree marks known there => ?_, fun returned => ?_⟩
      · have marks : (leaves f unpacks s left .rmOutname).checkdst = some (.record record) := marks
        rcases sound with gone | same
        · rw [gone] at marks
          cases marks
        · have marksBefore : s.checkdst = some (.record record) := by
            have left : (if left.record = .all then none else s.checkdst) = some (.record record) := marks
            split at left
            · cases left
            · exact left
          exact good.trusted record tree marksBefore known (same ▸ there)
      · rw [show s.returned = true from returned] at running
        cases running

/-- A call or an effect that is sound leaves a process that keeps good states. -/
theorem step_keeps (faithful : Faithful f) (p : Process (Work f) Effect) (e : Event f)
    (keeps : Keeps unpacks p.prog p.state) (sound : Sound f unpacks p e) :
    Keeps unpacks (step f unpacks p e).prog (step f unpacks p e).state := by
  cases e with
  | ends outcome => exact Process.advance_keeps keeps sound
  | call call unpack =>
    obtain ⟨s, prog⟩ := p
    cases prog with
    | act effect next => exact keeps
    | look next => exact keeps
    | exit =>
      have good : Good s := keeps
      obtain ⟨recorded, success⟩ := faithful.fetched call s.down good.recorded
      have goodFetched : Good { s with down := (f.fetch call s.down).1, returned := false } :=
        ⟨recorded, good.trusted, nofun⟩
      unfold step
      dsimp only
      split
      · next both =>
        obtain ⟨fetched, -⟩ := Bool.and_eq_true_iff.mp both
        exact (doUnpack_keeps faithful goodFetched (success fetched) rfl).settle
      · exact goodFetched

variable (f unpacks)

/-- In every run from a work directory without a checksum file, where the old tree is removed cleanly, each download
that is unpacked holds something of the name, no copy for git or svn fails before all is copied and no cut record is
that of another download, what has the recorded checksum is complete, and so is what a success leaves. -/
theorem unpack_trustworthy (method : IsMethod f) (s : Work f) (noRecord : f.checksrc s.down = none)
    (unmarked : s.checkdst = none) (running : s.returned = false) (es : List (Event f))
    (guarded : Guarded (step f unpacks) (Sound f unpacks) ⟨s, .exit⟩ es) :
    Trustworthy f (run (step f unpacks) ⟨s, .exit⟩ es).state := by
  have start : Keeps unpacks .exit s := Good.unmarked (recorded_of_none noRecord) unmarked running
  have preserved : ∀ (p : Process (Work f) Effect) (e : Event f), Keeps unpacks p.prog p.state →
      Sound f unpacks p e → Keeps unpacks (step f unpacks p e).prog (step f unpacks p e).state :=
    step_keeps method.faithful
  have final := guarded.invariant preserved start
  exact final.good.trustworthy

def fresh (f : Fetcher) (down : f.Down) : Process (Work f) Effect := ⟨⟨down, none, none, false⟩, .exit⟩

/-- An effect that fails or is killed, with a part of its work done. -/
def partly (Record : Type) : Left Record := ⟨.part, .nothing, .cut true⟩

theorem changes_always (r : ℕ) (unchanged : true = false) : r + 1 = r := by cases unchanged

def file : CBuild.Svn.History ℕ where
  files r := r
  changed _ := true
  created := 0
  changed_created := rfl
  same := changes_always

def copyFails (extent : Extent) : List (Event (svnCopies file)) :=
  [.call (⟨0, none, .outside, fun _ => none⟩ : SvnCall) true, .ends .success, .ends .success,
    .ends (.failed (⟨extent, .nothing, .cut true⟩ : Left ℕ)), .ends .success, .ends .success]

/-- What is halfway copied is taken for complete, and success is returned where nothing is copied. -/
theorem halfCopied_taken :
    ¬ Trustworthy (svnCopies file)
        (run (step (svnCopies file) fun _ => true) (fresh (svnCopies file) {}) (copyFails .part)).state ∧
      ¬ Trustworthy (svnCopies file)
        (run (step (svnCopies file) fun _ => true) (fresh (svnCopies file) {}) (copyFails .nothing)).state := by
  constructor
  · intro trustworthy
    obtain ⟨content, whole, -⟩ := trustworthy.taken rfl ⟨(0 : ℕ), rfl, rfl⟩
    cases whole
  · intro trustworthy
    obtain ⟨content, whole, -⟩ := (trustworthy.returned rfl).2
    cases whole

def archive : Fetcher := @archives Text id

def fetchData : Event archive :=
  .call (("".toList, ⟨false, none, [(true, some "data".toList)]⟩) : Text × Downloads Text) true

/-- `tar` is killed halfway; the next call unpacks all. -/
def killedOnce : List (Event archive) :=
  [fetchData, .ends .success, .ends .success, .ends (.killed (partly Text)),
    fetchData, .ends .success, .ends .success, .ends .success, .ends .success, .ends .success]

theorem ended {p : Process (Work archive) Effect} : Sound archive (fun _ => true) p (.ends .success) :=
  fun effect _ _ => effectSound_success archive (fun _ => true) (fun _ _ => rfl) effect

theorem killedOnce_trustworthy :
    Trustworthy archive
        (run (step archive fun _ => true) (fresh archive (⟨none, none⟩ : DownDir Text)) killedOnce).state ∧
      (run (step archive fun _ => true) (fresh archive (⟨none, none⟩ : DownDir Text)) killedOnce).state.outname =
        some (.whole "data".toList) := by
  refine ⟨unpack_trustworthy archive (fun _ => true) (.archives id) _ rfl rfl rfl killedOnce ?_, rfl⟩
  refine ⟨trivial, ended, ended, ?_, trivial, ended, ended, ended, ended, ended, trivial⟩
  rintro effect next ⟨⟩
  trivial

end CBuild.Soundness.UnpackTrust
