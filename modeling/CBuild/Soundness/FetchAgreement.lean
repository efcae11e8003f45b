import CBuild.Machine.Run
import CBuild.Model.FetchPackage.Git

/-! # Fresh and incremental fetches

A fetch that finds a working copy relies on its local branches and tags. They are where a fresh clone has
them as long as the branch can be moved forward to the remote tip and the tag has not been moved.
-/

namespace CBuild.Soundness.FetchAgreement

open CBuild.Machine CBuild.Git CBuild.Model.FetchPackage

variable {Commit : Type} {history : History Commit} {remote : Remote Commit}
  {wanted : Wanted Commit} {hash : Commit → Text} {mirror : Text → Option (Clone Commit)} {down : GitDir Commit}
  {clone after : Clone Commit} {flag : Bool} {c tip : Commit} {branch : Text}

/-- The commit that a fresh clone would end on: the rev, else the tag, else the tip of the branch. -/
def expected (remote : Remote Commit) (wanted : Wanted Commit) : Option Commit :=
  match wanted.rev with
  | some rev => some rev
  | none =>
    if wanted.tag ≠ [] then remote.tags.lookup wanted.tag
    else remote.branches.lookup (if wanted.branch = [] then remote.default else wanted.branch)

/-- The request is about what the remote has, and not about a tag and a commit at once. -/
structure Valid (history : History Commit) (remote : Remote Commit) (wanted : Wanted Commit) : Prop where
  branch : wanted.branch ≠ [] → (remote.branches.lookup wanted.branch).isSome = true
  tag : wanted.tag ≠ [] → (remote.tags.lookup wanted.tag).isSome = true
  rev : ∀ rev, wanted.rev = some rev → Clone.fetched history remote rev = true
  one : wanted.tag = [] ∨ wanted.rev = none

/-- The branch that is looked for is the requested one. It can be moved forward to the remote tip, or it is not
there and no tag has its name. -/
def CarefulBranch (history : History Commit) (remote : Remote Commit) (wanted : Wanted Commit)
    (clone : Clone Commit) : Prop :=
  ∀ branch, wantedBranch wanted clone = some branch →
    remote.branches.lookup branch = expected remote wanted ∧
    match clone.branch? branch with
    | some c => ∀ tip, remote.branches.lookup branch = some tip → history.reaches c tip = true
    | none => (clone.fetch history remote).tags.lookup branch = none

/-- The tag is not there yet or has not been moved; and where it is not fetched, no branch is taken for it. -/
def CarefulTag (history : History Commit) (remote : Remote Commit) (wanted : Wanted Commit)
    (clone : Clone Commit) : Prop :=
  match clone.tags.lookup wanted.tag with
  | some c => remote.tags.lookup wanted.tag = some c
  | none => (remote.tags.lookup wanted.tag).any (Clone.fetched history remote) = true ∨
      clone.branch? wanted.tag = none ∧ wantedBranch wanted clone ≠ some wanted.tag

/-- What is unpacked is at the commit, or it is on the branch and can be moved forward. -/
def CarefulTarball (history : History Commit) (remote : Remote Commit) (wanted : Wanted Commit)
    (clone : Clone Commit) : Prop :=
  if wanted.plain then
    ∃ branch tip, clone.current = some branch ∧ remote.branches.lookup branch = some tip ∧
      expected remote wanted = some tip ∧ history.reaches clone.commit tip = true
  else expected remote wanted = some clone.commit

/-- The tarball that is unpacked where the working copy or its record is missing. -/
def tarball (hash : Commit → Text) (wanted : Wanted Commit) (mirror : Text → Option (Clone Commit))
    (down : GitDir Commit) : Option (Clone Commit) :=
  (if down.checksrc.isSome then down.tarballs (wanted.packname hash) else none) <|> mirror (wanted.packname hash)

/-- The fetch finds a working copy or a tarball that leads to what is wanted, or none; and a tip that is cloned
is not shadowed by a tag. -/
def Careful (history : History Commit) (hash : Commit → Text) (remote : Remote Commit) (wanted : Wanted Commit)
    (mirror : Text → Option (Clone Commit)) (down : GitDir Commit) : Prop :=
  match down.package, down.checksrc with
  | some clone, some _ =>
    if wanted.plain then CarefulBranch history remote wanted clone
    else wanted.tag ≠ [] → CarefulTag history remote wanted clone
  | _, _ =>
    match tarball hash wanted mirror down with
    | some clone => CarefulTarball history remote wanted clone
    | none => wanted.plain = true → wanted.branch ≠ [] → wanted.branch ≠ remote.default →
        remote.tags.lookup wanted.branch = none

/-- HEAD of the working copy is the commit, and it is recorded. -/
def Agrees (remote : Remote Commit) (wanted : Wanted Commit) (down : GitDir Commit) : Prop :=
  ∃ clone, down.package = some clone ∧ expected remote wanted = some clone.commit ∧
    down.checksrc = some clone.commit

/-- What is recorded is HEAD of the working copy. -/
def Recorded (down : GitDir Commit) : Prop :=
  ∀ clone c, down.package = some clone → down.checksrc = some c → c = clone.commit

/-- What a request that is valid wants is on the remote. -/
theorem expected_isSome (valid : Valid history remote wanted) : (expected remote wanted).isSome = true := by
  unfold expected
  split
  · rfl
  · split
    · next given => exact valid.tag given
    · split
      · exact remote.born
      · next given => exact valid.branch given

theorem orExit_ok {after' : Option (Clone Commit)} (done : orExit clone after' = .ok after) : after' = some after := by
  cases after' with
  | none => cases done
  | some other => cases done; rfl

theorem bind_ok {α β : Type} {attempt : Attempt Commit α} {next : α → Attempt Commit β} {b : β}
    (done : attempt >>= next = .ok b) : ∃ a, attempt = .ok a ∧ next a = .ok b := by
  cases attempt with
  | error clone => cases done
  | ok a => exact ⟨a, rfl, done⟩

theorem map_ok {α : Type} {attempt : Attempt Commit α} {pair : α × Bool}
    (done : attempt.map (fun a => (a, true)) = .ok pair) : attempt = .ok pair.1 ∧ pair.2 = true := by
  cases attempt with
  | error clone => cases done
  | ok a => cases done; exact ⟨rfl, rfl⟩

theorem plain_iff : wanted.plain = true ↔ wanted.tag = [] ∧ wanted.rev = none := by
  rw [Wanted.plain, Bool.and_eq_true, decide_eq_true_iff, Option.isNone_iff_eq_none]

/-- The branch of a fresh clone is at the remote tip. -/
theorem ofRemote_checkout (found : remote.branches.lookup branch = some tip)
    (unshadowed : branch ≠ remote.default → remote.tags.lookup branch = none)
    (checked : (Clone.ofRemote history remote).checkout branch = some after) : after.commit = tip := by
  by_cases default : branch = remote.default
  · have known : (Clone.ofRemote history remote).branch? branch = some remote.head :=
      if_pos (congrArg some default.symm)
    rw [(Clone.checkout_branch checked known).2]
    rw [default, remote.lookup_default] at found
    exact Option.some_inj.mp found
  · have absent : (Clone.ofRemote history remote).branch? branch = none :=
      if_neg fun current => default (Option.some_inj.mp current).symm
    exact (Clone.checkout_tracking checked absent (unshadowed default) found).2

/-- The branch of a fresh clone has the remote tags. -/
theorem checkoutBranch_tags (checked : checkoutBranch wanted (Clone.ofRemote history remote) = .ok after) :
    after.tags = remote.tags := by
  unfold checkoutBranch at checked
  split at checked
  · exact Clone.checkout_tags (orExit_ok checked)
  · cases checked
    rfl

/-- A fresh clone ends on the commit. -/
theorem cloneFresh_expected (valid : Valid history remote wanted)
    (unshadowed : wanted.plain = true → wanted.branch ≠ [] → wanted.branch ≠ remote.default →
      remote.tags.lookup wanted.branch = none)
    (done : cloneFresh history remote wanted = .ok clone) : expected remote wanted = some clone.commit := by
  obtain ⟨branched, checked, done⟩ := bind_ok done
  obtain ⟨tagged, moved, done⟩ := bind_ok done
  unfold expected
  unfold resetTag at moved
  unfold resetRev at done
  cases rev : wanted.rev with
  | some rev =>
    rw [rev] at done
    rw [Clone.reset_commit (orExit_ok done)]
  | none =>
    rw [rev] at done
    cases done
    dsimp only
    split at moved
    · next given =>
      obtain ⟨c, found⟩ := Option.isSome_iff_exists.mp (valid.tag given)
      have resolved := Clone.resetTo_commit (orExit_ok moved)
      rw [Clone.resolve, checkoutBranch_tags checked, found] at resolved
      rw [if_pos given, found]
      exact resolved
    · next absent =>
      cases moved
      rw [if_neg absent]
      have plain : wanted.plain = true := plain_iff.mpr ⟨not_not.mp absent, rev⟩
      unfold checkoutBranch at checked
      split at checked
      · next given =>
        obtain ⟨tip, found⟩ := Option.isSome_iff_exists.mp (valid.branch given)
        rw [if_neg given, found, ofRemote_checkout found (unshadowed plain given) (orExit_ok checked)]
      · next empty =>
        cases checked
        rw [if_pos (not_not.mp empty)]
        exact remote.lookup_default

theorem unpack_package (wanted : Wanted Commit) (hash : Commit → Text) (mirror : Text → Option (Clone Commit))
    (down : GitDir Commit) : (unpack wanted hash mirror down).package = tarball hash wanted mirror down := by
  unfold unpack tarball
  cases recorded : down.checksrc.isSome
  · rfl
  · cases there : down.tarballs (wanted.packname hash) with
    | none => rw [if_neg (by rw [there]; exact nofun), if_pos rfl]; rfl
    | some clone => rw [if_pos (by rw [there]; rfl), if_pos rfl]; exact there

/-- A tarball that is unpacked is at the commit, after a pull when a tip is wanted. -/
theorem tarball_expected (careful : CarefulTarball history remote wanted clone)
    (source : after = if wanted.plain then clone.pull history remote else clone) :
    expected remote wanted = some after.commit := by
  unfold CarefulTarball at careful
  split at source
  · next plain =>
    rw [if_pos plain] at careful
    obtain ⟨branch, tip, current, found, wants, behind⟩ := careful
    rw [wants, source, Clone.pull_commit current found behind]
  · next other =>
    rw [if_neg other] at careful
    rw [careful, source]

/-- The branch is current, or it is checked out after a pull. -/
theorem switchBranch_ok (done : switchBranch history remote wanted clone = .ok (after, flag)) :
    ∃ branch, wantedBranch wanted clone = some branch ∧
      (after = clone ∧ clone.current = some branch ∨
        clone.current ≠ some branch ∧ (clone.pull history remote).checkout branch = some after) := by
  unfold switchBranch at done
  dsimp only at done
  cases named : wantedBranch wanted clone with
  | none =>
    rw [named, if_neg (by simp)] at done
    cases done
  | some branch =>
    refine ⟨branch, rfl, ?_⟩
    rw [named] at done
    split at done
    · next same =>
      cases done
      exact Or.inl ⟨rfl, same.1.symm⟩
    · next other =>
      have moved : clone.current ≠ some branch := fun same => other ⟨same.symm, rfl⟩
      rw [Option.bind_some] at done
      cases checked : (clone.pull history remote).checkout branch with
      | none => rw [checked] at done; cases done
      | some next =>
        rw [checked] at done
        cases done
        exact Or.inr ⟨moved, rfl⟩

theorem switchBranch_same (done : switchBranch history remote wanted clone = .ok (after, false)) : after = clone := by
  unfold switchBranch at done
  dsimp only at done
  split at done
  · cases done
    rfl
  · split at done <;> cases done

/-- A pull keeps the branches that are not current. -/
theorem pull_branch? (other : clone.current ≠ some branch) :
    (clone.pull history remote).branch? branch = clone.branch? branch := by
  rw [Clone.branch?, Clone.branch?, Clone.pull_current, if_neg other, if_neg other, Clone.pull_others]

/-- The branch that was looked for is current, and can be moved forward to the remote tip. -/
theorem switchBranch_behind (done : switchBranch history remote wanted clone = .ok (after, flag))
    (careful : CarefulBranch history remote wanted clone) (valid : (expected remote wanted).isSome = true) :
    ∃ branch tip, after.current = some branch ∧ remote.branches.lookup branch = some tip ∧
      expected remote wanted = some tip ∧ history.reaches after.commit tip = true := by
  obtain ⟨branch, named, switched⟩ := switchBranch_ok done
  obtain ⟨tip, wants⟩ := Option.isSome_iff_exists.mp valid
  obtain ⟨same, ahead⟩ := careful branch named
  have found : remote.branches.lookup branch = some tip := same.trans wants
  suffices current : after.current = some branch ∧ history.reaches after.commit tip = true from
    ⟨branch, tip, current.1, found, wants, current.2⟩
  cases known : clone.branch? branch with
  | some c =>
    rw [known] at ahead
    obtain ⟨rfl, current⟩ | ⟨other, checked⟩ := switched
    · rw [Clone.branch?, if_pos current] at known
      cases known
      exact ⟨current, ahead tip found⟩
    · obtain ⟨current, commit⟩ := Clone.checkout_branch checked ((pull_branch? other).trans known)
      exact ⟨current, by rw [commit]; exact ahead tip found⟩
  | none =>
    rw [known] at ahead
    obtain ⟨rfl, current⟩ | ⟨other, checked⟩ := switched
    · rw [Clone.branch?, if_pos current] at known
      cases known
    · have untagged : (clone.pull history remote).tags.lookup branch = none := by rw [Clone.pull_tags, ahead]
      obtain ⟨current, commit⟩ := Clone.checkout_tracking checked ((pull_branch? other).trans known) untagged
        (Clone.pull_tracking found)
      exact ⟨current, by rw [commit]; exact history.reaches_self tip⟩

/-- A tag that is there is the remote one; and one that is not there is fetched, or no branch is taken for it. -/
structure TagLeads (history : History Commit) (remote : Remote Commit) (wanted : Wanted Commit)
    (clone : Clone Commit) : Prop where
  kept : ∀ c, clone.tags.lookup wanted.tag = some c → remote.tags.lookup wanted.tag = some c
  absent : clone.tags.lookup wanted.tag = none →
    (remote.tags.lookup wanted.tag).any (Clone.fetched history remote) = true ∨ clone.branch? wanted.tag = none

theorem tagLeads_of_careful (careful : CarefulTag history remote wanted clone) :
    TagLeads history remote wanted clone := by
  unfold CarefulTag at careful
  constructor
  · intro c found
    rw [found] at careful
    exact careful
  · intro absent
    rw [absent] at careful
    exact careful.imp_right And.left

theorem tagLeads_pull (leads : TagLeads history remote wanted clone) :
    TagLeads history remote wanted (clone.pull history remote) := by
  have tags : (clone.pull history remote).tags.lookup wanted.tag = _ :=
    (Clone.pull_tags clone wanted.tag).trans (Clone.fetch_tags clone wanted.tag)
  constructor
  · intro c found
    rw [tags] at found
    cases there : clone.tags.lookup wanted.tag with
    | some c' =>
      rw [there] at found
      exact leads.kept c (there.trans found)
    | none =>
      rw [there] at found
      change (if _ then _ else none) = some c at found
      split at found
      · exact found
      · cases found
  · intro absent
    rw [tags] at absent
    cases there : clone.tags.lookup wanted.tag with
    | some c' =>
      rw [there] at absent
      cases absent
    | none =>
      refine (leads.absent there).imp_right fun none => ?_
      have other : clone.current ≠ some wanted.tag := fun current => by
        rw [Clone.branch?, if_pos current] at none
        cases none
      rw [pull_branch? other, none]

/-- The tag is resolved to the remote one. -/
theorem resolve_tag (leads : TagLeads history remote wanted clone)
    (resolved : (clone.pull history remote).resolve wanted.tag = some c) : remote.tags.lookup wanted.tag = some c := by
  have after := tagLeads_pull leads
  unfold Clone.resolve at resolved
  cases there : (clone.pull history remote).tags.lookup wanted.tag with
  | some c' =>
    rw [there] at resolved
    exact after.kept c (there.trans resolved)
  | none =>
    rw [there] at resolved
    obtain fetched | none := after.absent there
    · rw [Clone.pull_tags, Clone.fetch_tags, if_pos fetched] at there
      cases found : remote.tags.lookup wanted.tag with
      | none => rw [found] at fetched; cases fetched
      | some c' =>
        rw [found] at there
        cases lost : clone.tags.lookup wanted.tag <;> rw [lost] at there <;> cases there
    · exact absurd (none.symm.trans resolved) nofun

/-- Checking out a branch makes no other. -/
theorem checkout_absent {name other : Text} (checked : clone.checkout name = some after) (different : other ≠ name)
    (absent : clone.branch? other = none) : after.branch? other = none := by
  unfold Clone.branch? at absent
  split at absent
  · cases absent
  next away =>
  have stays : clone.left.lookup other = none := by
    unfold Clone.left
    cases current : clone.current with
    | none => exact absent
    | some old =>
      have apart : (other == old) = false := beq_false_of_ne fun same => away (by rw [current, same])
      dsimp only
      rw [List.lookup_cons, apart]
      exact absent
  unfold Clone.checkout at checked
  split at checked
  · cases checked
    exact (if_neg away).trans absent
  have new : some name ≠ some other := fun same => different (Option.some_inj.mp same).symm
  split at checked
  · cases checked
    exact (if_neg new).trans stays
  · cases checked
    exact (if_neg nofun).trans stays
  · obtain ⟨c, -, rfl⟩ := Option.map_eq_some_iff.mp checked
    exact (if_neg new).trans stays

theorem tagLeads_switch (careful : CarefulTag history remote wanted clone)
    (done : switchBranch history remote wanted clone = .ok (after, flag)) :
    TagLeads history remote wanted after := by
  have leads := tagLeads_of_careful careful
  obtain ⟨branch, named, ⟨rfl, -⟩ | ⟨-, checked⟩⟩ := switchBranch_ok done
  · exact leads
  have pulled := tagLeads_pull leads
  have tags := Clone.checkout_tags checked
  constructor
  · rw [tags]
    exact pulled.kept
  · intro absent
    rw [tags] at absent
    obtain fetched | none := pulled.absent absent
    · exact Or.inl fetched
    · by_cases same : wanted.tag = branch
      · left
        unfold CarefulTag at careful
        cases there : clone.tags.lookup wanted.tag with
        | some c =>
          rw [Clone.pull_tags, Clone.fetch_tags, there] at absent
          cases absent
        | none =>
          rw [there] at careful
          exact careful.resolve_right fun untaken => untaken.2 (named.trans (congrArg some same.symm))
      · exact Or.inr (checkout_absent checked same none)

section

variable [DecidableEq Commit]

/-- A tip is reached by a pull. -/
theorem moveHead_plain (plain : wanted.plain = true) (done : moveHead history remote wanted clone = .ok (after, flag)) :
    after = clone.pull history remote := by
  rw [moveHead, if_pos plain] at done
  cases done
  rfl

/-- A tag or a commit is where HEAD is or it is reset to. -/
theorem moveHead_expected (plain : wanted.plain = false) (valid : Valid history remote wanted)
    (leads : wanted.tag ≠ [] → TagLeads history remote wanted clone)
    (done : moveHead history remote wanted clone = .ok (after, flag)) : expected remote wanted = some after.commit := by
  rw [moveHead, if_neg (by rw [plain]; exact Bool.false_ne_true)] at done
  unfold expected
  cases rev : wanted.rev with
  | some rev' =>
    have untagged : wanted.tag = [] := valid.one.resolve_right fun none => by rw [rev] at none; cases none
    rw [rev, if_neg fun tagged => tagged.1 untagged] at done
    dsimp only at done
    split at done
    · rw [Clone.reset_commit (orExit_ok (map_ok done).1)]
    · next same =>
      cases done
      rw [not_not.mp same]
  | none =>
    have tagged : wanted.tag ≠ [] := fun absent => by
      rw [plain_iff.mpr ⟨absent, rev⟩] at plain
      cases plain
    dsimp only
    rw [if_pos tagged]
    split at done
    · exact resolve_tag (leads tagged) (Clone.resetTo_commit (orExit_ok (map_ok done).1))
    · next there =>
      have only : clone.tagsAtHead = [wanted.tag] := not_not.mp fun different => there ⟨tagged, different⟩
      rw [rev] at done
      cases done
      exact (leads tagged).kept _ (Clone.tag_of_tagsAtHead only)

/-- Where nothing is said to be done, HEAD has not moved. -/
theorem moveHead_same (done : moveHead history remote wanted clone = .ok (after, false)) :
    after.commit = clone.commit := by
  unfold moveHead at done
  split at done
  · injection done with pair
    injection pair with pulled moved
    rw [← pulled]
    exact not_not.mp (of_decide_eq_false moved)
  split at done
  · cases (map_ok done).2
  split at done
  · split at done
    · cases (map_ok done).2
    · cases done
      rfl
  · cases done
    rfl

/-- A fetch in a working copy fails and leaves no record, or it ends where the two steps lead. -/
theorem fetchAgain_cases (history : History Commit) (remote : Remote Commit) (wanted : Wanted Commit)
    (hash : Commit → Text) (down : GitDir Commit) (clone : Clone Commit) :
    ((fetchAgain history remote wanted hash down clone).2 = false ∧
      (fetchAgain history remote wanted hash down clone).1.checksrc = none) ∨
    ∃ middle switched after moved, switchBranch history remote wanted clone = .ok (middle, switched) ∧
      moveHead history remote wanted middle = .ok (after, moved) ∧
      (fetchAgain history remote wanted hash down clone).1.package = some after ∧
      ((fetchAgain history remote wanted hash down clone).1.checksrc = some after.commit ∨
        (fetchAgain history remote wanted hash down clone).1.checksrc = down.checksrc ∧
          after.commit = clone.commit) := by
  unfold fetchAgain
  cases first : switchBranch history remote wanted clone with
  | error failed => exact Or.inl ⟨rfl, rfl⟩
  | ok pair =>
    obtain ⟨middle, switched⟩ := pair
    dsimp only
    cases second : moveHead history remote wanted middle with
    | error failed => exact Or.inl ⟨rfl, rfl⟩
    | ok pair =>
      obtain ⟨after, moved⟩ := pair
      refine Or.inr ⟨middle, switched, after, moved, rfl, second, ?_⟩
      dsimp only
      split
      · exact ⟨rfl, Or.inl rfl⟩
      · next unchanged =>
        rw [Bool.or_eq_true, Bool.or_eq_true, not_or, not_or, Bool.not_eq_true, Bool.not_eq_true] at unchanged
        obtain ⟨⟨rfl, rfl⟩, -⟩ := unchanged
        exact ⟨rfl, Or.inr ⟨rfl, (moveHead_same second).trans (congrArg _ (switchBranch_same first))⟩⟩

/-- A fetch without a working copy fails and leaves no record, or it ends on a fresh clone or on a tarball. -/
theorem fetchFresh_cases (history : History Commit) (remote : Remote Commit) (wanted : Wanted Commit)
    (hash : Commit → Text) (mirror : Text → Option (Clone Commit)) (down : GitDir Commit) :
    ((fetchFresh history remote wanted hash mirror down).2 = false ∧
      (fetchFresh history remote wanted hash mirror down).1.checksrc = none) ∨
    ∃ after, (fetchFresh history remote wanted hash mirror down).1.package = some after ∧
      (fetchFresh history remote wanted hash mirror down).1.checksrc = some after.commit ∧
      match tarball hash wanted mirror down with
      | none => cloneFresh history remote wanted = .ok after
      | some clone => after = if wanted.plain then clone.pull history remote else clone := by
  unfold fetchFresh
  dsimp only
  rw [unpack_package]
  cases tarball hash wanted mirror down with
  | none =>
    dsimp only
    cases cloned : cloneFresh history remote wanted with
    | error failed => exact Or.inl ⟨rfl, rfl⟩
    | ok after => exact Or.inr ⟨after, rfl, rfl, rfl⟩
  | some clone =>
    right
    dsimp only
    split
    · split
      · exact ⟨_, rfl, rfl, rfl⟩
      · exact ⟨_, rfl, rfl, rfl⟩
    · exact ⟨_, rfl, rfl, rfl⟩

/-- What is recorded stays HEAD of the working copy. -/
theorem doFetchGit_recorded (history : History Commit) (remote : Remote Commit) (wanted : Wanted Commit)
    (hash : Commit → Text) (mirror : Text → Option (Clone Commit)) (recorded : Recorded down) :
    Recorded (doFetchGit history remote wanted hash mirror down).1 := by
  have fresh : Recorded (fetchFresh history remote wanted hash mirror down).1 := by
    intro clone c package checksrc
    obtain ⟨-, none⟩ | ⟨after, there, head, -⟩ := fetchFresh_cases history remote wanted hash mirror down
    · cases none.symm.trans checksrc
    · cases there.symm.trans package
      cases head.symm.trans checksrc
      rfl
  unfold doFetchGit
  split
  · next old here =>
    split
    · exact fresh
    · intro clone c package checksrc
      obtain ⟨-, none⟩ | ⟨middle, switched, after, moved, -, -, there, head | ⟨kept, same⟩⟩ :=
        fetchAgain_cases history remote wanted hash down old
      · cases none.symm.trans checksrc
      · cases there.symm.trans package
        cases head.symm.trans checksrc
        rfl
      · cases there.symm.trans package
        rw [recorded old c here (kept.symm.trans checksrc), same]
  · exact fresh

/-- The two steps in a working copy end on the commit. -/
theorem again_expected {middle : Clone Commit} {moved : Bool} (valid : Valid history remote wanted)
    (careful : if wanted.plain then CarefulBranch history remote wanted clone
      else wanted.tag ≠ [] → CarefulTag history remote wanted clone)
    (first : switchBranch history remote wanted clone = .ok (middle, flag))
    (second : moveHead history remote wanted middle = .ok (after, moved)) :
    expected remote wanted = some after.commit := by
  split at careful
  · next plain =>
    obtain ⟨branch, tip, current, found, wants, behind⟩ := switchBranch_behind first careful (expected_isSome valid)
    rw [wants, moveHead_plain plain second, Clone.pull_commit current found behind]
  · next other =>
    exact moveHead_expected (Bool.not_eq_true _ ▸ other) valid (fun tagged => tagLeads_switch (careful tagged) first)
      second

/-- A careful fetch that succeeds ends where a fresh clone does. -/
theorem doFetchGit_agrees (recorded : Recorded down) (valid : Valid history remote wanted)
    (careful : Careful history hash remote wanted mirror down)
    (fetched : (doFetchGit history remote wanted hash mirror down).2 = true) :
    Agrees remote wanted (doFetchGit history remote wanted hash mirror down).1 := by
  have fresh (careful : match tarball hash wanted mirror down with
        | some clone => CarefulTarball history remote wanted clone
        | none => wanted.plain = true → wanted.branch ≠ [] → wanted.branch ≠ remote.default →
            remote.tags.lookup wanted.branch = none)
      (fetched : (fetchFresh history remote wanted hash mirror down).2 = true) :
      Agrees remote wanted (fetchFresh history remote wanted hash mirror down).1 := by
    obtain ⟨failed, -⟩ | ⟨after, package, checksrc, source⟩ := fetchFresh_cases history remote wanted hash mirror down
    · cases failed.symm.trans fetched
    · refine ⟨after, package, ?_, checksrc⟩
      cases there : tarball hash wanted mirror down with
      | none =>
        rw [there] at source careful
        exact cloneFresh_expected valid careful source
      | some clone =>
        rw [there] at source careful
        exact tarball_expected careful source
  unfold doFetchGit at fetched ⊢
  unfold Careful at careful
  cases package : down.package with
  | none =>
    rw [package] at fetched careful
    exact fresh careful fetched
  | some clone =>
    cases checksrc : down.checksrc with
    | none =>
      rw [package, checksrc] at fetched careful
      exact fresh careful fetched
    | some head =>
      rw [package, checksrc] at fetched careful
      obtain ⟨failed, -⟩ | ⟨middle, switched, after, moved, first, second, there, record⟩ :=
        fetchAgain_cases history remote wanted hash down clone
      · cases failed.symm.trans fetched
      · refine ⟨after, there, again_expected valid careful first second, ?_⟩
        obtain current | ⟨kept, same⟩ := record
        · exact current
        · exact kept.trans (checksrc.trans (congrArg some ((recorded clone head package checksrc).trans same.symm)))

variable (history hash)

/-- The remote repository is updated, the working copy is removed by hand, or a request is fetched. -/
inductive Event (Commit : Type) where
  | update (remote : Remote Commit)
  | remove
  | fetch (wanted : Wanted Commit) (mirror : Text → Option (Clone Commit))

/-- Where the last step is a fetch, its request and whether it succeeded. -/
structure Host (Commit : Type) where
  remote : Remote Commit
  down : GitDir Commit := {}
  last : Option (Wanted Commit × Bool) := none

def step (host : Host Commit) : Event Commit → Host Commit
  | .update remote => { host with remote, last := none }
  | .remove => { host with down := { host.down with package := none }, last := none }
  | .fetch wanted mirror =>
    let (down, fetched) := doFetchGit history host.remote wanted hash mirror host.down
    { host with down, last := some (wanted, fetched) }

/-- A fetch that has just succeeded agrees with a fresh clone. -/
def Fresh (host : Host Commit) : Prop :=
  ∀ wanted, host.last = some (wanted, true) → Agrees host.remote wanted host.down

/-- The requests are for what the remote has, at most a tag or a commit. -/
def Requested (host : Host Commit) : Event Commit → Prop
  | .fetch wanted _ => Valid history host.remote wanted
  | _ => True

/-- The fetches find what leads to the commits. -/
def Led (host : Host Commit) : Event Commit → Prop
  | .fetch wanted mirror => Careful history hash host.remote wanted mirror host.down
  | _ => True

theorem step_fresh (host : Host Commit) (event : Event Commit)
    (fresh : Recorded host.down ∧ Fresh host)
    (careful : Requested history host event ∧ Led history hash host event) :
    Recorded (step history hash host event).down ∧ Fresh (step history hash host event) := by
  cases event with
  | update remote => exact ⟨fresh.1, nofun⟩
  | remove => exact ⟨nofun, nofun⟩
  | fetch wanted mirror =>
    refine ⟨doFetchGit_recorded history host.remote wanted hash mirror fresh.1, ?_⟩
    intro wanted' last
    have same := Option.some_inj.mp last
    cases congrArg Prod.fst same
    exact doFetchGit_agrees fresh.1 careful.1 careful.2 (congrArg Prod.snd same)

/-- In a run whose fetches are careful, each fetch that succeeds agrees with a fresh clone. -/
theorem fetches_agree (remote : Remote Commit) (events : List (Event Commit))
    (requested : Guarded (step history hash) (Requested history) { remote } events)
    (led : Guarded (step history hash) (Led history hash) { remote } events) :
    ∀ first, first <+: events → Fresh (run (step history hash) { remote } first) := by
  rintro first ⟨rest, rfl⟩
  have both := guarded_and.mpr ⟨requested, led⟩
  have start := ((guarded_append ..).mp both).1
  exact (Guarded.invariant (step_fresh history hash) start ⟨nofun, nofun⟩).2

end

/-- A commit is the list of changes up to it, the last one first. -/
def changes : History (List ℕ) where
  parents commit := match commit with
    | [] => []
    | _ :: parent => [parent]
  reaches old new := old.isSuffixOf new
  reaches_iff old new := by
    rw [List.isSuffixOf_iff_suffix]
    constructor
    · rintro ⟨later, rfl⟩
      induction later with
      | nil => exact .refl
      | cons change later ih => exact .head (List.mem_singleton_self _) ih
    · intro path
      induction path with
      | refl => exact List.suffix_refl new
      | tail _ parent ih =>
        refine .trans ?_ ih
        split at parent
        · cases parent
        · rw [List.mem_singleton.mp parent]
          exact List.suffix_cons ..

def digits (commit : List ℕ) : Text := commit.map Nat.digitChar

def noMirror (_ : Text) : Option (Clone (List ℕ)) := none

def young : Remote (List ℕ) where
  branches := [("master".toList, [0])]
  tags := []
  default := "master".toList
  born := rfl

def forked : Remote (List ℕ) where
  branches := [("master".toList, [1, 0]), ("dev".toList, [2, 0])]
  tags := []
  default := "master".toList
  born := rfl

def followed : List (Event (List ℕ)) := [.fetch {} noMirror, .update forked, .fetch {} noMirror]

theorem valid_tip (remote : Remote (List ℕ)) : Valid changes remote {} :=
  ⟨fun given => absurd rfl given, fun given => absurd rfl given, nofun, Or.inl rfl⟩

theorem followed_agrees :
    Guarded (step changes digits) (Led changes digits) { remote := young } followed ∧
    (run (step changes digits) { remote := young } followed).last = some ({}, true) ∧
    Fresh (run (step changes digits) { remote := young } followed) := by
  have requested : Guarded (step changes digits) (Requested changes) { remote := young } followed :=
    ⟨valid_tip young, trivial, valid_tip forked, trivial⟩
  have led : Guarded (step changes digits) (Led changes digits) { remote := young } followed := by
    refine ⟨fun _ given => absurd rfl given, trivial, ?_, trivial⟩
    intro branch named
    cases named
    refine ⟨rfl, ?_⟩
    intro tip found
    cases found
    rfl
  exact ⟨led, rfl, fetches_agree changes digits young followed requested led followed List.prefix_rfl⟩

/-- A commit of another branch is fetched, and then the tip. -/
def reset : List (Event (List ℕ)) := [.fetch { rev := some [2, 0] } noMirror, .fetch {} noMirror]

/-- The second fetch succeeds and stays on the commit of the other branch. -/
theorem reset_stays :
    Guarded (step changes digits) (Requested changes) { remote := forked } reset ∧
    (run (step changes digits) { remote := forked } reset).last = some ({}, true) ∧
    (run (step changes digits) { remote := forked } reset).down.checksrc = some [2, 0] ∧
    expected forked ({} : Wanted (List ℕ)) = some [1, 0] ∧
    ¬ Fresh (run (step changes digits) { remote := forked } reset) := by
  have requested : Valid changes forked { rev := some [2, 0] } :=
    ⟨fun given => absurd rfl given, fun given => absurd rfl given, fun rev same => by cases same; rfl, Or.inl rfl⟩
  have last : (run (step changes digits) { remote := forked } reset).last = some ({}, true) := rfl
  have head : (run (step changes digits) { remote := forked } reset).down.checksrc = some [2, 0] := rfl
  refine ⟨⟨requested, valid_tip forked, trivial⟩, last, head, rfl, fun fresh => ?_⟩
  obtain ⟨clone, -, wants, record⟩ := fresh {} last
  have same : some [2, 0] = some [1, 0] := (head.symm.trans record).trans wants.symm
  exact absurd same (by decide)

end CBuild.Soundness.FetchAgreement
