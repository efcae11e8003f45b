import CBuild.Model.ProcessCache.Machine
import CBuild.Soundness.CacheKey

/-! # What `cachebuild` leaves in INS_TOPDIR

`pull_cache` takes INS_TOPDIR for the archive that matched as soon as it and its flag file exist,
but `build` removes INS_TOPDIR and keeps the flag, and a push of another work tree changes which
archive matches. A history variable records the inputs the last checksum ran on and the archive
INS_TOPDIR was last packed into or unpacked from. In every run that pulls over a standing image
only when that archive is the one that matched, builds only the inputs that were checked,
completes its mirror downloads, and goes through no two inputs that give the checksum the same lines and build
different images, a successful `cachebuild` leaves the image of the checked inputs.
-/

namespace CBuild.Soundness.CacheFreshness

open CBuild.Machine CBuild.Model.ProcessCache CacheKey

variable {Inputs Tree Digest : Type*}

/-- What happened so far: `checked` are the inputs the last `get_checksum` ran on, `filled` is the
checksum of the archive INS_TOPDIR was last packed into or unpacked from, `none` when a build
recipe removed INS_TOPDIR since. -/
structure History (Inputs Digest : Type*) where
  checked : Option Inputs := none
  filled : Option Digest := none

/-- The inputs that the package goes through, here, in other work trees and behind archives, and the dates of the
force files. -/
structure Scope (Inputs : Type*) where
  states : Set Inputs
  dates : Set Key

/-- The key is a checksum of inputs in the scope, forced or not. -/
def Scope.Names (scope : Scope Inputs) (r : Recipe Inputs Tree Digest) (key : Digest) (inputs : Inputs) : Prop :=
  inputs ∈ scope.states ∧
    ∃ force : Option Key, (∀ date ∈ force, date ∈ scope.dates) ∧ r.checksum inputs force = some key

/-- Inputs with one checksum build one image. -/
def Scope.Apart (scope : Scope Inputs) (r : Recipe Inputs Tree Digest) : Prop :=
  ∀ key inputs inputs', scope.Names r key inputs → scope.Names r key inputs' → r.output inputs = r.output inputs'

section Runs

variable [DecidableEq Digest] (scope : Scope Inputs) (r : Recipe Inputs Tree Digest) (o : Options)
  (mirror : CacheDir Tree Digest)

def History.next (s : State Inputs Tree Digest) (h : History Inputs Digest) :
    Event Inputs Tree → History Inputs Digest
  | .checksum _ => { h with checked := some s.inputs }
  | .cachebuild env =>
    if s.matchfile then
      if (s.insdir.isNone || !s.flag) && (pullCache o s).2 then { h with filled := s.checkfile }
      else h
    else match env with
      | .stopped => h
      | .broken _ => { h with filled := none }
      | .built _ =>
        { checked := if s.checkfile.isNone then some s.inputs else h.checked
          filled := (cachebuild r o s env).1.checkfile }
  | _ => h

/-- One event on a work tree together with its history. -/
def track (x : State Inputs Tree Digest × History Inputs Digest) (e : Event Inputs Tree) :
    State Inputs Tree Digest × History Inputs Digest :=
  ((exec r o mirror x.1 e).1, x.2.next r o x.1 e)

/-- The history only observes: forgetting it leaves the run of the work tree itself. -/
theorem run_track_fst (x : State Inputs Tree Digest × History Inputs Digest)
    (events : List (Event Inputs Tree)) :
    (run (track r o mirror) x events).1 = run (fun s e => (exec r o mirror s e).1) x.1 events :=
  run_map Prod.fst (fun _ _ => rfl) x events

/-- `check_cache` starts a download: no force file, no local archive, and the mirror has one. -/
def Downloads (s : State Inputs Tree Digest) : Prop :=
  s.forcefile = none ∧ ∃ key, r.checksum s.inputs none = some key ∧ s.cache (o.cachefile key) = none ∧
    (mirror (o.cachefile key)).isSome

/-- The condition on one event: a download does not break off; a recipe that completes its build
works on the inputs of the last checksum; `pull_cache` meets a standing image with its flag only
when INS_TOPDIR was last filled from, or packed into, the archive the checksum file names. What is edited, forced or
pushed from elsewhere stays in the scope. -/
def Careful (x : State Inputs Tree Digest × History Inputs Digest) : Event Inputs Tree → Prop
  | .edit inputs => inputs ∈ scope.states
  | .setforce date | .set1force date => date ∈ scope.dates
  | .foreignPush _ _ _ inputs force => inputs ∈ scope.states ∧ ∀ date ∈ force, date ∈ scope.dates
  | .checksum (.brokenOff _) => ¬ Downloads r o mirror x.1
  | .cachebuild env =>
    if x.1.matchfile then
      x.1.insdir.isSome → x.1.flag → ∃ key, x.1.checkfile = some key ∧ x.2.filled = some key
    else match env with
      | .built _ => ∀ inputs, x.2.checked = some inputs → inputs = x.1.inputs
      | _ => True
  | _ => True

/-- A `cachebuild` that succeeds leaves the image of the inputs that were checked. -/
def HandsOutChecked (x : State Inputs Tree Digest × History Inputs Digest) (env : BuildEnd Tree) :
    Prop :=
  (cachebuild r o x.1 env).2 = true → ∀ inputs, x.2.checked = some inputs →
    (cachebuild r o x.1 env).1.insdir = some (r.output inputs)

/-- Every archive of the package holds the image of inputs its name was computed from. -/
def Honest (packname : String) (cache : CacheDir Tree Digest) : Prop :=
  ∀ file image, cache file = some image → file.packname = packname →
    ∃ inputs, scope.Names r file.checksum inputs ∧ image = r.output inputs

/-- What careful events preserve. -/
structure Inv (x : State Inputs Tree Digest × History Inputs Digest) : Prop where
  honest : Honest scope r o.packname x.1.cache
  current : x.1.inputs ∈ scope.states
  forced : ∀ force, x.1.forcefile = some force → force.date ∈ scope.dates
  keyed : ∀ key, x.1.checkfile = some key → ∃ inputs, x.2.checked = some inputs ∧ scope.Names r key inputs
  image : ∀ key tree, x.2.filled = some key → x.1.insdir = some tree →
    ∃ inputs, scope.Names r key inputs ∧ tree = r.output inputs

end Runs

variable {scope : Scope Inputs} {r : Recipe Inputs Tree Digest} {o : Options} {mirror : CacheDir Tree Digest}

theorem Honest.deleted {packname : String} {cache : CacheDir Tree Digest}
    (honest : Honest scope r packname cache) (o : Options) : Honest scope r packname (delCache o cache) := by
  intro file image found named
  unfold delCache at found
  split at found
  · contradiction
  · exact honest file image found named

variable {s : State Inputs Tree Digest} {h : History Inputs Digest}

theorem inv_fresh {inputs : Inputs} (member : inputs ∈ scope.states) {cache : CacheDir Tree Digest}
    (honest : Honest scope r o.packname cache) :
    Inv scope r o (fresh inputs cache, ({} : History Inputs Digest)) where
  honest := honest
  current := member
  forced := by intro force found; contradiction
  keyed := by intro key found; contradiction
  image := by intro key tree found; contradiction

/-- `pull_cache` succeeds with the standing image, or with the archive the checksum file names. -/
theorem pullCache_succeeds (success : (pullCache o s).2 = true) :
    (s.insdir.isNone || !s.flag) = false ∧ (pullCache o s).1 = s ∨
    (s.insdir.isNone || !s.flag) = true ∧ ∃ key image, s.checkfile = some key ∧
      s.cache (o.cachefile key) = some image ∧
      (pullCache o s).1 = { s with insdir := some image, flag := true } := by
  unfold pullCache at success ⊢
  split at success
  · next absent =>
    rw [if_pos absent]
    split at success
    · contradiction
    · next key named =>
      split at success
      · contradiction
      · next image cached => exact .inr ⟨absent, key, image, named, cached, by simp only [named]⟩
  · next present => exact .inl ⟨Bool.eq_false_iff.mpr present, by rw [if_neg present]⟩

theorem pullCache_fails (failure : (pullCache o s).2 = false) : (pullCache o s).1 = s := by
  unfold pullCache at failure ⊢
  split at failure
  · next absent =>
    rw [if_pos absent]
    split at failure
    · rfl
    · next key named =>
      split at failure
      · rfl
      · contradiction
  · contradiction

/-- A checksum computed again is one of the inputs, with the date of a standing force file or without one. -/
theorem redoChecksum_keyed (current : s.inputs ∈ scope.states)
    (forced : ∀ force, s.forcefile = some force → force.date ∈ scope.dates) {key : Digest}
    (written : (redoChecksum r s).checkfile = some key) : scope.Names r key s.inputs := by
  unfold redoChecksum at written
  split at written
  · exact ⟨current, none, nofun, written⟩
  · next force standing =>
    split at written
    · exact ⟨current, none, nofun, written⟩
    · refine ⟨current, some force.date, ?_, written⟩
      rintro _ ⟨⟩
      exact forced force standing

/-- The name `push_cache` packs under is a checksum of the inputs just built, if the checksum file
still stands for them. -/
theorem pushChecksum_keyed {env : PushEnd} {key : Digest} (current : s.inputs ∈ scope.states)
    (forced : ∀ force, s.forcefile = some force → force.date ∈ scope.dates)
    (keyed : ∀ key, s.checkfile = some key → scope.Names r key s.inputs)
    (named : (pushChecksum r s env).2 = some key) :
    scope.Names r key s.inputs ∧ (pushChecksum r s env).1.checkfile = some key := by
  unfold pushChecksum at named ⊢
  cases checked : s.checkfile with
  | some standing =>
    simp only [checked] at named ⊢
    cases named
    exact ⟨keyed _ checked, rfl⟩
  | none =>
    simp only [checked] at named ⊢
    split at named
    · contradiction
    · next going =>
      rw [if_neg going]
      exact ⟨redoChecksum_keyed current forced named, named⟩

/-- The inputs and the image stay, and no force file comes up. -/
structure Kept (s s' : State Inputs Tree Digest) : Prop where
  inputs : s'.inputs = s.inputs
  insdir : s'.insdir = s.insdir
  forcefile : ∀ force, s'.forcefile = some force → s.forcefile = some force

theorem Kept.refl (s : State Inputs Tree Digest) : Kept s s := ⟨rfl, rfl, fun _ => id⟩

theorem redoChecksum_kept : Kept s (redoChecksum r s) ∧ (redoChecksum r s).cache = s.cache := by
  unfold redoChecksum
  split
  · exact ⟨⟨rfl, rfl, fun _ => id⟩, rfl⟩
  · split
    · exact ⟨⟨rfl, rfl, nofun⟩, rfl⟩
    · exact ⟨⟨rfl, rfl, fun _ => id⟩, rfl⟩

theorem pushChecksum_kept (env : PushEnd) :
    Kept s (pushChecksum r s env).1 ∧ (pushChecksum r s env).1.cache = s.cache := by
  unfold pushChecksum
  split
  · exact ⟨Kept.refl s, rfl⟩
  · obtain ⟨⟨inputs, insdir, forcefile⟩, cache⟩ := @redoChecksum_kept _ _ _ r s
    dsimp only
    split <;> exact ⟨⟨inputs, insdir, forcefile⟩, cache⟩

/-- Without a name to pack under the checksum file is gone. -/
theorem pushChecksum_none {env : PushEnd} (unnamed : (pushChecksum r s env).2 = none) :
    (pushChecksum r s env).1.checkfile = none := by
  unfold pushChecksum at unnamed ⊢
  split at unnamed
  · contradiction
  · dsimp only
    split at unnamed
    · next stopped => rw [if_pos stopped]
    · next going => rw [if_neg going]; exact unnamed

theorem Inv.of_matchfile {matchfile : Bool} (inv : Inv scope r o (s, h)) :
    Inv scope r o ({ s with matchfile := matchfile }, h) :=
  ⟨inv.honest, inv.current, inv.forced, inv.keyed, inv.image⟩

theorem inv_pulled (inv : Inv scope r o (s, h)) :
    Inv scope r o ((pullCache o s).1, if (s.insdir.isNone || !s.flag) && (pullCache o s).2 then
      { h with filled := s.checkfile } else h) := by
  cases success : (pullCache o s).2 with
  | false => simpa only [pullCache_fails success, Bool.and_false, Bool.false_eq_true, if_false] using inv
  | true =>
    rcases pullCache_succeeds success with ⟨present, same⟩ | ⟨absent, key, image, named, cached, unpacked⟩
    · simpa only [same, present, Bool.false_and, Bool.false_eq_true, if_false] using inv
    · simp only [absent, unpacked, Bool.and_true, if_true]
      refine ⟨inv.honest, inv.current, inv.forced, inv.keyed, ?_⟩
      intro other tree filled installed
      obtain ⟨inputs, fromInputs, packed⟩ := inv.honest _ _ cached rfl
      have same : key = other := Option.some.inj (named.symm.trans filled)
      exact ⟨inputs, same ▸ fromInputs, (Option.some.inj installed).symm.trans packed⟩

variable [DecidableEq Digest]

theorem Honest.stored {packname : String} {cache : CacheDir Tree Digest}
    (honest : Honest scope r packname cache) {file : CacheFile Digest} {inputs : Inputs} {image : Tree}
    (key : scope.Names r file.checksum inputs) (packed : image = r.output inputs) :
    Honest scope r packname (store cache file image) := by
  intro other image found named
  unfold store at found
  split at found
  · next same =>
    subst same
    exact ⟨inputs, key, (Option.some.inj found).symm.trans packed⟩
  · exact honest other image found named

/-- What `checksum` leaves: the checksum of the inputs, if any, and ENV_CACHE_DIR and INS_TOPDIR as they were, or
without INS_TOPDIR and with the archive of the mirror instead of those of the package. -/
theorem checkCache_result {env : CheckEnd Tree} (whole : ∀ part, env = .brokenOff part → ¬ Downloads r o mirror s) :
    let checked := (checkCache r o mirror s env).1
    checked.inputs = s.inputs ∧ checked.forcefile = s.forcefile ∧
      (∀ key, checked.checkfile = some key → r.checksum s.inputs none = some key) ∧
      (checked.cache = s.cache ∧ checked.insdir = s.insdir ∨
        ∃ file image, mirror file = some image ∧ file.packname = o.packname ∧
          checked.cache = store (delCache o s.cache) file image ∧ checked.insdir = none) := by
  cases forced : s.forcefile with
  | some force =>
    simp only [checkCache, forced, Option.isSome_some, if_true]
    exact ⟨trivial, trivial, nofun, .inl ⟨trivial, trivial⟩⟩
  | none =>
    cases computed : r.checksum s.inputs none with
    | none =>
      have unread : checkCache r o mirror s env = ({ s with matchfile := false, checkfile := none }, false) := by
        cases env <;> simp [checkCache, forced, computed]
      rw [unread]
      exact ⟨rfl, forced, nofun, .inl ⟨rfl, rfl⟩⟩
    | some key =>
      cases cached : s.cache (o.cachefile key) with
      | some tree =>
        cases env <;> simp only [checkCache, forced, computed, cached, Option.isSome_some, Option.isSome_none,
          if_true, Bool.false_eq_true, if_false]
        · exact ⟨trivial, trivial, nofun, .inl ⟨trivial, trivial⟩⟩
        all_goals exact ⟨trivial, trivial, fun _ => id, .inl ⟨trivial, trivial⟩⟩
      | none =>
        cases mirrored : mirror (o.cachefile key) with
        | none =>
          cases env <;> simp only [checkCache, forced, computed, cached, mirrored, Option.isSome_none,
            Bool.false_eq_true, if_false]
          · exact ⟨trivial, trivial, nofun, .inl ⟨trivial, trivial⟩⟩
          all_goals exact ⟨trivial, trivial, fun _ => id, .inl ⟨trivial, trivial⟩⟩
        | some tree =>
          cases env with
          | stopped =>
            simp only [checkCache, forced, Option.isSome_none, Bool.false_eq_true, if_false]
            exact ⟨trivial, trivial, nofun, .inl ⟨trivial, trivial⟩⟩
          | complete =>
            simp only [checkCache, forced, computed, cached, mirrored, Option.isSome_none, Bool.false_eq_true,
              if_false]
            exact ⟨trivial, trivial, fun _ => id, .inr ⟨_, tree, mirrored, rfl, rfl, trivial⟩⟩
          | brokenOff part => exact absurd ⟨forced, key, computed, cached, by rw [mirrored]; rfl⟩ (whole part rfl)

/-- `checksum` leaves INS_TOPDIR alone or removes it, and writes the checksum of the inputs. -/
theorem inv_checkCache (honestMirror : Honest scope r o.packname mirror) (env : CheckEnd Tree)
    (careful : Careful scope r o mirror (s, h) (.checksum env)) (inv : Inv scope r o (s, h)) :
    Inv scope r o ((checkCache r o mirror s env).1, { h with checked := some s.inputs }) := by
  obtain ⟨honest, current, forced, -, image⟩ := inv
  have whole : ∀ part, env = .brokenOff part → ¬ Downloads r o mirror s := by
    rintro part rfl
    exact careful
  obtain ⟨inputs, forcefile, checkfile, files⟩ := checkCache_result whole
  refine ⟨?_, inputs ▸ current, forcefile ▸ forced, fun key written => ?_, fun key tree filled installed => ?_⟩
  · rcases files with ⟨cache, -⟩ | ⟨file, tree, mirrored, named, cache, -⟩
    · exact cache ▸ honest
    · obtain ⟨inputs, key, packed⟩ := honestMirror file tree mirrored named
      exact cache ▸ (honest.deleted o).stored key packed
  · exact ⟨s.inputs, rfl, current, none, nofun, checkfile key written⟩
  · rcases files with ⟨-, insdir⟩ | ⟨-, -, -, -, -, insdir⟩
    · exact image key tree filled (insdir.symm.trans installed)
    · rw [insdir] at installed
      cases installed

/-- What `push_cache` leaves: the image it packed, and ENV_CACHE_DIR as it was, without the archives
of the package, or with the new one in their place. -/
theorem pushCache_result {env : PushEnd} {image : Tree} (installed : s.insdir = some image) :
    Kept s (pushCache r o s env).1 ∧
    (pushCache r o s env).1.checkfile = (pushChecksum r s env).1.checkfile ∧
    ((pushCache r o s env).1.cache = s.cache ∨ (pushCache r o s env).1.cache = delCache o s.cache ∨
      ∃ key, (pushChecksum r s env).2 = some key ∧
        (pushCache r o s env).1.cache = store (delCache o s.cache) (o.cachefile key) image) := by
  obtain ⟨⟨inputs, insdir, forcefile⟩, cache⟩ := pushChecksum_kept (r := r) (s := s) env
  rw [← cache]
  simp only [pushCache, installed]
  rcases named : pushChecksum r s env with ⟨s', _ | key⟩
  · simp only [named] at inputs insdir forcefile ⊢
    exact ⟨⟨inputs, insdir, forcefile⟩, trivial, .inl trivial⟩
  · simp only [named] at inputs insdir forcefile ⊢
    have kept : Kept s s' := ⟨inputs, insdir, forcefile⟩
    cases env with
    | stopped => exact ⟨⟨inputs, insdir, forcefile⟩, rfl, .inr (.inr ⟨key, rfl, rfl⟩)⟩
    | flagged => exact ⟨⟨inputs, insdir, forcefile⟩, rfl, .inl rfl⟩
    | deleted => exact ⟨⟨inputs, insdir, forcefile⟩, rfl, .inr (.inl rfl)⟩
    | moved => exact ⟨⟨inputs, insdir, forcefile⟩, rfl, .inr (.inr ⟨key, rfl, rfl⟩)⟩

/-- A build that runs to its end, and as much of `push_cache` as follows it. -/
theorem inv_built (push : PushEnd) (careful : ∀ inputs, h.checked = some inputs → inputs = s.inputs)
    (inv : Inv scope r o (s, h)) :
    let built := pushCache r o { s with insdir := some (r.output s.inputs) } push
    Inv scope r o
      (built.1, ⟨if s.checkfile.isNone then some s.inputs else h.checked, built.1.checkfile⟩) := by
  obtain ⟨honest, current, forced, keyed, -⟩ := inv
  set s' : State Inputs Tree Digest := { s with insdir := some (r.output s.inputs) } with compiled
  obtain ⟨kept, checkfile, cache⟩ := @pushCache_result _ _ _ r o s' _ push (r.output s.inputs) rfl
  have keyed' : ∀ key, s'.checkfile = some key → scope.Names r key s'.inputs := by
    intro key found
    obtain ⟨inputs, checked, names⟩ := keyed key found
    exact careful inputs checked ▸ names
  have named : ∀ key, (pushCache r o s' push).1.checkfile = some key → scope.Names r key s.inputs := by
    intro key found
    rw [checkfile] at found
    cases name : (pushChecksum r s' push).2 with
    | none => rw [pushChecksum_none name] at found; contradiction
    | some other =>
      obtain ⟨names, written⟩ := pushChecksum_keyed (s := s') current forced keyed' name
      rw [written] at found
      exact Option.some.inj found ▸ names
  have checked : (if s.checkfile.isNone then some s.inputs else h.checked) = some s.inputs := by
    cases found : s.checkfile with
    | none => rfl
    | some key =>
      obtain ⟨inputs, checked, -⟩ := keyed key found
      simpa only [Option.isNone_some, Bool.false_eq_true, if_false, careful inputs checked] using checked
  refine ⟨?_, kept.inputs ▸ current, fun force standing => forced force (kept.forcefile force standing), ?_, ?_⟩
  · rcases cache with same | deleted | ⟨key, name, moved⟩
    · exact same ▸ honest
    · exact deleted ▸ honest.deleted o
    · exact moved ▸ (honest.deleted o).stored (pushChecksum_keyed (s := s') current forced keyed' name).1 rfl
  · intro key found
    exact ⟨s.inputs, checked, named key found⟩
  · intro key tree found installed
    exact ⟨s.inputs, named key found, Option.some.inj (installed.symm.trans kept.insdir)⟩

theorem inv_cachebuild (env : BuildEnd Tree) (careful : Careful scope r o mirror (s, h) (.cachebuild env))
    (inv : Inv scope r o (s, h)) :
    Inv scope r o ((cachebuild r o s env).1, h.next r o s (.cachebuild env)) := by
  apply Inv.of_matchfile (s := (cachebuildCommands r o s env).1)
  simp only [Careful] at careful
  simp only [History.next, cachebuild, cachebuildCommands]
  by_cases matched : s.matchfile = true
  · simp only [if_pos matched]
    exact inv_pulled inv
  · simp only [if_neg matched] at careful ⊢
    cases env with
    | stopped => exact inv
    | broken left => exact ⟨inv.honest, inv.current, inv.forced, inv.keyed, by intro _ _ gone; contradiction⟩
    | built push => exact inv_built push careful inv

/-- Every careful event keeps the archives honest and the two files in step with the history. -/
theorem inv_track (honestMirror : Honest scope r o.packname mirror)
    (x : State Inputs Tree Digest × History Inputs Digest) (e : Event Inputs Tree) (inv : Inv scope r o x)
    (careful : Careful scope r o mirror x e) : Inv scope r o (track r o mirror x e) := by
  obtain ⟨s, h⟩ := x
  cases e with
  | edit inputs => exact ⟨inv.honest, careful, inv.forced, inv.keyed, inv.image⟩
  | checksum env => exact inv_checkCache honestMirror env careful inv
  | cachebuild env => exact inv_cachebuild env careful inv
  | setforce date | set1force date =>
    refine ⟨inv.honest, inv.current, ?_, inv.keyed, inv.image⟩
    rintro _ ⟨⟩
    exact careful
  | unsetforce =>
    exact ⟨inv.honest.deleted o, inv.current, nofun, inv.keyed, by intro _ _ _ gone; contradiction⟩
  | foreignPush version cacheGrades cachePrefix inputs force =>
    simp only [track, exec]
    split
    · exact ⟨inv.honest, inv.current, inv.forced, inv.keyed, inv.image⟩
    · next key computed =>
      have names : scope.Names r key inputs := ⟨careful.1, force, careful.2, computed⟩
      exact ⟨(inv.honest.deleted _).stored names rfl, inv.current, inv.forced, inv.keyed, inv.image⟩

/-- In a state that careful events lead to, a careful `cachebuild` hands out the checked image. -/
theorem handsOutChecked_of_inv (apart : scope.Apart r) (env : BuildEnd Tree)
    (careful : Careful scope r o mirror (s, h) (.cachebuild env)) (inv : Inv scope r o (s, h)) :
    HandsOutChecked r o (s, h) env := by
  intro success inputs checked
  have fromChecked : ∀ key inputs', s.checkfile = some key → scope.Names r key inputs' →
      r.output inputs' = r.output inputs := by
    intro key inputs' named names
    obtain ⟨inputs'', checked', names'⟩ := inv.keyed key named
    have equal : inputs'' = inputs := Option.some.inj (checked'.symm.trans checked)
    exact apart key inputs' inputs names (equal ▸ names')
  simp only [Careful] at careful
  change (cachebuildCommands r o s env).1.insdir = _
  simp only [cachebuild, cachebuildCommands] at success ⊢
  by_cases matched : s.matchfile = true
  · simp only [if_pos matched] at careful success ⊢
    rcases pullCache_succeeds success with
      ⟨present, same⟩ | ⟨_, key, image, named, cached, unpacked⟩
    · simp only [Bool.or_eq_false_iff, Option.isNone_eq_false_iff, Bool.not_eq_false'] at present
      obtain ⟨key, named, filled⟩ := careful present.1 present.2
      obtain ⟨image, installed⟩ := Option.isSome_iff_exists.mp present.1
      obtain ⟨inputs', names, packed⟩ := inv.image key image filled installed
      rw [same, ← fromChecked key inputs' named names, ← packed]
      exact installed
    · obtain ⟨inputs', names, packed⟩ := inv.honest _ _ cached rfl
      rw [unpacked, ← fromChecked key inputs' named names, ← packed]
  · simp only [if_neg matched] at careful success ⊢
    cases env with
    | stopped => contradiction
    | broken left => contradiction
    | built push =>
      have current : inputs = s.inputs := careful inputs checked
      rw [current]
      exact (pushCache_result (s := { s with insdir := some (r.output s.inputs) }) rfl).1.insdir

/-- A package whose build is a function of the inputs of its checksum. -/
def package (md5 : Text → Key) (fnmatch : Text → Text → Bool) (output : InputState → Tree) :
    Recipe InputState Tree Key where
  output := output
  checksum := getChecksum md5 fnmatch

/-- Inputs that build different images give the checksum different lines: other digests in the pool, or another
append line. -/
def PoolsApart (md5 : Text → Key) (fnmatch : Text → Text → Bool) (output : InputState → Tree)
    (scope : Scope InputState) : Prop :=
  ∀ inputs ∈ scope.states, ∀ inputs' ∈ scope.states, ∀ force force' : Option Key,
    (∀ date ∈ force, date ∈ scope.dates) → (∀ date ∈ force', date ∈ scope.dates) →
    keyLines md5 fnmatch inputs force = keyLines md5 fnmatch inputs' force' → output inputs = output inputs'

theorem PoolsApart.apart {md5 : Text → Key} {fnmatch : Text → Text → Bool} {output : InputState → Tree}
    {scope : Scope InputState} (injective : Function.Injective md5)
    (pools : PoolsApart md5 fnmatch output scope) : scope.Apart (package md5 fnmatch output) := by
  rintro key inputs inputs' ⟨member, force, dated, named⟩ ⟨member', force', dated', named'⟩
  exact pools inputs member inputs' member' force force' dated dated'
    (keyLines_of_getChecksum injective named named')

/-- Take md5 as injective. In every run of careful events from a new work tree, each `cachebuild` that succeeds
leaves in INS_TOPDIR the image of the inputs that were checked, where inputs that build different images give the
checksum different lines. -/
theorem cachebuild_hands_out_checked (md5 : Text → Key) (fnmatch : Text → Text → Bool)
    (output : InputState → Tree) (o : Options) (mirror cache : CacheDir Tree Key) (scope : Scope InputState)
    (inputs : InputState) (events : List (Event InputState Tree)) (env : BuildEnd Tree)
    (injective : Function.Injective md5) (pools : PoolsApart md5 fnmatch output scope)
    (member : inputs ∈ scope.states) (honest : Honest scope (package md5 fnmatch output) o.packname cache)
    (honestMirror : Honest scope (package md5 fnmatch output) o.packname mirror)
    (careful : Guarded (track (package md5 fnmatch output) o mirror)
      (Careful scope (package md5 fnmatch output) o mirror) (fresh inputs cache, {}) (events ++ [.cachebuild env])) :
    HandsOutChecked (package md5 fnmatch output) o
      (run (track (package md5 fnmatch output) o mirror) (fresh inputs cache, {}) events) env := by
  obtain ⟨before, last⟩ := (guarded_append _ _ _ _ _).mp careful
  exact handsOutChecked_of_inv (pools.apart injective) env last.1
    (before.invariant (inv_track honestMirror) (inv_fresh member honest))

/-- A package of two files, whose image is what stands in them; `[]` stands for a partial install. -/
def twoFilesPackage : Recipe InputState FileTree Key := package escapeDigest (fun _ _ => false) InputState.tree

def twoFilesOptions : Options := Options.parse "two" "1.0" none ["v9", "aarch64"] 2

/-- Both files are as they were, one is edited, or they exchange their contents. -/
def before : InputState := twoFiles "src/a.c" "src/b.c" "x" "y"
def edited : InputState := twoFiles "src/a.c" "src/b.c" "x" "z"
def exchanged : InputState := twoFiles "src/a.c" "src/b.c" "y" "x"

/-- A new work tree of the package, with no archive anywhere. -/
def twoFilesRun (events : List (Event InputState FileTree)) :
    State InputState FileTree Key × History InputState Key :=
  run (track twoFilesPackage twoFilesOptions fun _ => none) (fresh before fun _ => none, {}) events

omit [DecidableEq Digest] in
theorem careful_built {x : State Inputs Tree Digest × History Inputs Digest} {push : PushEnd}
    (unmatched : x.1.matchfile = false) (current : x.2.checked = some x.1.inputs) :
    Careful scope r o mirror x (.cachebuild (.built push)) := by
  rw [Careful, unmatched]
  intro inputs checked
  exact Option.some.inj (checked.symm.trans current)

omit [DecidableEq Digest] in
theorem careful_pull {x : State Inputs Tree Digest × History Inputs Digest} {env : BuildEnd Tree} {key : Digest}
    (matched : x.1.matchfile = true) (named : x.1.checkfile = some key) (filled : x.2.filled = some key) :
    Careful scope r o mirror x (.cachebuild env) := by
  simp only [Careful, if_pos matched]
  exact fun _ _ => ⟨key, named, filled⟩

theorem edited_poolsApart :
    PoolsApart escapeDigest (fun _ _ => false) InputState.tree ⟨{before, edited}, ∅⟩ := by
  intro inputs member inputs' member' force force' dated dated' same
  obtain rfl : force = none := Option.eq_none_iff_forall_not_mem.mpr fun date found => dated date found
  obtain rfl : force' = none := Option.eq_none_iff_forall_not_mem.mpr fun date found => dated' date found
  rcases member with rfl | rfl <;> rcases member' with rfl | rfl
  · rfl
  · exact absurd same (by decide)
  · exact absurd same (by decide)
  · rfl

/-- Built, pushed, edited, built again and checked again: the last `cachebuild` keeps the standing image. -/
theorem edited_hands_out_checked :
    HandsOutChecked twoFilesPackage twoFilesOptions
      (twoFilesRun [.checksum .complete, .cachebuild (.built .moved), .edit edited, .checksum .complete,
        .cachebuild (.built .moved), .checksum .complete]) .stopped :=
  cachebuild_hands_out_checked escapeDigest (fun _ _ => false) InputState.tree twoFilesOptions (fun _ => none)
    (fun _ => none) ⟨{before, edited}, ∅⟩ before _ .stopped escapeDigest_injective edited_poolsApart (.inl rfl)
    (by intro _ _ found; contradiction) (by intro _ _ found; contradiction)
    ⟨trivial, careful_built (by decide) rfl, .inr rfl, trivial, careful_built (by decide) rfl, trivial,
      careful_pull (by decide) rfl rfl, trivial⟩

/-- After one version is built and pushed, a build of the edited files breaks off in its install; back at the first
version the archive matches and the partial install is handed out. Also when another work tree pushes the archive of
the first version while the image of the edited files stands, and when two files exchange their contents. -/
theorem twoFiles_hands_out_stale :
    Function.Injective escapeDigest ∧
    ¬ HandsOutChecked twoFilesPackage twoFilesOptions
      (twoFilesRun [.checksum .complete, .cachebuild (.built .moved), .edit edited, .checksum .complete,
        .cachebuild (.broken (some [])), .edit before, .checksum .complete]) .stopped ∧
    ¬ HandsOutChecked twoFilesPackage twoFilesOptions
      (twoFilesRun [.edit edited, .checksum .complete, .cachebuild (.built .moved),
        .foreignPush "1.0" ["v9", "aarch64"] "aarch64" before none, .edit before, .checksum .complete])
      .stopped ∧
    ¬ HandsOutChecked twoFilesPackage twoFilesOptions
      (twoFilesRun [.checksum .complete, .cachebuild (.built .moved), .edit exchanged, .checksum .complete])
      .stopped := by
  refine ⟨escapeDigest_injective, fun handsOut => ?_, fun handsOut => ?_, fun handsOut => ?_⟩
  · exact absurd (handsOut (by decide) before (by rfl)) (by decide)
  · exact absurd (handsOut (by decide) before (by rfl)) (by decide)
  · exact absurd (handsOut (by decide) exchanged (by rfl)) (by decide)

end CBuild.Soundness.CacheFreshness
