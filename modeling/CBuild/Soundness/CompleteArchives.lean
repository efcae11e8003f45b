import CBuild.Machine.Run
import CBuild.Model.ProcessCache.Effects

/-! # The archives in the shared cache

A name in ENV_CACHE_DIR is trusted by every later check. `wget` writes under that name, and `push_cache` moves what
`tar` wrote there whether or not `tar` succeeded. So all archives are complete in every state of a run exactly when
no download and no move stops halfway, and no move begins with an archive that `tar` left cut.
-/

namespace CBuild.Soundness.CompleteArchives

open CBuild.Machine CBuild.Model.ProcessCache CBuild.Model.ProcessCache.Effects

variable {Site Tree Digest : Type}

/-- All archives of a directory are complete. -/
def AllComplete (cache : CacheFile Digest → Option (Archive Tree)) : Prop :=
  ∀ file archive, cache file = some archive → ∃ image, archive = .complete image

def Complete (s : System Site Tree Digest) : Prop := AllComplete s.state.cache

/-- The effect stops and leaves a part of what it writes. -/
def Halfway : Outcome (Left Tree Digest) → Prop
  | .failed (.part ..) | .killed (.part ..) => True
  | _ => False

/-- The effect does all that it should, though it may fail then. -/
def Through : Outcome (Left Tree Digest) → Prop
  | .success | .failed .whole | .killed .whole => True
  | _ => False

/-- The download or move does not stop halfway, and the archive to move is not cut. -/
def EffectSound (files : Files Site Tree Digest) (site : Site) (outcome : Outcome (Left Tree Digest)) :
    Effect Tree Digest → Prop
  | .wget _ _ => ¬ Halfway outcome
  | .mv file => ∀ archive, (files.work site).packed file = some archive →
      ¬ Halfway outcome ∧ (Through outcome → archive ≠ .cut)
  | _ => True

/-- The event ends no download and no move that spoils the cache. -/
def Sound (s : System Site Tree Digest) : Event Site Tree Digest → Prop
  | .ends outcome => ∀ site effect next, s.prog = .act (site, effect) next → EffectSound s.state site outcome effect
  | _ => True

variable [DecidableEq Site] [DecidableEq Digest] {files : Files Site Tree Digest}

theorem allComplete_update {cache : CacheFile Digest → Option (Archive Tree)} (complete : AllComplete cache)
    (file : CacheFile Digest) (archive : Archive Tree) :
    AllComplete (Function.update cache file (some archive)) ↔ ∃ image, archive = .complete image := by
  constructor
  · intro all
    exact all file archive (Function.update_self ..)
  · intro whole other found here
    by_cases same : other = file
    · subst same
      rw [Function.update_self] at here
      cases here
      exact whole
    · rw [Function.update_of_ne same] at here
      exact complete other found here

omit [DecidableEq Digest] in
theorem allComplete_remove {cache : CacheFile Digest → Option (Archive Tree)} (complete : AllComplete cache)
    (doomed : CacheFile Digest → Bool) : AllComplete fun file => if doomed file then none else cache file := by
  intro file archive here
  dsimp only at here
  split at here
  · cases here
  · exact complete file archive here

/-- An effect that writes no archive leaves the cache, or takes archives out of it. -/
theorem allComplete_done (complete : AllComplete files.cache) (site : Site) (effect : Effect Tree Digest) :
    AllComplete (done files site effect).cache ↔ ∀ file, effect = .mv file →
      (files.work site).packed file ≠ some .cut := by
  cases effect with
  | rmArchives doomed => exact iff_of_true (allComplete_remove complete doomed) nofun
  | wget file image => exact iff_of_true ((allComplete_update complete file _).mpr ⟨image, rfl⟩) nofun
  | unpack file =>
    refine iff_of_true ?_ nofun
    rw [done]
    split <;> exact complete
  | pack file =>
    refine iff_of_true ?_ nofun
    rw [done]
    split <;> exact complete
  | mv file =>
    rw [done]
    split
    · next archive packed =>
      refine (allComplete_update complete file archive).trans ⟨?_, ?_⟩
      · rintro ⟨image, rfl⟩ other same
        cases same
        rw [packed]
        nofun
      · intro whole
        cases archive with
        | complete image => exact ⟨image, rfl⟩
        | cut => exact absurd packed (whole file rfl)
    · next packed =>
      refine iff_of_true complete fun other same => ?_
      cases same
      rw [packed]
      nofun
  | _ => exact iff_of_true complete nofun

theorem allComplete_cutShort (complete : AllComplete files.cache) (site : Site) (effect : Effect Tree Digest)
    (insdir : Option Tree) (checkfile : Option Digest) (spared : CacheFile Digest → Bool) :
    AllComplete (cutShort files site insdir checkfile spared effect).cache ↔
      (∀ file image, effect ≠ .wget file image) ∧
        ∀ file, effect = .mv file → (files.work site).packed file = none := by
  have broken (file : CacheFile Digest) : ¬ AllComplete (files.setCache file .cut).cache := by
    intro all
    obtain ⟨image, same⟩ := (allComplete_update complete file .cut).mp all
    cases same
  cases effect with
  | rmArchives doomed =>
    refine iff_of_true ?_ ⟨nofun, nofun⟩
    exact allComplete_remove complete fun file => doomed file && !spared file
  | wget file image => exact iff_of_false (broken file) fun none => none.1 file image rfl
  | mv file =>
    rw [cutShort]
    cases packed : (files.work site).packed file with
    | none =>
      refine iff_of_true complete ⟨nofun, fun other same => ?_⟩
      cases same
      exact packed
    | some archive =>
      refine iff_of_false (broken file) fun none => ?_
      rw [none.2 file rfl] at packed
      cases packed
  | _ => exact iff_of_true complete ⟨nofun, nofun⟩

omit [DecidableEq Site] [DecidableEq Digest] in
theorem sound_of_through {outcome : Outcome (Left Tree Digest)} (through : Through outcome) {site : Site}
    {effect : Effect Tree Digest} : EffectSound files site outcome effect ↔ ∀ file, effect = .mv file →
      (files.work site).packed file ≠ some .cut := by
  have entire : ¬ Halfway outcome := by
    intro halfway
    match outcome, through, halfway with
    | .failed .whole, _, halfway => exact halfway
    | .killed .whole, _, halfway => exact halfway
  cases effect with
  | wget file image => exact iff_of_true entire nofun
  | mv file =>
    constructor
    · intro sound other same packed
      cases same
      exact (sound .cut packed).2 through rfl
    · intro whole archive packed
      exact ⟨entire, fun _ same => whole file rfl (same ▸ packed)⟩
  | _ => exact iff_of_true trivial nofun

omit [DecidableEq Site] [DecidableEq Digest] in
theorem sound_of_halfway {outcome : Outcome (Left Tree Digest)} (halfway : Halfway outcome) {site : Site}
    {effect : Effect Tree Digest} : EffectSound files site outcome effect ↔
      (∀ file image, effect ≠ .wget file image) ∧
        ∀ file, effect = .mv file → (files.work site).packed file = none := by
  cases effect with
  | wget file image => exact iff_of_false (fun entire => entire halfway) fun none => none.1 file image rfl
  | mv file =>
    constructor
    · refine fun sound => ⟨nofun, fun other same => ?_⟩
      cases same
      by_contra packed
      obtain ⟨archive, packed⟩ := Option.ne_none_iff_exists'.mp packed
      exact (sound archive packed).1 halfway
    · intro none archive packed
      rw [none.2 file rfl] at packed
      cases packed
  | _ => exact iff_of_true trivial ⟨nofun, nofun⟩

/-- The archives stay complete over an effect exactly when it is sound. -/
theorem allComplete_apply (complete : AllComplete files.cache) (site : Site) (effect : Effect Tree Digest)
    (outcome : Outcome (Left Tree Digest)) :
    AllComplete (apply files (site, effect) outcome).cache ↔ EffectSound files site outcome effect := by
  have whole (through : Through outcome) :
      AllComplete (done files site effect).cache ↔ EffectSound files site outcome effect :=
    (allComplete_done complete site effect).trans (sound_of_through through).symm
  have part (halfway : Halfway outcome) insdir checkfile spared :
      AllComplete (cutShort files site insdir checkfile spared effect).cache ↔
        EffectSound files site outcome effect :=
    (allComplete_cutShort complete site effect insdir checkfile spared).trans (sound_of_halfway halfway).symm
  have idle (notThrough : ¬ Through outcome) (entire : ¬ Halfway outcome) :
      EffectSound files site outcome effect := by
    cases effect with
    | wget file image => exact entire
    | mv file => exact fun archive _ => ⟨entire, fun through => absurd through notThrough⟩
    | _ => trivial
  cases outcome with
  | success => exact whole trivial
  | failed left | killed left =>
    cases left with
    | untouched => exact iff_of_true complete (idle id id)
    | whole => exact whole trivial
    | part insdir checkfile spared => exact part trivial insdir checkfile spared

omit [DecidableEq Site] [DecidableEq Digest] in
theorem complete_between {s : System Site Tree Digest} (complete : Complete s)
    (allComplete : AllComplete files.cache) : Complete (s.between files) := by
  rw [System.between]
  split
  · exact allComplete
  · exact complete

/-- The archives stay complete over an event exactly when it is sound. -/
theorem complete_step (s : System Site Tree Digest) (complete : Complete s) (e : Event Site Tree Digest) :
    Sound s e ↔ Complete (step s e) := by
  cases e with
  | call site o call =>
    refine iff_of_true trivial ?_
    rw [Complete, step, Process.start_state]
    exact complete
  | build site insdir flag => exact iff_of_true trivial (complete_between complete complete)
  | setForce site forcefile => exact iff_of_true trivial (complete_between complete complete)
  | ends outcome =>
    rw [Complete, step]
    cases running : s.prog with
    | act act next =>
      obtain ⟨site, effect⟩ := act
      rw [Process.advance_state running, allComplete_apply complete]
      constructor
      · exact fun sound => sound site effect next running
      · intro sound site' effect' next' same
        rw [running] at same
        cases same
        exact sound
    | exit =>
      rw [Process.advance_idle (by rw [running]; nofun)]
      exact iff_of_true (by rw [Sound, running]; nofun) complete
    | look next =>
      rw [Process.advance_idle (by rw [running]; nofun)]
      exact iff_of_true (by rw [Sound, running]; nofun) complete

/-- Every archive is complete in every state of the run. -/
def AlwaysComplete (s : System Site Tree Digest) (es : List (Event Site Tree Digest)) : Prop :=
  ∀ first, first <+: es → Complete (run step s first)

/-- Every state of a run has complete archives only, exactly when no download and no move stops halfway and no
archive that is cut is moved. -/
theorem complete_iff_sound (s : System Site Tree Digest) (complete : Complete s)
    (es : List (Event Site Tree Digest)) : AlwaysComplete s es ↔ Guarded step Sound s es :=
  guarded_iff_good (fun s e good sound => (complete_step s good e).mp sound)
    (fun s e good => complete_step s good e) complete complete es

/-- No effect fails or is the last one. -/
def Succeeds : Event Site Tree Digest → Prop
  | .ends .success => True
  | .ends _ => False
  | _ => True

/-- No archive that is still to be moved is cut. -/
def Unbroken (files : Files Site Tree Digest) : Prop := ∀ site file, (files.work site).packed file ≠ some .cut

omit [DecidableEq Digest] in
theorem Unbroken.setWork (unbroken : Unbroken files) (site : Site) {work : Work Tree Digest}
    (own : ∀ file, work.packed file ≠ some .cut) : Unbroken (files.setWork site work) := by
  intro other file
  by_cases same : other = site
  · subst same
    have here : (files.setWork other work).work other = work := Function.update_self ..
    rw [here]
    exact own file
  · have there : (files.setWork site work).work other = files.work other := Function.update_of_ne same ..
    rw [there]
    exact unbroken other file

theorem unbroken_done (unbroken : Unbroken files) (site : Site) (effect : Effect Tree Digest) :
    Unbroken (done files site effect) := by
  have write {file : CacheFile Digest} {archive : Option (Archive Tree)} (other : archive ≠ some .cut)
      (wanted : CacheFile Digest) :
      Function.update (files.work site).packed file archive wanted ≠ some .cut := by
    by_cases same : wanted = file
    · rw [same, Function.update_self]
      exact other
    · rw [Function.update_of_ne same]
      exact unbroken site wanted
  cases effect with
  | rmArchives | mkdir | readInputs | wget => exact unbroken
  | rmMatch | rmCheck | rmForce | rmInsdir | sum | touchMatch | touchFlag =>
    exact unbroken.setWork site (unbroken site)
  | unpack file =>
    rw [done]
    split
    · exact unbroken.setWork site (unbroken site)
    · exact unbroken
  | pack file =>
    rw [done]
    split
    · exact unbroken.setWork site (write nofun)
    · exact unbroken
  | mv file =>
    rw [done]
    split
    · exact @Unbroken.setWork _ _ _ _ (files.setCache file _) unbroken site _ (write nofun)
    · exact unbroken

theorem unbroken_step {s : System Site Tree Digest} (unbroken : Unbroken s.state) {e : Event Site Tree Digest}
    (succeeds : Succeeds e) : Unbroken (step s e).state := by
  have between (site : Site) {work : Work Tree Digest} (own : work.packed = (s.state.work site).packed) :
      Unbroken (s.between (s.state.setWork site work)).state := by
    rw [System.between]
    split
    · exact unbroken.setWork site fun file => own ▸ unbroken site file
    · exact unbroken
  match e, succeeds with
  | .call site o call, _ =>
    rw [step, Process.start_state]
    exact unbroken
  | .build site insdir flag, _ => exact between site rfl
  | .setForce site forcefile, _ => exact between site rfl
  | .ends .success, _ =>
    rw [step]
    cases running : s.prog with
    | act act next =>
      rw [Process.advance_state running]
      exact unbroken_done unbroken act.1 act.2
    | exit => rwa [Process.advance_idle (by rw [running]; nofun)]
    | look next => rwa [Process.advance_idle (by rw [running]; nofun)]

/-- A run without failures spoils no archive. -/
theorem guarded_of_succeeds {s : System Site Tree Digest} (unbroken : Unbroken s.state)
    {es : List (Event Site Tree Digest)} (succeeds : ∀ e ∈ es, Succeeds e) : Guarded step Sound s es := by
  induction es generalizing s with
  | nil => trivial
  | cons e es ih =>
    have first : Succeeds e := succeeds e (List.mem_cons_self ..)
    refine ⟨?_, ih (unbroken_step unbroken first) fun other member => succeeds other (List.mem_cons_of_mem _ member)⟩
    match e, first with
    | .call site o call, _ => trivial
    | .build site insdir flag, _ => trivial
    | .setForce site forcefile, _ => trivial
    | .ends .success, _ =>
      intro site effect next _
      have through : Through (.success : Outcome (Left Tree Digest)) := trivial
      exact (sound_of_through through).mpr fun file _ => unbroken site file

def options : Options := ⟨"zlib", "1.3", ["aarch64"], "aarch64"⟩

def empty : System Bool String ℕ where
  state := ⟨fun _ => ⟨none, false, none, false, none, fun _ => none⟩, fun _ => none⟩
  prog := .exit

theorem empty_complete : Complete empty := nofun

/-- The first tree builds the package and pushes it, and the second one checks and pulls it. -/
def pushAndPull : List (Event Bool String ℕ) :=
  .build true (some "image") false :: .call true options (.push 5) :: List.replicate 10 (.ends .success) ++
    (.call false options (.check 5 fun _ => none) :: List.replicate 6 (.ends .success)) ++
    .call false options .pull :: List.replicate 4 (.ends .success)

theorem pushAndPull_complete :
    AlwaysComplete empty pushAndPull ∧
      ((run step empty pushAndPull).state.work false).insdir = some "image" := by
  have unbroken : Unbroken empty.state := fun _ _ same => by cases same
  refine ⟨(complete_iff_sound empty empty_complete pushAndPull).mpr (guarded_of_succeeds unbroken ?_), by decide⟩
  simp [pushAndPull, Succeeds]

/-- The mirror has the archive, but the download is killed. -/
def killedDownload : List (Event Bool String ℕ) :=
  .call true options (.check 5 fun _ => some "image") :: List.replicate 8 (.ends .success) ++
    [.ends (.killed (.part none none fun _ => false))]

/-- `tar` fails, and what it wrote is moved. -/
def failedTar : List (Event Bool String ℕ) :=
  .build true (some "image") false :: .call true options (.push 5) :: List.replicate 6 (.ends .success) ++
    .ends (.failed (.part none none fun _ => false)) :: List.replicate 3 (.ends .success)

theorem spoiled : ¬ AlwaysComplete empty killedDownload ∧ ¬ AlwaysComplete empty failedTar := by
  have cut (es : List (Event Bool String ℕ))
      (here : (run step empty es).state.cache (options.cachefile 5) = some .cut) : ¬ AlwaysComplete empty es := by
    intro complete
    obtain ⟨image, same⟩ := complete es (List.prefix_refl es) _ _ here
    cases same
  exact ⟨cut _ (by decide), cut _ (by decide)⟩

end CBuild.Soundness.CompleteArchives
