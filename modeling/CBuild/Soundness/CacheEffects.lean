import CBuild.Model.ProcessCache.Effects

/-! # The methods of the cache as runs of their effects

The machine takes `check_cache`, `pull_cache` and `push_cache` each as one step, with an end that the environment
chooses. Each of these steps is a run of the effects of the method, however it ends.
-/

namespace CBuild.Soundness.CacheEffects

open CBuild.Machine CBuild.Model CBuild.Model.ProcessCache CBuild.Model.ProcessCache.Effects

variable {Inputs Site Tree Digest : Type}

/-- The tree that a file unpacks to; one that breaks off unpacks to some part. -/
def ShowsArchive : Option (Archive Tree) → Option Tree → Prop
  | none, image => image = none
  | some (.complete whole), image => image = some whole
  | some .cut, image => image.isSome = true

/-- The files of the package, with the archives that lie beside INS_TOPDIR, are those of the state. -/
structure Shows (files : Files Site Tree Digest) (site : Site) (s : State Inputs Tree Digest)
    (packed : CacheFile Digest → Option (Archive Tree)) : Prop where
  work : files.work site = ⟨s.insdir, s.flag, s.checkfile, s.matchfile, s.forcefile, packed⟩
  cache : ∀ file, ShowsArchive (files.cache file) (s.cache file)

variable [DecidableEq Site] [DecidableEq Digest] {r : Recipe Inputs Tree Digest} {o : Options}
  {files : Files Site Tree Digest} {site : Site} {s final : State Inputs Tree Digest}
  {packed : CacheFile Digest → Option (Archive Tree)} {rest : Script Site Tree Digest} {effect : Effect Tree Digest}
  {digest : Digest} {mirror : CacheFile Digest → Option Tree}

/-- The program can end in files of the state. -/
def Reaches (prog : Script Site Tree Digest) (files : Files Site Tree Digest) (site : Site)
    (s : State Inputs Tree Digest) : Prop :=
  ∃ files' packed, prog.Ends Effects.apply files files' ∧ Shows files' site s packed

namespace Reaches

theorem exit (shows : Shows files site s packed) : Reaches .exit files site s := ⟨files, packed, .exit, shows⟩

theorem success {next : Bool → Script Site Tree Digest} (reaches : Reaches (next true) (done files site effect) site s) :
    Reaches (.act (site, effect) next) files site s := by
  obtain ⟨files', packed, ends, shows⟩ := reaches
  exact ⟨files', packed, .success ends, shows⟩

theorem failed {next : Bool → Script Site Tree Digest} (left : Left Tree Digest)
    (reaches : Reaches (next false) (leave files site effect left) site s) :
    Reaches (.act (site, effect) next) files site s := by
  obtain ⟨files', packed, ends, shows⟩ := reaches
  exact ⟨files', packed, .failed left ends, shows⟩

theorem killed {next : Bool → Script Site Tree Digest} (shows : Shows files site s packed) :
    Reaches (.act (site, effect) next) files site s :=
  ⟨files, packed, .killed Left.untouched, shows⟩

theorem look {next : Files Site Tree Digest → Script Site Tree Digest} (reaches : Reaches (next files) files site s) :
    Reaches (.look next) files site s := by
  obtain ⟨files', packed, ends, shows⟩ := reaches
  exact ⟨files', packed, .look ends, shows⟩

end Reaches

namespace Shows

omit [DecidableEq Digest] in
theorem setWork {s' : State Inputs Tree Digest} {packed' : CacheFile Digest → Option (Archive Tree)}
    {work : Work Tree Digest} (shows : Shows files site s packed) (same : s'.cache = s.cache)
    (is : work = ⟨s'.insdir, s'.flag, s'.checkfile, s'.matchfile, s'.forcefile, packed'⟩) :
    Shows (files.setWork site work) site s' packed' where
  work := (Function.update_self ..).trans is
  cache file := same ▸ shows.cache file

theorem rmMatch (shows : Shows files site s packed) :
    Shows (done files site .rmMatch) site { s with matchfile := false } packed :=
  shows.setWork rfl (by rw [shows.work])

theorem rmCheck (shows : Shows files site s packed) :
    Shows (done files site .rmCheck) site { s with checkfile := none } packed :=
  shows.setWork rfl (by rw [shows.work])

theorem rmForce (shows : Shows files site s packed) :
    Shows (done files site .rmForce) site { s with forcefile := none } packed :=
  shows.setWork rfl (by rw [shows.work])

theorem rmInsdir (shows : Shows files site s packed) :
    Shows (done files site .rmInsdir) site { s with insdir := none, flag := false } packed :=
  shows.setWork rfl (by rw [shows.work])

theorem sum (shows : Shows files site s packed) :
    Shows (done files site (.sum digest)) site { s with checkfile := some digest } packed :=
  shows.setWork rfl (by rw [shows.work])

theorem touchMatch (shows : Shows files site s packed) :
    Shows (done files site .touchMatch) site { s with matchfile := true } packed :=
  shows.setWork rfl (by rw [shows.work])

theorem touchFlag (shows : Shows files site s packed) :
    Shows (done files site .touchFlag) site { s with flag := true } packed :=
  shows.setWork rfl (by rw [shows.work])

omit [DecidableEq Site] in
/-- An archive is stored, whole or not. -/
theorem setCache {file : CacheFile Digest} {archive : Archive Tree} {image : Tree} (shows : Shows files site s packed)
    (holds : ShowsArchive (some archive) (some image)) :
    Shows (files.setCache file archive) site { s with cache := store s.cache file image } packed where
  work := shows.work
  cache other := by
    by_cases same : other = file
    · subst same
      simpa [Files.setCache, store] using holds
    · simpa [Files.setCache, store, Function.update_of_ne same, same] using shows.cache other

omit [DecidableEq Site] in
theorem wget {file : CacheFile Digest} {image : Tree} (shows : Shows files site s packed) :
    Shows (files.setCache file (.complete image)) site { s with cache := store s.cache file image } packed :=
  shows.setCache rfl

omit [DecidableEq Site] in
theorem wget_cut {file : CacheFile Digest} (part : Tree) (shows : Shows files site s packed) :
    Shows (files.setCache file .cut) site { s with cache := store s.cache file part } packed :=
  shows.setCache rfl

theorem rmArchives (doomed : CacheFile Digest → Bool) (shows : Shows files site s packed) :
    Shows (done files site (.rmArchives doomed)) site
      { s with cache := fun file => if doomed file then none else s.cache file } packed where
  work := shows.work
  cache file := by
    dsimp only [done]
    split
    · rfl
    · exact shows.cache file

omit [DecidableEq Site] [DecidableEq Digest] in
theorem isSome_eq (shows : Shows files site s packed) (file : CacheFile Digest) :
    (files.cache file).isSome = (s.cache file).isSome := by
  have holds := shows.cache file
  cases held : files.cache file with
  | none =>
    rw [held] at holds
    rw [show s.cache file = none from holds]
    rfl
  | some archive =>
    rw [held] at holds
    cases archive with
    | complete whole => rw [show s.cache file = some whole from holds]; rfl
    | cut => exact holds.symm

theorem pack {image : Tree} (file : CacheFile Digest) (shows : Shows files site s packed)
    (installed : s.insdir = some image) :
    Shows (done files site (.pack file)) site s (Function.update packed file (some (.complete image))) := by
  rw [done, shows.work, installed]
  exact shows.setWork rfl (by rw [installed])

theorem mv {file : CacheFile Digest} {image : Tree} (shows : Shows files site s packed)
    (written : packed file = some (.complete image)) :
    Shows (done files site (.mv file)) site { s with cache := store s.cache file image }
      (Function.update packed file none) := by
  rw [done, shows.work]
  dsimp only
  rw [written]
  exact shows.wget.setWork rfl rfl

end Shows

namespace Reaches

/-- A file that breaks off leaves the part of the tree in INS_TOPDIR, and `tar` fails. -/
theorem unpack {file : CacheFile Digest} {image : Tree} (shows : Shows files site s packed)
    (found : s.cache file = some image)
    (reaches : ∀ files', Shows files' site { s with insdir := some image } packed → Reaches rest files' site final) :
    Reaches (command site (.unpack file) rest) files site final := by
  have holds := shows.cache file
  rw [found] at holds
  cases held : files.cache file with
  | none =>
    rw [held] at holds
    cases holds
  | some archive =>
    cases archive with
    | complete whole =>
      rw [held] at holds
      cases holds
      refine .success (reaches _ ?_)
      rw [done, held]
      exact shows.setWork rfl (by rw [shows.work])
    | cut => exact .failed (.part (some image) none fun _ => false) (reaches _ (shows.setWork rfl (by rw [shows.work])))

/-- `del_cache` removes the archives of one grade after the other. -/
theorem delCache (shows : Shows files site s packed)
    (reaches : ∀ files', Shows files' site { s with cache := ProcessCache.delCache o s.cache } packed →
      Reaches rest files' site final) : Reaches (Effects.delCache o site rest) files site final := by
  rw [Effects.delCache]
  unfold ProcessCache.delCache at reaches
  generalize o.cacheGrades = grades at reaches
  induction grades generalizing files s with
  | nil => exact reaches files (by simpa using shows)
  | cons grade grades ih =>
    refine .success (ih (shows.rmArchives _) fun files' shows' => reaches files' ?_)
    convert shows' using 2
    funext file
    by_cases named : file.packname = o.packname
    · by_cases here : file.cachePrefix = grade
      · simp [named, here]
      · simp [named, here]
    · simp [named]

end Reaches

theorem pullCache_reaches (shows : Shows files site s packed) :
    Reaches (Effects.pullCache o site) files site (ProcessCache.pullCache o s).1 := by
  refine .look ?_
  rw [ProcessCache.pullCache, shows.work]
  by_cases stale : (s.insdir.isNone || !s.flag) = true
  · rw [if_pos stale, if_pos stale]
    cases known : s.checkfile with
    | none => exact .exit shows
    | some key =>
      dsimp only
      rw [shows.isSome_eq]
      cases found : s.cache (o.cachefile key) with
      | none => exact .exit shows
      | some image =>
        rw [if_pos Option.isSome_some]
        refine .success (.success (.unpack shows.rmInsdir found fun files' unpacked => ?_))
        rw [← known]
        exact .success (.exit unpacked.touchFlag)
  · rw [if_neg stale, if_neg stale]
    exact .exit shows

/-- `get_checksum` without a force file. -/
theorem getChecksum_reaches {check : Bool} (shows : Shows files site s packed) (unforced : s.forcefile = none)
    (reaches : ∀ files', Shows files' site { s with matchfile := false, checkfile := some digest } packed →
      Reaches rest files' site final) : Reaches (getChecksum site check digest rest) files site final := by
  obtain ⟨_, _, _, _, _, _, _⟩ := s
  cases unforced
  have removed := shows.rmMatch.rmCheck
  refine .success (.success (.look ?_))
  rw [removed.work]
  exact .success (.success (.success (reaches _ removed.sum)))

/-- It is stopped while it reads the inputs, or cannot read them. -/
theorem getChecksum_stopped {check : Bool} (shows : Shows files site s packed) (unforced : s.forcefile = none) :
    Reaches (getChecksum site check digest rest) files site { s with matchfile := false, checkfile := none } := by
  obtain ⟨_, _, _, _, _, _, _⟩ := s
  cases unforced
  have removed := shows.rmMatch.rmCheck
  refine .success (.success (.look ?_))
  rw [removed.work]
  exact .success (.failed .untouched (.exit removed))

/-- A standing force file ends the method. -/
theorem getChecksum_forced {force : ForceFile} (shows : Shows files site s packed) (forced : s.forcefile = some force) :
    Reaches (getChecksum site true digest rest) files site { s with matchfile := false, checkfile := none } := by
  obtain ⟨_, _, _, _, _, _, _⟩ := s
  cases forced
  have removed := shows.rmMatch.rmCheck
  refine .success (.success (.look ?_))
  rw [removed.work]
  exact .exit removed

/-- The archive is there, or the mirror does not have it, or its download is started. -/
theorem archive_reaches {fetched : Tree → State Inputs Tree Digest × Bool} (shows : Shows files site s packed)
    (summed : s.checkfile = some digest)
    (reaches : ∀ image files', Shows files' site
        { s with insdir := none, flag := false, cache := ProcessCache.delCache o s.cache } packed →
      Reaches (.act (site, .wget (o.cachefile digest) image) fun success =>
        if success then command site .touchMatch .exit else .exit) files' site (fetched image).1) :
    Reaches (.look fun files =>
      match (files.work site).checkfile with
      | none => .exit
      | some key =>
        if (files.cache (o.cachefile key)).isSome then command site .touchMatch .exit
        else match mirror (o.cachefile key) with
          | none => .exit
          | some image => Effects.delCache o site <| command site .rmInsdir <| command site .mkdir <|
              .act (site, .wget (o.cachefile key) image) fun success =>
                if success then command site .touchMatch .exit else .exit)
      files site (if (s.cache (o.cachefile digest)).isSome then ({ s with matchfile := true }, true)
        else match mirror (o.cachefile digest) with
          | none => (s, true)
          | some image => fetched image).1 := by
  obtain ⟨_, _, _, _, _, _, _⟩ := s
  cases summed
  refine .look ?_
  rw [shows.work]
  dsimp only
  rw [shows.isSome_eq]
  split
  · exact .success (.exit shows.touchMatch)
  · cases mirror (o.cachefile digest) with
    | none => exact .exit shows
    | some image => exact .delCache shows fun files' cleared => .success (.success (reaches image _ cleared.rmInsdir))

theorem checkCache_reaches (shows : Shows files site s packed) (env : CheckEnd Tree)
    (named : ∀ key, r.checksum s.inputs none = some key → key = digest) :
    Reaches (Effects.checkCache o site digest mirror) files site (ProcessCache.checkCache r o mirror s env).1 := by
  unfold ProcessCache.checkCache
  dsimp only
  by_cases forced : s.forcefile.isSome = true
  · obtain ⟨force, forced'⟩ := Option.isSome_iff_exists.mp forced
    rw [if_pos forced]
    exact getChecksum_forced shows forced'
  have unforced := Option.not_isSome_iff_eq_none.mp forced
  have stopped : Reaches (Effects.checkCache o site digest mirror) files site
      { s with matchfile := false, checkfile := none } := getChecksum_stopped shows unforced
  rw [if_neg forced]
  cases computed : r.checksum s.inputs none with
  | none => cases env <;> exact stopped
  | some key =>
    cases named key computed
    cases env with
    | stopped => exact stopped
    | complete =>
      refine getChecksum_reaches shows unforced fun files₁ summed => archive_reaches summed rfl fun image files₂ cleared => ?_
      exact .success (.success (.exit cleared.wget.touchMatch))
    | brokenOff part =>
      refine getChecksum_reaches shows unforced fun files₁ summed => archive_reaches summed rfl fun image files₂ cleared => ?_
      exact .failed (.part none none fun _ => false) (.exit (cleared.wget_cut part))

/-- `push_cache`, with the archive under the name that the checksum file gives. -/
theorem pushArchive_reaches {image : Tree} (shows : Shows files site s packed) (installed : s.insdir = some image)
    (summed : s.checkfile = some digest) (env : PushEnd) :
    Reaches (pushArchive o site) files site (match env with
      | .flagged => { s with flag := true }
      | .deleted => { s with flag := true, cache := ProcessCache.delCache o s.cache }
      | _ => { s with flag := true, cache := store (ProcessCache.delCache o s.cache) (o.cachefile digest) image }) := by
  obtain ⟨_, _, _, _, _, _, _⟩ := s
  cases summed
  refine .look ?_
  rw [shows.work]
  have flagged := shows.touchFlag
  have packs := flagged.pack (o.cachefile digest) installed
  cases env with
  | flagged => exact .success (.killed flagged)
  | deleted => exact .success (.success (.delCache packs fun files' cleared => .killed cleared))
  | stopped | moved =>
    refine .success (.success (.delCache packs fun files' cleared => .success (.success (.exit (cleared.mv ?_)))))
    exact Function.update_self ..

/-- `get_checksum` as `push_cache` calls it, up to the reading of the inputs. -/
theorem redoChecksum_reads (shows : Shows files site s packed) (unmatched : s.matchfile = false)
    (reads : ∀ files', Shows files' site { redoChecksum r s with checkfile := none } packed →
      Reaches (.act (site, .readInputs) fun success => if success then command site (.sum digest) rest else .exit)
        files' site final) : Reaches (getChecksum site false digest rest) files site final := by
  obtain ⟨_, _, _, _, _, forcefile, _⟩ := s
  cases unmatched
  have removed := shows.rmMatch.rmCheck
  refine .success (.success (.look ?_))
  rw [removed.work]
  cases forcefile with
  | none => exact .success (reads _ removed)
  | some force =>
    refine .success ?_
    unfold redoChecksum at reads
    by_cases once : force.once = true
    · rw [if_pos once]
      simp only [if_pos once] at reads
      exact .success (reads _ removed.rmForce)
    · rw [if_neg once]
      simp only [if_neg once] at reads
      exact reads _ removed

omit [DecidableEq Digest] in
theorem redoChecksum_insdir : (redoChecksum r s).insdir = s.insdir := by
  unfold redoChecksum
  split
  · rfl
  · split <;> rfl

omit [DecidableEq Digest] in
theorem checkfile_self {checkfile : Option Digest} (same : s.checkfile = checkfile) : { s with checkfile } = s := by
  subst same
  rfl

/-- `push_cache`, which the recipe runs without MATCH. -/
theorem pushCache_reaches (shows : Shows files site s packed) (unmatched : s.matchfile = false) (env : PushEnd)
    (named : ∀ key, (redoChecksum r s).checkfile = some key → key = digest) :
    Reaches (Effects.pushCache o site digest) files site (ProcessCache.pushCache r o s env).1 := by
  refine .look ?_
  unfold ProcessCache.pushCache
  rw [shows.work]
  dsimp only
  cases installed : s.insdir with
  | none => exact .exit shows
  | some image =>
    rw [if_neg (by simp)]
    unfold pushChecksum
    cases summed : s.checkfile with
    | some key =>
      have pushed : Reaches (pushArchive o site) files site _ := pushArchive_reaches shows installed summed env
      cases env <;> exact pushed
    | none =>
      rw [if_pos Option.isNone_none]
      dsimp only
      have stopped : Reaches (getChecksum site false digest (pushArchive o site)) files site
          { redoChecksum r s with checkfile := none } :=
        redoChecksum_reads shows unmatched fun files' read => .failed .untouched (.exit read)
      cases computed : (redoChecksum r s).checkfile with
      | none =>
        have failed := checkfile_self computed ▸ stopped
        cases env with
        | stopped => exact stopped
        | flagged | deleted | moved => exact failed
      | some key =>
        cases named key computed
        have pushed (env : PushEnd) : Reaches (getChecksum site false digest (pushArchive o site)) files site _ :=
          redoChecksum_reads shows unmatched fun files' read => .success (.success
            (pushArchive_reaches (checkfile_self computed ▸ read.sum) (redoChecksum_insdir.trans installed) computed env))
        cases env with
        | stopped => exact stopped
        | flagged => exact pushed .flagged
        | deleted => exact pushed .deleted
        | moved => exact pushed .moved

/-- A run of the system that starts and ends between two methods, in files of the states. -/
def Simulates (site : Site) (s final : State Inputs Tree Digest) : Prop :=
  ∀ files packed, Shows files site s packed → ∃ es files' packed',
    run Effects.step ⟨files, .exit⟩ es = ⟨files', .exit⟩ ∧ Shows files' site final packed'

/-- The call of a method, followed by the ends of its effects. -/
theorem simulates_of_reaches (call : Call Tree Digest)
    (reaches : ∀ files packed, Shows files site s packed → Reaches (call.script o site) files site final) :
    Simulates site s final := by
  intro files packed shows
  obtain ⟨files', packed', ends, shows'⟩ := reaches files packed shows
  obtain ⟨outcomes, ran⟩ := ends.outcomes
  refine ⟨.call site o call :: outcomes.map .ends, files', packed', ?_, shows'⟩
  rw [run_cons, run_events]
  exact ran

/-- The steps of the machine that the methods of the script and the recipes between them make. -/
inductive Step (r : Recipe Inputs Tree Digest) (o : Options) (mirror : CacheFile Digest → Option Tree)
    (s : State Inputs Tree Digest) : State Inputs Tree Digest → Prop
  | edit (inputs : Inputs) : Step r o mirror s { s with inputs }
  | build (insdir : Option Tree) (flag : Bool) : Step r o mirror s { s with insdir, flag }
  | setForce (forcefile : Option ForceFile) : Step r o mirror s { s with forcefile }
  | check (env : CheckEnd Tree) : Step r o mirror s (ProcessCache.checkCache r o mirror s env).1
  | pull : Step r o mirror s (ProcessCache.pullCache o s).1
  | push (env : PushEnd) (unmatched : s.matchfile = false) : Step r o mirror s (ProcessCache.pushCache r o s env).1

theorem Step.simulates [Inhabited Digest] (step : Step r o mirror s final) : Simulates site s final := by
  have named (key : Option Digest) : ∀ digest, key = some digest → digest = key.getD default := by
    rintro digest rfl
    rfl
  cases step with
  | edit inputs => exact fun files packed shows => ⟨[], files, packed, rfl, shows.work, shows.cache⟩
  | build insdir flag =>
    exact fun files packed shows => ⟨[.build site insdir flag], _, packed, rfl, shows.setWork rfl (by rw [shows.work])⟩
  | setForce forcefile =>
    exact fun files packed shows => ⟨[.setForce site forcefile], _, packed, rfl, shows.setWork rfl (by rw [shows.work])⟩
  | check env =>
    exact simulates_of_reaches (.check _ mirror) fun files packed shows => checkCache_reaches shows env (named _)
  | pull => exact simulates_of_reaches .pull fun files packed shows => pullCache_reaches shows
  | push env unmatched =>
    exact simulates_of_reaches (.push _) fun files packed shows => pushCache_reaches shows unmatched env (named _)

/-- What the machine does in many steps, the effects do in one run. -/
theorem simulates_of_steps [Inhabited Digest] (steps : Relation.ReflTransGen (Step r o mirror) s final) :
    Simulates site s final := by
  induction steps with
  | refl => exact fun files packed shows => ⟨[], files, packed, rfl, shows⟩
  | tail _ step ih =>
    intro files packed shows
    obtain ⟨es, files₁, packed₁, ran, shows₁⟩ := ih files packed shows
    obtain ⟨es', files₂, packed₂, ran', shows₂⟩ := step.simulates files₁ packed₁ shows₁
    exact ⟨es ++ es', files₂, packed₂, by rw [run_append, ran, ran'], shows₂⟩

end CBuild.Soundness.CacheEffects
