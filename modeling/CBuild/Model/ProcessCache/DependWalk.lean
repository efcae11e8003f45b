import CBuild.Model.ProcessCache.Archives
import CBuild.Model.ProcessCache.Depends

/-! # The walk over the dependences

`get_depend_checksum` of `process_cache.sh`, with the global variable `depcache` as a state. A dependence without an
archive is walked in its turn; `none` is fuel that is too small for the depth.
-/

namespace CBuild.Model.ProcessCache

open Text

/-- What the walk reads. -/
structure DependInput extends CacheOptions where
  /-- `uname -m` with `-host`, or the words that `process_machine.sh cache_grades` prints -/
  graded : cacheGrades ≠ []
  files : List (CacheFile Md5)
  /-- the lines of `.config` -/
  confpath : List Text
  /-- the lines of Target -/
  targetpath : List Text
  packname : Text
  /-- `-d` -/
  depends : Text

variable (i : DependInput)

/-- The words of the lines that `grep` prints for a package, resolved; one without a name is passed over. -/
def targetDeps (pkgname : Text) : List Text :=
  (i.targetpath.flatMap fun line => getDependChecksumAuto i.confpath pkgname line).filter (· ≠ [])

end CBuild.Model.ProcessCache
