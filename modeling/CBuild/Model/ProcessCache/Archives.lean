import CBuild.Model.ProcessCache.Machine
import CBuild.Text.Glob

/-! # The names of archives

The files in ENV_CACHE_DIR, and the two functions of `process_cache.sh` that look for those of a package by the
pattern `<prefix>--<package>--*--*.tar.gz`: `del_cache` and `get_one_depend_checksum`.
-/

namespace CBuild.Model.ProcessCache

open Text

/-- What `md5sum` prints for a file: characters of a word. -/
structure Md5 where
  text : Text
  nonempty : text ≠ []
  word : ∀ c ∈ text, c.isAlphanum = true

instance : DecidableEq Md5 := fun first second =>
  decidable_of_iff (first.text = second.text) ⟨fun same => by cases first; cases second; simp_all, congrArg Md5.text⟩

/-- `<cache_prefix>--<packname>--<version>`, the part of the name before the checksum. -/
def archiveStem (file : CacheFile Md5) : Text :=
  file.cachePrefix.toList ++ "--".toList ++ (file.packname.toList ++ "--".toList ++ file.version.toList)

def archiveName (file : CacheFile Md5) : Text :=
  archiveStem file ++ ("--".toList ++ (file.checksum.text ++ ".tar.gz".toList))

/-- `${prefixname}--${packname}--`. -/
def patternStem (prefixname packname : Text) : Text := prefixname ++ "--".toList ++ (packname ++ "--".toList)

/-- `${prefixname}--${packname}--*--*.tar.gz`. -/
def archivePattern (prefixname packname : Text) : Glob :=
  .literal (patternStem prefixname packname) ++
    (.star ++ (.literal "--".toList ++ (.star ++ .literal ".tar.gz".toList)))

/-- `ls ${ENV_CACHE_DIR}/${prefixname}--${packname}--*--*.tar.gz`, of the files in the order of `ls`. -/
def listArchives (files : List (CacheFile Md5)) (prefixname packname : Text) : List (CacheFile Md5) :=
  files.filter fun file => (archivePattern prefixname packname).fits (archiveName file)

/-- `rm -f` of the listed names. -/
def removeArchives (files listed : List (CacheFile Md5)) : List (CacheFile Md5) :=
  files.filter fun file => archiveName file ∉ listed.map archiveName

/-- The variables that decide where the archives of a package are looked for. -/
structure CacheOptions where
  /-- `uname -m` -/
  machine : String
  /-- `-n` is given -/
  native : Bool
  cacheGrades : List String

def delArchives (o : CacheOptions) (packname : Text) (files : List (CacheFile Md5)) : List (CacheFile Md5) :=
  if o.native then removeArchives files (listArchives files o.machine.toList packname)
  else
    o.cacheGrades.foldl (fun files prefixname =>
      removeArchives files (listArchives files prefixname.toList packname)) files

/-- `sed -E 's/.*--.*--(\w+).tar.gz/\1/g'` of a line that ends in the name of an archive: the first star takes what is
before the last name, and the group is the word that ends it. -/
def sedChecksum (line : Text) : Text :=
  ((line.take (line.length - 7)).reverse.takeWhile fun c => c.isAlphanum || c = '_').reverse

/-- `echo ${depcache} | sed ...`; the directory of each name is left out. -/
def echoChecksum (depcache : List (CacheFile Md5)) : Text :=
  sedChecksum ([' '].intercalate (depcache.map archiveName))

/-- The loop over `${cache_grades}`: `depcache` afterwards, and the lines that are appended. -/
def tryGrades (files : List (CacheFile Md5)) (depname : Text) :
    List String → List (CacheFile Md5) → List (CacheFile Md5) × List Text
  | [], depcache => (depcache, [])
  | prefixname :: grades, _ =>
    let depcache := listArchives files prefixname.toList depname
    if depcache ≠ [] then (depcache, [echoChecksum depcache]) else tryGrades files depname grades []

/-- `get_one_depend_checksum`: `depcache` afterwards, and the lines that are appended. -/
def getOneDependChecksum (o : CacheOptions) (files : List (CacheFile Md5)) (depname : Text)
    (depcache : List (CacheFile Md5)) : List (CacheFile Md5) × List Text :=
  if depname = [] then (depcache, [])
  else if o.native = false ∧ ¬ "-native".toList <:+: depname then tryGrades files depname o.cacheGrades depcache
  else
    let depcache := listArchives files o.machine.toList depname
    if depcache ≠ [] then (depcache, [echoChecksum depcache]) else ([], [])

end CBuild.Model.ProcessCache
