import CBuild.Machine.Run
import CBuild.Model.ProcessCache.Machine
import CBuild.Soundness.CacheEffects
import CBuild.Soundness.CacheFreshness
import CBuild.Soundness.CacheKey
import CBuild.Soundness.Dangling
import CBuild.Model.Weakdep
import CBuild.Soundness.WeakAgreement
import CBuild.Soundness.DependsLine
import CBuild.Model.GenBuildChain.Target
import CBuild.Model.GenBuildChain.MakeDeps
import CBuild.Model.ProcessCache.Depends
import CBuild.Soundness.TargetLine
import CBuild.Soundness.DependReaders
import CBuild.Soundness.LicenseIndex
import CBuild.Soundness.ForestOnce
import CBuild.Soundness.MenuOwnership
import CBuild.Soundness.BuildOrder
import CBuild.Soundness.ImageInstall
import CBuild.Soundness.GivenMd5
import CBuild.Soundness.ProgressCounters
import CBuild.Soundness.DatagramBytes
import CBuild.Soundness.BuildOutput
import CBuild.Soundness.ExitStatus
import CBuild.Soundness.PatchSeries
import CBuild.Soundness.FetchAgreement
import CBuild.Soundness.SelfContained
import CBuild.Soundness.NativeTwins
import CBuild.Soundness.NativeGroups
import CBuild.Soundness.CircularCheck
import CBuild.Soundness.SysrootAgreement
import CBuild.Soundness.CompleteArchives
import CBuild.Soundness.PinnedRevision
import CBuild.Soundness.FeatureOptions
import CBuild.Soundness.KconfigNesting
import CBuild.Soundness.EmptyMenus
import CBuild.Soundness.PokyRecipes
import CBuild.Soundness.MenuPlaces
import CBuild.Soundness.ReleaseAgreement
import CBuild.Soundness.UnpackTrust
import CBuild.Soundness.IncludedOnce
import CBuild.Soundness.ArchiveNames
import CBuild.Soundness.DependWalk
import CBuild.Soundness.PkgconfigPaths
import CBuild.Soundness.SrcExpansion
import CBuild.Soundness.DependsImage
import CBuild.Soundness.RootfsFolders
import CBuild.Soundness.LibraryDiscovery
import CBuild.Soundness.SelfExtracting
import CBuild.Soundness.ConfigGrammar
import CBuild.Soundness.LoaderFallback
import CBuild.Soundness.RunningJobs
import CBuild.Soundness.Insertion
import CBuild.Soundness.JobRuns
import CBuild.Soundness.ForestLists
import CBuild.Soundness.LineFolding
import CBuild.Soundness.BuildCompletes
import CBuild.Soundness.RecipeDeps
import CBuild.Soundness.RecipeStatements
import CBuild.Soundness.ClosedMakefile
