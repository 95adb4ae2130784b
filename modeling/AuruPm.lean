import AuruPm.Lib.SortedAssoc
import AuruPm.Json
import AuruPm.Merge
import AuruPm.MergeWalk
import AuruPm.Location
import AuruPm.MergeLoss
import AuruPm.MergeIdentity
import AuruPm.ConflictPath
import AuruPm.Resolve
import AuruPm.MergeResolve
import AuruPm.Lib.Walk
import AuruPm.Lib.Worklist
import AuruPm.Formats
import AuruPm.Cas
import AuruPm.Filesystem
import AuruPm.Retention
import AuruPm.Lib.Threads
import AuruPm.Push
import AuruPm.PushProtocol
import AuruPm.World
import AuruPm.ClientProtocol
import AuruPm.Objects
import AuruPm.RunInvariant
import AuruPm.Symbolic
import AuruPm.NoLostUpdate
import AuruPm.VisibleHistory
import AuruPm.ReadableHistory
import AuruPm.UsableRetention
import AuruPm.Lib.Rely
import AuruPm.Mirror
import AuruPm.Holdings
import AuruPm.DrainTrace
import AuruPm.MirrorService
import AuruPm.PushCalls
import AuruPm.RetryQueue
import AuruPm.FailedPush
import AuruPm.MirrorHead
import AuruPm.RetentionRace
import AuruPm.StrandedClient
import AuruPm.JsonText
import AuruPm.PortableSnapshot
import AuruPm.Dawproject
import AuruPm.SymbolicProjects
import AuruPm.StashRecovery
import AuruPm.HostPath
import AuruPm.FileRefs
import AuruPm.ProjectFolder
import AuruPm.FlStream
import AuruPm.Lib.Varint
import AuruPm.FlCodec
import AuruPm.AssetPlan
import AuruPm.ManifestEntries
import AuruPm.PlannedFiles
import AuruPm.MissedAssets
import AuruPm.MergedAssets
import AuruPm.CommitText
import AuruPm.Lib.LengthPrefix
import AuruPm.Lib.Purge
import AuruPm.Server
import AuruPm.ServerState
import AuruPm.ServerIsolation
import AuruPm.BackupStatus
import AuruPm.BackupSafety
import AuruPm.SnapshotValue
import AuruPm.FlTree
import AuruPm.FlSnapshot
import AuruPm.ProjectSource
import AuruPm.XmlReading
import AuruPm.XmlParse
import AuruPm.XmlMarkup
import AuruPm.SnapshotFixpoint
import AuruPm.ArchiveFixpoint
import AuruPm.XmlFixpoint
import AuruPm.Rewrite
import AuruPm.RewriteAgreement
import AuruPm.ControlFiles
import AuruPm.ControlReader
import AuruPm.Lib.Boundary
import AuruPm.ServerRetention
import AuruPm.Lib.LexicalPath
import AuruPm.SafePaths
import AuruPm.RestoreTarget
import AuruPm.Lib.FileTree
import AuruPm.RestorePublish
import AuruPm.MergeExisting
import AuruPm.PublishSafety
import AuruPm.JsonEdit
import AuruPm.NativeRestore
import AuruPm.NativeSamples
import AuruPm.MergeSymmetry
import AuruPm.MergeArrays
import AuruPm.IntegrityGate
import AuruPm.Lib.CodeUnits
import AuruPm.Lib.Json
import AuruPm.Lib.JsonGrammar
import AuruPm.Lib.JsonParser
import AuruPm.Lib.JsonWriter
import AuruPm.SdkWriter
import AuruPm.SdkCanonical
import AuruPm.SdkReader
import AuruPm.SdkRoundTrip
import AuruPm.SdkCommit
import AuruPm.SdkReadBack
import AuruPm.SdkIdentity
import AuruPm.SdkGrammar
import AuruPm.SdkAcceptance
import AuruPm.SdkErrors
import AuruPm.SdkBlake3Tree
import AuruPm.HistoryPaging
import AuruPm.CollectReachable
import AuruPm.BlobFrames
import AuruPm.HashSpelling
import AuruPm.RewriteFrame
import AuruPm.PluginIds
import AuruPm.PluginCollectors
import AuruPm.PluginKeys
import AuruPm.AliasPrefix
import AuruPm.MergeInputs
import AuruPm.Lib.FirstOf
import AuruPm.BundleNames
import AuruPm.ProviderRuns
import AuruPm.ProviderAgreement
import AuruPm.RateLimit
import AuruPm.OAuthClients
import AuruPm.FlDiff
import AuruPm.Lib.Pairing
import AuruPm.Lib.FloatText
import AuruPm.ClipDiff
import AuruPm.Lib.UrlPath
import AuruPm.ProjectUrls
import AuruPm.Lib.Protocol
import AuruPm.TokenRefresh
import AuruPm.SigningKeys
import AuruPm.Lib.Overlay
import AuruPm.RestoreOutcome
import AuruPm.Lib.Rekey
import AuruPm.LegacyOwnership
import AuruPm.Lib.Polling
import AuruPm.DeviceSignIn
import AuruPm.SdkDeviceSignIn
import AuruPm.Lib.BinarySearch
import AuruPm.ManifestOrder
import AuruPm.SdkForm
import AuruPm.Descendants
import AuruPm.Lib.Antichain
import AuruPm.WatchedFolders
import AuruPm.Lib.Upsert
import AuruPm.LibraryRefresh
import AuruPm.Lib.StableSort
import AuruPm.Lib.FoldUntil
import AuruPm.ProjectScan
import AuruPm.ScanCoverage
import AuruPm.LibraryOrder
import AuruPm.EscapeAgreement
import AuruPm.AutomaticBackup
import AuruPm.AutomaticBackupRuns
import AuruPm.Lib.Base64
import AuruPm.DawprojectAssets
import AuruPm.PathAliases
import AuruPm.VerifiedCopy
import AuruPm.VerifiedRuns
import AuruPm.DawprojectRestore
import AuruPm.RestoreFolder
import AuruPm.AbletonRestore
import AuruPm.FlRestore
import AuruPm.DawprojectDiff
import AuruPm.DawprojectTracks
