import Naatre.Client.CommitSettles
import Naatre.Client.ConfigFile
import Naatre.Client.Containment
import Naatre.Client.FetchBlobs
import Naatre.Client.FetchWalk
import Naatre.Client.IndexFile
import Naatre.Client.McpClone
import Naatre.Client.MountFlush
import Naatre.Client.MountLife
import Naatre.Client.MountWrite
import Naatre.Client.Readdir
import Naatre.Client.Snapshot
import Naatre.Client.SnapshotExact
import Naatre.Client.Status
import Naatre.Client.SyncConverges
import Naatre.Client.Url
import Naatre.Client.Vfs
import Naatre.Client.WalkPlaces
import Naatre.Core.MarkerGrammar
import Naatre.Core.WireFrames
import Naatre.Lib.GrowingPages
import Naatre.Lib.Interner
import Naatre.Lib.Outbox
import Naatre.Server.Access
import Naatre.Server.Adopt
import Naatre.Server.AdoptReads
import Naatre.Server.AdoptSteps
import Naatre.Server.Audit
import Naatre.Server.AuditTrail
import Naatre.Server.AuthFail
import Naatre.Server.Backup
import Naatre.Server.BackupRoundTrip
import Naatre.Server.Blame
import Naatre.Server.CaseFold
import Naatre.Server.ClosureWalk
import Naatre.Server.ContentRep
import Naatre.Server.CreateAtomic
import Naatre.Server.CreateCompletes
import Naatre.Server.CreateFrame
import Naatre.Server.DeltaApply
import Naatre.Server.DeriveBackfill
import Naatre.Server.DerivePoison
import Naatre.Server.DerivedTrees
import Naatre.Server.Detectable
import Naatre.Server.DiffExact
import Naatre.Server.Erasure
import Naatre.Server.Generation
import Naatre.Server.HostServes
import Naatre.Server.HostVerbs
import Naatre.Server.ImportCompletes
import Naatre.Server.ImportGraft
import Naatre.Server.KeyStore
import Naatre.Server.LandAnswers
import Naatre.Server.LandHistory
import Naatre.Server.LandReport
import Naatre.Server.LandSettles
import Naatre.Server.LineMerge
import Naatre.Server.LogPages
import Naatre.Server.MergeBase
import Naatre.Server.MergeModes
import Naatre.Server.PurgeProgress
import Naatre.Server.RefValidity
import Naatre.Server.RepoPages
import Naatre.Server.RestoreSafe
import Naatre.Server.RestoreSteps
import Naatre.Server.Sanitize
import Naatre.Server.ScopeGate
import Naatre.Server.SizeIntegrity
import Naatre.Server.SkipEntries
import Naatre.Server.SnapshotIsolation
import Naatre.Server.TicketConfined
import Naatre.Server.TicketRoutes
import Naatre.Server.TierBounds
import Naatre.Server.TierHonesty
import Naatre.Server.TombstoneGate
import Naatre.Server.TreeLoad
import Naatre.Server.TreeRoundTrip
