import ChunkHound.AnalyticsBuffer
import ChunkHound.BatchSemaphore
import ChunkHound.BfsExploration
import ChunkHound.BlankPieces
import ChunkHound.BoundaryExpansion
import ChunkHound.CitationRemap
import ChunkHound.ClusterMerging
import ChunkHound.ConfigLayers
import ChunkHound.CrashConvergence
import ChunkHound.CrossRecovery
import ChunkHound.DaemonArtifacts
import ChunkHound.DaemonSession
import ChunkHound.DeleteCarriers
import ChunkHound.DiffAwareSearch
import ChunkHound.DiffPartition
import ChunkHound.DiffTable
import ChunkHound.EmbeddingAlignment
import ChunkHound.ExcludeRelocation
import ChunkHound.FileOwnership
import ChunkHound.GapFilling
import ChunkHound.GuardAtomicity
import ChunkHound.HnswBracket
import ChunkHound.HunkRoundTrip
import ChunkHound.HybridSearch
import ChunkHound.IdleShutdown
import ChunkHound.IgnoreExact
import ChunkHound.IncludePrefilter
import ChunkHound.IndexRestoration
import ChunkHound.IndexedRoot
import ChunkHound.IntentTearing
import ChunkHound.LanceMigration
import ChunkHound.LanceSearch
import ChunkHound.LedgerIndex
import ChunkHound.MergedRanges
import ChunkHound.MissingEmbeddings
import ChunkHound.MultiHop
import ChunkHound.NativeOutcomes
import ChunkHound.OrphanClassification
import ChunkHound.ParallelEmbedding
import ChunkHound.PathKeys
import ChunkHound.PathReplacement
import ChunkHound.PendingCounts
import ChunkHound.PollingSnapshots
import ChunkHound.PrefixPruning
import ChunkHound.ProcessingCount
import ChunkHound.ProviderAlignment
import ChunkHound.RemotePipeline
import ChunkHound.Reranking
import ChunkHound.ResyncLosses
import ChunkHound.SearchTrimming
import ChunkHound.SfcSections
import ChunkHound.StageFlow
import ChunkHound.StartupSafety
import ChunkHound.StoreAtomicity
import ChunkHound.StoreLimit
import ChunkHound.SynthesisSettling
import ChunkHound.TokenBatching
import ChunkHound.TransactionFlag
import ChunkHound.TreeCache
import ChunkHound.TwincatLocations
import ChunkHound.TwoProcesses
import ChunkHound.UpsertContract
import ChunkHound.WalCleanup
import ChunkHound.WalSwap
import ChunkHound.WatchdogStartup
import ChunkHound.WatchmanEntries
import ChunkHound.WatchmanReader
import ChunkHound.WatchmanReplies
import ChunkHound.WindowExpansion
import ChunkHound.YamlParser
