import PedroDB.Accounting
import PedroDB.AnyState
import PedroDB.Append
import PedroDB.Appenders
import PedroDB.Cache.Assembly
import PedroDB.Cache.LRU
import PedroDB.Cache.LinkedCache
import PedroDB.Cache.ReadCache
import PedroDB.Compacting
import PedroDB.Concurrent
import PedroDB.Crash
import PedroDB.DBImpl
import PedroDB.Defines
import PedroDB.FileManager
import PedroDB.FileStates
import PedroDB.Files
import PedroDB.Format.Decoding
import PedroDB.Format.Index
import PedroDB.Format.Record
import PedroDB.Format.Torn
import PedroDB.InFlight
import PedroDB.Interrupted
import PedroDB.Iterator
import PedroDB.Lib.Framing
import PedroDB.Lib.LastWriter
import PedroDB.Lib.Once
import PedroDB.Lib.Padded
import PedroDB.Lib.Product
import PedroDB.Lib.Ring
import PedroDB.Lib.Sharing
import PedroDB.Lib.Simulation
import PedroDB.Lib.Transition
import PedroDB.Lib.Walk
import PedroDB.MetadataManager
import PedroDB.OneMap
import PedroDB.Orderly
import PedroDB.Paths
import PedroDB.Process
import PedroDB.Reads
import PedroDB.Records
import PedroDB.Recovery
import PedroDB.Reference
import PedroDB.Removed
import PedroDB.Restart
import PedroDB.Rollover
import PedroDB.Sections
import PedroDB.SegmentDB
import PedroDB.SegmentFates
import PedroDB.Session
import PedroDB.SharedBuffer
import PedroDB.Sound
import PedroDB.Stored
import PedroDB.SyncWorker
import PedroDB.Theorems.ArbitraryBytes
import PedroDB.Theorems.BlockAssembly
import PedroDB.Theorems.CachedReads
import PedroDB.Theorems.CompactionTasks
import PedroDB.Theorems.ConcurrentAppends
import PedroDB.Theorems.ConcurrentCompaction
import PedroDB.Theorems.ConcurrentCrashes
import PedroDB.Theorems.ConcurrentReads
import PedroDB.Theorems.ConcurrentWrites
import PedroDB.Theorems.CopiedDeletes
import PedroDB.Theorems.Crashes
import PedroDB.Theorems.Eviction
import PedroDB.Theorems.FailedRollOver
import PedroDB.Theorems.FileCompaction
import PedroDB.Theorems.FilePaths
import PedroDB.Theorems.FreeBytes
import PedroDB.Theorems.IndexFiles
import PedroDB.Theorems.IndexRecovery
import PedroDB.Theorems.IndexedRecords
import PedroDB.Theorems.Iteration
import PedroDB.Theorems.LastEntries
import PedroDB.Theorems.LinkedRing
import PedroDB.Theorems.LiveFiles
import PedroDB.Theorems.LostIndexFiles
import PedroDB.Theorems.MetadataFailures
import PedroDB.Theorems.MetadataLog
import PedroDB.Theorems.MetadataPrefixes
import PedroDB.Theorems.ReadOnly
import PedroDB.Theorems.ReadYourWrites
import PedroDB.Theorems.RecordFormat
import PedroDB.Theorems.Refinement
import PedroDB.Theorems.ReopenedFiles
import PedroDB.Theorems.Reopening
import PedroDB.Theorems.Scanners
import PedroDB.Theorems.SealedFiles
import PedroDB.Theorems.SegmentAnswers
import PedroDB.Theorems.Segments
import PedroDB.Theorems.SharedIterators
import PedroDB.Theorems.StoppedCompaction
import PedroDB.Theorems.SyncedWrites
import PedroDB.Theorems.TornAppend
import PedroDB.Theorems.TornIndexFiles
import PedroDB.Theorems.WholeCompaction
import PedroDB.WriteRuns
import PedroDB.Writers
