import AegonKV.LittleEndian
import AegonKV.Varint
import AegonKV.ByteMemory
import AegonKV.Crc32c
import AegonKV.Status
import AegonKV.Coding
import AegonKV.BlobFormat
import AegonKV.Preprocess
import AegonKV.VersionResolution
import AegonKV.FoldExactness
import AegonKV.SplitResolution
import AegonKV.TransitionSystem
import AegonKV.BlobStorage
import AegonKV.OffloadedGC
import AegonKV.OffloadedGCReads
import AegonKV.OffloadedGCRuns
import AegonKV.BlobFileReader
import AegonKV.KernelCoding
import AegonKV.GcKernel
import AegonKV.GcKernelRecords
import AegonKV.GcKernelOutput
import AegonKV.GcKernelCorrect
import AegonKV.VersionedLsm
import AegonKV.SoftwareGC
import AegonKV.SoftwareGCSteps
import AegonKV.SoftwareGCFiles
import AegonKV.SoftwareGCWellFormed
import AegonKV.SoftwareGCReads
import AegonKV.SoftwareGCRuns
import AegonKV.BitMap
import AegonKV.SoftwareGCRefs
import AegonKV.InvalidEntries
import AegonKV.InvalidEntriesSound
import AegonKV.SoftwareGCViews
import AegonKV.BlobFilePurge
import AegonKV.EditCollector
import AegonKV.CrashSafety
import AegonKV.GcMergeIterator
import AegonKV.DurableInstall
import AegonKV.VersionEditCoding
import AegonKV.BlobFileSet
import AegonKV.LogAndApply
import AegonKV.ManifestReplay
import AegonKV.ManifestHistory
import AegonKV.ManifestRuns
import AegonKV.ManifestExact
import AegonKV.ManifestRecovery
import AegonKV.SnapshotReads
import AegonKV.GcScheduling
import AegonKV.LsmCallbacks
import AegonKV.WalkLemmas
import AegonKV.TableReferences
import AegonKV.CallbackOrder
import AegonKV.GcLifecycle
import AegonKV.FileAging
import AegonKV.CallbackAging
import AegonKV.GcJobFiles
import AegonKV.GcLifecycleSafe
import AegonKV.Ownership
import AegonKV.Checkpoint
import AegonKV.CheckpointComplete
import AegonKV.SoftwareColumn
import AegonKV.ExposedVersions
import AegonKV.OffloadedTables
import AegonKV.OffloadedColumn
import AegonKV.OffloadedColumnSteps
import AegonKV.OffloadedColumnSound
import AegonKV.OffloadedColumnJobs
import AegonKV.OffloadedColumnRuns
import AegonKV.CheckpointRuns
import AegonKV.StoredRecord
import AegonKV.BlockSeek
import AegonKV.UncompressionDict
import AegonKV.BlobFileIterator
import AegonKV.HardwareOutput
import AegonKV.BlobFileBuilder
import AegonKV.BlobCache
import AegonKV.BlobFileLayout
import AegonKV.BlobFileRoundTrip
import AegonKV.KeyedFold
import AegonKV.PreprocessDeletes
import AegonKV.StorageInvariant
import AegonKV.ObsoleteHandout
import AegonKV.DroppedColumns
import AegonKV.MemTableGet
import AegonKV.LiveSizeLedger
import AegonKV.OffloadedBitmaps
import AegonKV.FaultyBuilder
import AegonKV.InternalKey
import AegonKV.GcRewrites
import AegonKV.GcRewriteCoverage
import AegonKV.TableBuilder
import AegonKV.TableMeaning
import AegonKV.HardwareInput
import AegonKV.HardwareBuffers
import AegonKV.HardwareKeys
import AegonKV.GcJobLocks
import AegonKV.InstallErrors
import AegonKV.StickyErrors
import AegonKV.CheckpointErrors
import AegonKV.IteratorPositions
import AegonKV.InitAndOpen
import AegonKV.MemorySlices
import AegonKV.SliceDecoding
import AegonKV.RecordBounds
import AegonKV.BlobIndexFormat
import AegonKV.CompactionFilter
import AegonKV.SortedWalk
import AegonKV.RangeDeletion
import AegonKV.IntervalSweep
import AegonKV.MergeSweep
import AegonKV.LevelMergeFreeing
import AegonKV.DropRequests
import AegonKV.StorageEvolution
import AegonKV.GcPicking
import AegonKV.PickerLifecycle
import AegonKV.GroupedFold
import AegonKV.GcOutputs
import AegonKV.RewriteAccounting
import AegonKV.HardwareAccounting
import AegonKV.OutputRollover
import AegonKV.PriorityQueue
import AegonKV.MergeIteration
import AegonKV.PrefixReaders
import AegonKV.VersionEditFormat
import AegonKV.TrackedFiles
import AegonKV.TrackedFileRuns
import AegonKV.BitArrays
import AegonKV.CachedFetch
import AegonKV.SharedBlobCache
import AegonKV.TableProperties
import AegonKV.KernelCodecs
import AegonKV.ClassCounters
import AegonKV.InternalStats
import AegonKV.RatioCounts
import AegonKV.RatioCountRuns
import AegonKV.ReflectedGF2
import AegonKV.Crc32cCombine
import AegonKV.LogFormat
import AegonKV.LogReading
import AegonKV.LogRoundTrip
import AegonKV.LogSoundness
import AegonKV.CompactionIterator
import AegonKV.CompactionRounds
import AegonKV.CompactionReads
import AegonKV.FileNames
import AegonKV.DurableFiles
import AegonKV.ManifestDisk
import AegonKV.LoggedSets
import AegonKV.LabelledSimulation
import AegonKV.ManifestLedger
import AegonKV.ManifestRefinement
import AegonKV.OrderedScan
import AegonKV.ListCursors
import AegonKV.DBIter
import AegonKV.DBIterBackward
import AegonKV.DBIterRuns
import AegonKV.CompactedScans
import AegonKV.TitanDBIterator
import AegonKV.BeyondOutputLevel
import AegonKV.BottommostLevel
