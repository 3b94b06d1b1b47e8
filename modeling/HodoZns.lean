import HodoZns.ByteBlock
import HodoZns.BitmapWords
import HodoZns.FuelLoop
import HodoZns.CallRuns
import HodoZns.Layout
import HodoZns.BlockLog
import HodoZns.LogSimulation
import HodoZns.ZoneLog
import HodoZns.NumberAllocator
import HodoZns.Collector
import HodoZns.LogCalls
import HodoZns.WritePointers
import HodoZns.SequentialWrites
import HodoZns.Consistency
import HodoZns.Relocation
import HodoZns.BlockPacking
import HodoZns.GCOutcome
import HodoZns.LogStore
import HodoZns.ResetSafety
import HodoZns.PackedLog
import HodoZns.LogRoom
import HodoZns.Programs
import HodoZns.Kernel
import HodoZns.FileBlocks
import HodoZns.Directories
import HodoZns.Operations
import HodoZns.StoreMachine
import HodoZns.VolumeMachine
import HodoZns.Erasures
import HodoZns.Ancestry
import HodoZns.BlockForest
import HodoZns.BlockFields
import HodoZns.SlotUpdates
import HodoZns.TreeWrites
import HodoZns.FileWrites
import HodoZns.DirectoryWrites
import HodoZns.DirectoryBlocks
import HodoZns.DirectoryMaps
import HodoZns.NewInodes
import HodoZns.FsRuns
import HodoZns.Soundness
import HodoZns.Ownership
import HodoZns.FileContents
import HodoZns.Trees
import HodoZns.TreeCalls
import HodoZns.TreeRuns
import HodoZns.SystemRuns
import HodoZns.Counters
import HodoZns.Overwrites
import HodoZns.FileReads
import HodoZns.UnsetPointers
import HodoZns.Appends
import HodoZns.DirectoryRuns
import HodoZns.WriteFailures
import HodoZns.Idempotence
import HodoZns.Termination
import HodoZns.ReadLengths
import HodoZns.ReadPointers
import HodoZns.BlockIndex
import HodoZns.Holes
import HodoZns.FailedWrites
import HodoZns.Spending
import HodoZns.Creations
import HodoZns.Rewrites
import HodoZns.CollectorStates
import HodoZns.ShortCollections
import HodoZns.WholeZones
import HodoZns.DeviceLogs
import HodoZns.GeometryOutcome
import HodoZns.Emptiness
import HodoZns.Lookups
import HodoZns.Numbering
import HodoZns.Listings
import HodoZns.ZoneGroups
import HodoZns.IndexWalks
import HodoZns.MountPoint
import HodoZns.WalkCoverage
import HodoZns.StoredBlocks
import HodoZns.LogRemovals
import HodoZns.Shortage
import HodoZns.Deletions
import HodoZns.Sizes
import HodoZns.NameMaps
import HodoZns.LiveSpace
import HodoZns.Interleavings
import HodoZns.FileViews
import HodoZns.SharedAppends
import HodoZns.SeparateWrites
import HodoZns.ZonefsFiles
import HodoZns.Families
import HodoZns.ZonedDevices
import HodoZns.ZonefsAppends
import HodoZns.ZonefsBlockFiles
import HodoZns.ZonefsBlockLog
import HodoZns.ZonefsPrograms
