import CcNvme.Lib.Circular
import CcNvme.Lib.Bracket
import CcNvme.Lib.Run
import CcNvme.Lib.Bump
import CcNvme.Lib.Overlay
import CcNvme.Lib.Bytes
import CcNvme.Lib.Pool
import CcNvme.Lib.Holders
import CcNvme.Lib.Custody
import CcNvme.Horae
import CcNvme.Scan
import CcNvme.Checkpoint
import CcNvme.Submit
import CcNvme.Leasing
import CcNvme.Cursors
import CcNvme.Client
import CcNvme.Registration
import CcNvme.SuperBlocks
import CcNvme.RingLog
import CcNvme.CommitFlush
import CcNvme.ControllerMemory
import CcNvme.Recovery
import CcNvme.Scanners
import CcNvme.Rerun
import CcNvme.Redo
import CcNvme.Fsync
import CcNvme.CursorOrder
import CcNvme.OrderedWrites
import CcNvme.TagRoundTrip
import CcNvme.StreamIndependence
import CcNvme.JournalReuse
import CcNvme.Volatile
import CcNvme.JournalPartition
import CcNvme.Writeback
import CcNvme.IndexMap
import CcNvme.Interleaving
import CcNvme.Retire
import CcNvme.NewestVersion
import CcNvme.Exposure
import CcNvme.Unmount
import CcNvme.MultiProducer
import CcNvme.Delegation
import CcNvme.SyncErrors
import CcNvme.InodeLock
import CcNvme.ParentChain
import CcNvme.MappingBuffers
import CcNvme.BufferPasses
import CcNvme.AtomicFile
import CcNvme.EntryBlocks
import CcNvme.NewEntry
import CcNvme.Durability
import CcNvme.CmbRanges
import CcNvme.CheckpointRegion
import CcNvme.StoredEntries
import CcNvme.SubmitReturns
import CcNvme.ForwardedFlags
import CcNvme.JournalAddresses
import CcNvme.SharedJournal
import CcNvme.PlbaField
import CcNvme.CommitWrite
import CcNvme.FlushReturn
import CcNvme.PagePins
import CcNvme.PageIo
import CcNvme.PageWriteback.Exact
import CcNvme.IoEnds.Life
import CcNvme.ExtentStatus.Cache
import CcNvme.PageSharing.Newest
