import Segstore.Kernel.Effect
import Segstore.Kernel.Tandem
import Segstore.Kernel.FiniteMap
import Segstore.Kernel.LastWrite
import Segstore.Kernel.LiveCopies
import Segstore.Kernel.BinarySearch
import Segstore.Kernel.Bytes
import Segstore.Kernel.Codec
import Segstore.Kernel.Reader
import Segstore.Kernel.Crc32
import Segstore.Kernel.Achieves
import Segstore.Kernel.Bands
import Segstore.Model.Basic
import Segstore.Sidecar.Envelope
import Segstore.Sidecar.Lazy
import Segstore.Sidecar.Corruption
import Segstore.Model.FileNames
import Segstore.Model.Directory
import Segstore.Model.Manifest
import Segstore.Model.SegmentFile
import Segstore.Catalog.Payload
import Segstore.Model.Conformance
import Segstore.Model.Contents
import Segstore.Memory.Shape
import Segstore.Memory.Groups
import Segstore.Memory.Copies
import Segstore.Memory.Tracked
import Segstore.Memory.Sealing
import Segstore.Memory.Tiers
import Segstore.Memory.Buckets
import Segstore.Memory.Reclaimed
import Segstore.Memory.Compacted
import Segstore.Memory.Consumers
import Segstore.Memory.Same
import Segstore.Memory.Unlisted
import Segstore.Memory.Untracked
import Segstore.Model.Store
import Segstore.Sidecar.Cache
import Segstore.Model.Open
import Segstore.Memory.Owners
import Segstore.Model.Run
import Segstore.Model.Processes
import Segstore.Disk.Image
import Segstore.Writer.Ledger
import Segstore.Memory.Shrinking
import Segstore.Writer.Reload
import Segstore.Disk.Calls
import Segstore.Disk.Garbage
import Segstore.Disk.Protection
import Segstore.Disk.Reads
import Segstore.Sidecar.Names
import Segstore.Sidecar.Calls
import Segstore.Sidecar.Files
import Segstore.Sidecar.Shared
import Segstore.Format.ManifestBytes
import Segstore.Writer.Framed
import Segstore.Writer.Memory
import Segstore.Writer.Parts
import Segstore.Writer.Sparing
import Segstore.Writer.Housekeeping
import Segstore.Writer.Commit
import Segstore.Writer.Compaction
import Segstore.Writer.Views
import Segstore.Writer.Writes
import Segstore.Writer.Reopen
import Segstore.Writer.Caps
import Segstore.Writer.Calm
import Segstore.System.Runs
import Segstore.System.Identity
import Segstore.System.Hosted
import Segstore.System.Garbage
import Segstore.System.Carried
import Segstore.System.Survival
import Segstore.System.LiveMap
import Segstore.System.Processes
import Segstore.System.Maintenance
import Segstore.System.Merging
import Segstore.System.Metrics
import Segstore.System.Refused
import Segstore.System.Compacting
import Segstore.System.Conformance
import Segstore.System.Consumers
import Segstore.Writer.Steps
import Segstore.Writer.Loops
import Segstore.System.Tiers
import Segstore.System.ForceMerge
import Segstore.System.Reclaim
import Segstore.System.Caps
import Segstore.System.Errors
import Segstore.System.Fanout
import Segstore.System.Lasting
import Segstore.System.Legacy
import Segstore.System.Readers
import Segstore.System.Batches
import Segstore.System.Upgrade
import Segstore.System.Views
import Segstore.System.WarmStart
import Segstore.Kernel.Blame
import Segstore.Kernel.Prefixes
import Segstore.System.PointInTime
import Segstore.System.Poisoned
import Segstore.System.Amplification
import Segstore.System.Unlisted
import Segstore.System.Untracked
import Segstore.System.Restart
import Segstore.System.Statistics
import Segstore.System.SegmentFiles
import Segstore.System.Sidecars
import Segstore.System.Fingerprints
import Segstore.Sidecar.Trust
