import Akos.Lib.Transition
import Akos.Lib.WordMap
import Akos.Lib.Ledger
import Akos.Lib.Rotation
import Akos.Memory.Pmm
import Akos.Memory.Accounting
import Akos.Memory.Boot
import Akos.Memory.Paging
import Akos.Memory.LowFrames
import Akos.Memory.Ownership
import Akos.Memory.AddressSpaces
import Akos.Memory.Heap
import Akos.Memory.HeapRuns
import Akos.Sched.Scheduler
import Akos.Sched.Dispatch
import Akos.Sched.Process
import Akos.Sched.Teardown
import Akos.Sched.TeardownRuns
import Akos.Lib.Ring
import Akos.Winsys.OperationQueue
import Akos.Winsys.QueueSafety
import Akos.Winsys.QueueProgress
import Akos.Lib.Filled
import Akos.Lib.RunTable
import Akos.Tedit.Text
import Akos.Tedit.Editor
import Akos.Tedit.Lines
import Akos.Tedit.Cursor
import Akos.Tedit.CursorRuns
import Akos.Cstdlib.Heap
import Akos.Cstdlib.HeapRuns
import Akos.Cstdlib.AllocationSizes
import Akos.Memory.Temporaries
import Akos.Tmpfs.Arena
import Akos.Tmpfs.Links
import Akos.Tmpfs.Chains
import Akos.Tmpfs.Ids
import Akos.Tmpfs.Contents
import Akos.Memory.KernelMapping
import Akos.Lib.Packed
import Akos.Utils.Strings
import Akos.Utils.Graphics
import Akos.Fat12.Volume
import Akos.Fat12.Files
import Akos.Fat12.Entries
import Akos.Fat12.Clusters
import Akos.Fat12.Steps
import Akos.Fat12.Transfers
import Akos.Lib.Linked
import Akos.Sched.FileDescs
import Akos.Winsys.WindowList
import Akos.Lib.Strided
import Akos.Memory.Translation
import Akos.Loader.Image
import Akos.Sched.Break
import Akos.Sched.Layout
import Akos.Loader.Sections
import Akos.Loader.Executable
import Akos.Loader.SectionPages
import Akos.Loader.OwnedReads
import Akos.Loader.SectionContents
import Akos.Memory.Regions
import Akos.Lib.RotationOrder
import Akos.Sched.Priority
import Akos.Sched.Sleep
import Akos.Winsys.Drawing
import Akos.Winsys.EventQueue
import Akos.Winsys.Removal
import Akos.Lib.Exclusion
import Akos.Sched.Creation
import Akos.Sched.FileLocks
import Akos.Winsys.TerminalCursor
import Akos.Lib.Interleaving
import Akos.Fat12.Programs
import Akos.Fat12.Alone
import Akos.Fat12.Concurrent
import Akos.Lib.Traced
import Akos.Tmpfs.Writes
import Akos.Tmpfs.Bounds
import Akos.Fat12.Names
import Akos.Fat12.Sectors
import Akos.Fat12.Paths
import Akos.Fat12.Reads
import Akos.Fat12.ReadBounds
import Akos.Fat12.Creation
import Akos.Fat12.Slots
import Akos.Fat12.Listing
import Akos.Lib.StepBound
import Akos.Fat12.Walks
import Akos.Boot.LoadFat12
import Akos.Winsys.Dragging
import Akos.Sysapi.Syscalls
import Akos.Lib.Overlay
import Akos.Winsys.Painting
import Akos.Winsys.MouseCursor
import Akos.Lib.FirstRun
import Akos.Sched.UserPages
import Akos.Memory.PageFrames
import Akos.Memory.OwnTables
import Akos.Winsys.SharedBuffers
import Akos.Memory.MappedPages
import Akos.Memory.Attributes
import Akos.Tedit.Insertion
import Akos.Tedit.Splitting
import Akos.Tedit.Removal
import Akos.Tmpfs.OpenedPaths
import Akos.Sched.Arguments
import Akos.Sched.Fork
import Akos.Vfs.Volumes
import Akos.Winsys.Bitmaps
import Akos.Winsys.Raising
import Akos.Sched.FreeRanges
import Akos.Utils.Numbers
import Akos.Utils.Decimals
import Akos.Utils.Stripping
import Akos.Utils.Network
import Akos.Drivers.Rtl8139
import Akos.Drivers.Mouse
import Akos.Sched.RunningHead
import Akos.Drivers.Keyboard
import Akos.Winsys.ShellInput
import Akos.Winsys.EventFifo
import Akos.Winsys.HitTest
import Akos.Utils.Cutting
import Akos.Lib.Doubly
import Akos.Cstdlib.HeapBlocks
import Akos.Tedit.LineMemory
import Akos.Tedit.LineMoves
import Akos.Tedit.LineLinks
import Akos.Tedit.LineEdits
import Akos.Tedit.LineRuns
import Akos.Fat12.RootDirectory
import Akos.Fat12.Handles
import Akos.Fat12.RootListing
import Akos.Fat12.RootContents
import Akos.Utils.Formats
import Akos.Winsys.TerminalPixels
import Akos.Winsys.TerminalText
import Akos.Winsys.Compositing
import Akos.Lib.Contract
import Akos.Shell.Blocks
import Akos.Shell.Commands
import Akos.Shell.Ledgers
import Akos.Shell.Handlers
import Akos.Shell.Sessions
