import Lucix.Ring
import Lucix.Buddy
import Lucix.Execution
import Lucix.IndexChain
import Lucix.PagedBytes
import Lucix.RoundRobin
import Lucix.WordStack
import Lucix.Positional
import Lucix.ListHead
import Lucix.Paging
import Lucix.Word
import Lucix.RefCount
import Lucix.RadixTable
import Lucix.RadixWalk
import Lucix.PageTable
import Lucix.PageTableMap
import Lucix.ProcessTables
import Lucix.MapRange
import Lucix.MapView
import Lucix.PageWalk
import Lucix.MapExact
import Lucix.WalkAgrees
import Lucix.VmZone
import Lucix.KernelHalf
import Lucix.Ioremap
import Lucix.Vma
import Lucix.VmaLayout
import Lucix.GapSearch
import Lucix.PageFault
import Lucix.JoinAreas
import Lucix.Elf
import Lucix.UserMemory
import Lucix.FaultAccess
import Lucix.PageCounts
import Lucix.CountRuns
import Lucix.AllocFrames
import Lucix.UserAccess
import Lucix.PrivateMaps
import Lucix.FileFaults
import Lucix.Populate
import Lucix.StaleArea
import Lucix.PageAlloc
import Lucix.PageLayout
import Lucix.PageFrames
import Lucix.PageLists
import Lucix.PageRuns
import Lucix.ZoneAlloc
import Lucix.AllocPages
import Lucix.MetadataRegions
import Lucix.FreeListInit
import Lucix.PageLookup
import Lucix.Slab
import Lucix.SlabStep
import Lucix.SlabCapacity
import Lucix.SlabCalls
import Lucix.SlabRuns
import Lucix.SlabFrame
import Lucix.KmallocInit
import Lucix.Kmalloc
import Lucix.FileIo
import Lucix.FileMapping
import Lucix.FileWrite
import Lucix.FileRead
import Lucix.WriteChunks
import Lucix.MappingGrowth
import Lucix.Ramfs
import Lucix.NameReap
import Lucix.InodeReap
import Lucix.RamfsTree
import Lucix.RamfsNamespace
import Lucix.Lookup
import Lucix.LookupRefs
import Lucix.NameCache
import Lucix.Vfs
import Lucix.VfsRefs
import Lucix.WalkTwice
import Lucix.CreatePath
import Lucix.MountRoot
import Lucix.Syscall
import Lucix.UserCopy
import Lucix.OpenRuns
import Lucix.FdTableGrowth
import Lucix.InterruptFrame
import Lucix.Sched
import Lucix.LoadedTable
import Lucix.ContextSwitch
import Lucix.Initramfs
import Lucix.Strtol
import Lucix.PathNames
import Lucix.PathMake
import Lucix.Tar
import Lucix.NameCleanup
import Lucix.Unpack
import Lucix.UnpackRuns
import Lucix.Madt
import Lucix.FbConsole
import Lucix.ConsoleText
import Lucix.Emission
import Lucix.Printk
import Lucix.PrintkText
import Lucix.PrintkFormat
import Lucix.PrintkBuffer
import Lucix.PrintkNumber
import Lucix.PrintkStrtol
import Lucix.Consoles
import Lucix.FileRuns
import Lucix.BitFields
import Lucix.Descriptors
import Lucix.Privilege
import Lucix.AcpiTables
import Lucix.Interleave
import Lucix.ProcessMemory
import Lucix.Exec
import Lucix.ProgramOutput
import Lucix.VfsTree
import Lucix.VfsRuns
