import FarouKernel.Ports.PmmSearch
import FarouKernel.Ports.PmmRuns
import FarouKernel.Ports.VmmFailure
import FarouKernel.Ports.VmmLargePages
import FarouKernel.Ports.KheapEffects
import FarouKernel.Ports.KheapLoss
import FarouKernel.Ports.KprintfRuns
import FarouKernel.Ports.BlockRegions
import FarouKernel.Ports.PagingRights
import FarouKernel.Ports.KernelVmmDirectory
import FarouKernel.Ports.KernelVmmProtect
import FarouKernel.Ports.SchedulerTable
import FarouKernel.Ports.NetworkAccept
import FarouKernel.Ports.ClientCommands
import FarouKernel.Ports.KtreeBitmap
import FarouKernel.Ports.KtreeRing
import FarouKernel.Ports.KtreePool
import FarouKernel.Ports.KtreeTrees
import FarouKernel.Ports.DeviceRuns
import FarouKernel.Ports.KernelVmmAllocFailure
import FarouKernel.Ports.KernelVmmRangeFailure
import FarouKernel.Ports.RateLimitRuns
import FarouKernel.Ports.SchedulerPriorities
import FarouKernel.Ports.ClientSanitize
import FarouKernel.Ports.ClientDispatch
import FarouKernel.Ports.LoaderBounds
import FarouKernel.Ports.Multiboot2Search
import FarouKernel.Ports.DevfsRuns
import FarouKernel.Ports.MoveRollback
import FarouKernel.Ports.FileReads
import FarouKernel.Ports.ReadWriteRuns
import FarouKernel.Ports.PlatformCopy
import FarouKernel.Ports.SimpleHeapRuns
import FarouKernel.Ports.BootPagingMap
import FarouKernel.Ports.HeapQueue
import FarouKernel.Ports.ProcessRuns
import FarouKernel.Ports.ThreadPoolWorkers
import FarouKernel.Ports.ThreadPoolStealRuns
import FarouKernel.Ports.DirectoryForest
import FarouKernel.Ports.NodeTableRuns
import FarouKernel.Ports.DataProcessorFormat
import FarouKernel.Ports.DataProcessorJson
import FarouKernel.Ports.BuddyRuns
