import Machgate.IslandAddress
import Machgate.DirectoryReads
import Machgate.ResolverAgreement
import Machgate.WeakStorage
import Machgate.DeferredBinds
import Machgate.GateRoundTrip
import Machgate.GatedImage
import Machgate.CachedTables
import Machgate.PatchFiles
import Machgate.ReexecArguments
import Machgate.FatSlices
import Machgate.SegmentSafety
import Machgate.ImagePatching
import Machgate.SocketReports
import Machgate.KqueueReady
import Machgate.KqueueKept
import Machgate.MallocZoneRoutes
import Machgate.AllocationThreads
import Machgate.ThreadLocalRuns
import Machgate.CxaGuardRuns
import Machgate.MutexFixup
import Machgate.SerialQueueSync
import Machgate.FreeQuarantineRuns
import Machgate.CacheIntegrity
import Machgate.PoolEstimate
import Machgate.UnwindCollection
import Machgate.NativeScan
import Machgate.EhFrameHooks
import Machgate.WaitStatus
import Machgate.SymbolExtent
import Machgate.TrampolinePatch
import Machgate.GuestVmTrack
import Machgate.ConfigFile
import Machgate.SigpipeGuard
import Machgate.CcSha256
import Machgate.DispatchAfter
import Machgate.FdGuardRuns
import Machgate.DispatchOnce
import Machgate.FilePorts
import Machgate.SpawnActions
import Machgate.ShardLock
import Machgate.DispatchObjects
import Machgate.TsdDestructors
import Machgate.TlvAtexit
import Machgate.SgrCipher
import Machgate.LebNumbers
