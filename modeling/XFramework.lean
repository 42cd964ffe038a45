import XFramework.Lib.Bytes
import XFramework.Lib.StdMap
import XFramework.Lib.Arena
import XFramework.Lib.Steps
import XFramework.Mem.StaticAllocFacts
import XFramework.Mem.StaticAllocRun
import XFramework.Mem.StaticAllocSlots
import XFramework.Mem.StaticAllocRefuse
import XFramework.Mem.StaticAllocTiling
import XFramework.Mem.StaticAllocSeparation
import XFramework.Mem.StaticAllocGaps
import XFramework.Mem.StaticAllocLoad
import XFramework.Mem.StaticAllocShared
import XFramework.Lib.Fallible
import XFramework.Net.SenderWire
import XFramework.Net.SendStall
import XFramework.Net.AcceptRace
import XFramework.Net.Disconnect
import XFramework.Net.Heartbeat
import XFramework.Net.Timestamps
import XFramework.Net.RecvSegments
import XFramework.Mem.MemPoolRun
import XFramework.Mem.MemPoolLists
import XFramework.Mem.MemPoolRemain
import XFramework.Mem.MemPoolReturn
import XFramework.Mem.MemPoolExpand
import XFramework.Mem.MemPoolCarve
import XFramework.Mem.MemPoolMerge
import XFramework.Mem.MemPoolRealloc
import XFramework.Mem.MemPoolBadPointer
import XFramework.Mem.MemPoolSearch
import XFramework.Lib.CondVar
import XFramework.Thread.SemaphoreEx
import XFramework.Thread.SemaphoreExWin32
import XFramework.Thread.Timer
import XFramework.Thread.DealOnce
import XFramework.Thread.TimerRun
import XFramework.Thread.TimerMgrRun
import XFramework.Thread.TimerMgrCalls
import XFramework.Thread.TaskCtrl
import XFramework.Thread.TaskMerge
import XFramework.Net.HeartbeatMonitor
import XFramework.Net.ClientNotices
import XFramework.Net.PackagingEnds
import XFramework.Net.ClientRanges
import XFramework.Net.Channel
import XFramework.Net.ClientWorkers
import XFramework.Net.BuildPackageCursor
import XFramework.Thread.ThreadPoolRun
import XFramework.Thread.ThreadPoolWin32
import XFramework.Mem.RefPtrRun
import XFramework.Mem.MemMgrRun
import XFramework.Mem.MemMgrAssign
import XFramework.Pattern.TreeRelation
import XFramework.Pattern.XObject
import XFramework.Mem.ObjPoolThreads
import XFramework.Mem.ObjPoolFind
import XFramework.Net.PostNodeMgr
import XFramework.Net.RecvExits
import XFramework.DB.DBAccess
import XFramework.DB.MysqlAccess
import XFramework.DB.MysqlPrepared
import XFramework.DB.DBConnPool
import XFramework.DB.DBDefine
import XFramework.SystemApi.TimeInfoSeconds
import XFramework.SystemApi.TimeInfoText
import XFramework.SystemApi.TimeInfoDate
import XFramework.DirPtr.DirPtr
import XFramework.Pattern.BaseClass
import XFramework.Pattern.Registry
import XFramework.Misc.MultiSem
import XFramework.Net.AsyncWrite
