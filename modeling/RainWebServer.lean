import RainWebServer.Lib.Machine
import RainWebServer.Util.RainLfu
import RainWebServer.Log.AsyncLogging
import RainWebServer.Net.EventLoop
import RainWebServer.Net.EventLoopThreadPool
import RainWebServer.Util.RainLfuLinks
import RainWebServer.Util.RainLfuMinFreq
import RainWebServer.Util.RainLfuRuns
import RainWebServer.Lib.Admission
import RainWebServer.Lib.Chain
import RainWebServer.Lib.Layout
import RainWebServer.Lib.LeadsTo
import RainWebServer.Lib.LossyMap
import RainWebServer.Lib.Slice
import RainWebServer.Lib.Trace
import RainWebServer.Memory.CentralCache
import RainWebServer.Memory.MemoryPool
import RainWebServer.Memory.MemoryPoolInv
import RainWebServer.Memory.MemoryPoolFailure
import RainWebServer.Net.Buffer
import RainWebServer.Net.ConnectionClose
import RainWebServer.Net.CrossThreadSend
import RainWebServer.Net.SendFileOrder
import RainWebServer.Net.TcpServer
import RainWebServer.Net.TcpServerLife
import RainWebServer.Net.TcpServerLoops
import RainWebServer.Net.TcpServerRuns
import RainWebServer.Net.TcpServerRounds
import RainWebServer.Net.TcpServerRest
import RainWebServer.Lib.Registry
import RainWebServer.Lib.SortedList
import RainWebServer.Log.AsyncLoggingStop
import RainWebServer.Memory.MemoryPoolLocks
import RainWebServer.Memory.MemoryPoolLoss
import RainWebServer.Memory.PageCacheRuns
import RainWebServer.Net.BufferQueue
import RainWebServer.Net.EventLoopTimers
import RainWebServer.Util.RainLfuCounts
import RainWebServer.Util.LinkedLfu
import RainWebServer.Util.LinkedLfuLists
import RainWebServer.Util.LinkedLfuRuns
import RainWebServer.Util.RainLfuHash
import RainWebServer.Util.RainLfuLossy
import RainWebServer.Util.RainLfuRange
import RainWebServer.Util.TimerQueueAccounts
import RainWebServer.Util.TimerQueueRuns
import RainWebServer.Util.TimerQueueSchedule
import RainWebServer.Util.TimerQueueWakeup
import RainWebServer.Net.EventLoopThread
import RainWebServer.Net.EPollPollerPoll
import RainWebServer.Net.EPollPollerRuns
import RainWebServer.Net.TcpConnectionCalls
import RainWebServer.Lib.Crossings
import RainWebServer.Lib.DoublyLinked
import RainWebServer.Lib.Drain
import RainWebServer.Memory.MemoryPoolProgress
import RainWebServer.Net.InetAddress
import RainWebServer.Net.SendCallbacks
import RainWebServer.Net.ServerStartRuns
import RainWebServer.Net.EchoServer
import RainWebServer.Util.ConsistentHashOrder
import RainWebServer.Util.ConsistentHashRemove
import RainWebServer.Util.RainLfuPurge
import RainWebServer.Util.RainLfuTotals
import RainWebServer.Memory.PageCacheMerge
import RainWebServer.Net.BufferLimits
import RainWebServer.Net.SendFileRetry
import RainWebServer.Log.LogFile
import RainWebServer.Log.LogFilePeriods
import RainWebServer.Log.LogStream
import RainWebServer.Log.LogStreamBounds
import RainWebServer.Log.Logger
import RainWebServer.Log.LoggerRecord
import RainWebServer.Lib.Simulation
import RainWebServer.Log.LogProgram
