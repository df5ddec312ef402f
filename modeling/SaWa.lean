import SaWa.EffectProgram
import SaWa.RangeStore
import SaWa.LittleEndian
import SaWa.SawaProtocol
import SaWa.SawaSegmentation
import SaWa.SawaBrokenPipe
import SaWa.SawaCutStream
import SaWa.SawaDriverCodec
import SaWa.SawaDriverWrites
import SaWa.SawaServerBounds
import SaWa.SawaServerFlatDisk
import SaWa.ThreadPool
import SaWa.ThreadPoolLists
import SaWa.ThreadPoolHandoff
import SaWa.SawaSharedStream
import SaWa.SawaDriverOrder
import SaWa.ThreadPoolShutdown
import SaWa.BlockRequestSafety
import SaWa.HttpPaths
import SaWa.HttpReadData
import SaWa.TowaPipes
import SaWa.ThreadStatistics
import SaWa.SawaDurability
import SaWa.SawaReadLeak
import SaWa.SawaIndependentClients
import SaWa.SawaClientWrites
import SaWa.SawaWriteErrors
import SaWa.SawaFrameBounds
import SaWa.SawaReplyErrors
import SaWa.ContentFraming
import SaWa.HttpResponses
import SaWa.TowaMessages
import SaWa.TowaReplies
import SaWa.TowaRequests
import SaWa.HttpPageCache
import SaWa.ThreadCounters
import SaWa.ThreadPoolPeak
import SaWa.ThreadCreation
import SaWa.ServerStart
import SaWa.TowaClasspath
import SaWa.TowaFraming
import SaWa.GreedyRegex
import SaWa.HttpRequestLine
import SaWa.FileTree
import SaWa.HttpFiles
import SaWa.HttpPageLoads
import SaWa.SawaClientReads
import SaWa.HttpCaseSearch
import SaWa.MemoryDump
import SaWa.SawaClientTest
import SaWa.SawaDriverSends
import SaWa.TowaParameters
import SaWa.RelyGuarantee
import SaWa.HttpSessions
import SaWa.TowaTraces
import SaWa.TowaServlets
import SaWa.HttpBrowsers
import SaWa.TowaSupervision
import SaWa.SawaRestarts
import SaWa.PooledServer
import SaWa.RankedRuns
import SaWa.ThreadPoolDrain
import SaWa.EffectLedger
import SaWa.SawaDriverLifetime
import SaWa.HttpPool
import SaWa.Linearizability
import SaWa.ServingThreads
import SaWa.SawaLinearizable
import SaWa.PairedPrograms
import SaWa.SawaServerThread
import SaWa.SawaSelfTest
import SaWa.SawaDriverThreads
import SaWa.BlockDevice
import SaWa.PooledDrain
import SaWa.SawaServerDrain
import SaWa.HttpServerDrain
