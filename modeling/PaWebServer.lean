import PaWebServer.Lib.Text
import PaWebServer.Lib.BufferedReader
import PaWebServer.Lib.Tally
import PaWebServer.Lib.PrefixCode
import PaWebServer.Lib.Transition
import PaWebServer.Lib.Refinement
import PaWebServer.Lib.ReentrantLock
import PaWebServer.Lib.LockTable
import PaWebServer.Lib.Path
import PaWebServer.Lib.FileTree
import PaWebServer.Lib.Json
import PaWebServer.Lib.Http
import PaWebServer.Lib.Properties
import PaWebServer.Lib.ParseInt
import PaWebServer.PageHandler
import PaWebServer.PageHandlerProof
import PaWebServer.PageHandlerRefinement
import PaWebServer.LogsHandler
import PaWebServer.LogFile
import PaWebServer.LogReopen
import PaWebServer.LogRecovery
import PaWebServer.LogJson
import PaWebServer.LogQueue
import PaWebServer.LogQueueSteps
import PaWebServer.LogQueueProof
import PaWebServer.LogGrammar
import PaWebServer.LogAccounting
import PaWebServer.LogClosing
import PaWebServer.LogBlocking
import PaWebServer.LogDelivery
import PaWebServer.LogOutcomes
import PaWebServer.LogHistory
import PaWebServer.RequestHandler
import PaWebServer.RequestHandlerProof
import PaWebServer.RequestSearch
import PaWebServer.RequestRouting
import PaWebServer.RequestThread
import PaWebServer.RequestThreadProof
import PaWebServer.RequestReader
import PaWebServer.RequestStream
import PaWebServer.Response
import PaWebServer.RequestAnswer
import PaWebServer.Server
import PaWebServer.ServerSteps
import PaWebServer.ServerInvariant
import PaWebServer.ServerTermination
import PaWebServer.ServerLocks
import PaWebServer.ServerProgress
import PaWebServer.ServerRequests
import PaWebServer.ServerOrder
import PaWebServer.ServerFailures
import PaWebServer.ServerLeak
import PaWebServer.ServerDocuments
import PaWebServer.ServerPool
import PaWebServer.WebServer
import PaWebServer.WebServerHistory
import PaWebServer.ConfigReader
import PaWebServer.Main
import PaWebServer.JSONObject
import PaWebServer.JSONObjectProof
import PaWebServer.JSONObjectDecode
