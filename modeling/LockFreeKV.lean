import LockFreeKV.Lib.Run
import LockFreeKV.Lib.Chain
import LockFreeKV.Lib.AssocList
import LockFreeKV.Lib.AtomicObject
import LockFreeKV.Lib.SharedMutex
import LockFreeKV.Lib.Bytes
import LockFreeKV.Lib.Blocks
import LockFreeKV.Lib.Json
import LockFreeKV.Lib.BufferedOutput
import LockFreeKV.Lib.Cells
import LockFreeKV.Lib.Caller
import LockFreeKV.Lib.HttpMessage
import LockFreeKV.Engine.Step
import LockFreeKV.Engine.Representation
import LockFreeKV.Engine.Ownership
import LockFreeKV.Engine.Linearizability
import LockFreeKV.Engine.Sequential
import LockFreeKV.Engine.Enumerate
import LockFreeKV.Engine.Statistics
import LockFreeKV.Engine.Progress
import LockFreeKV.Engine.AllocatorRegistry
import LockFreeKV.Engine.AtomicSharedPtr
import LockFreeKV.Engine.Allocation
import LockFreeKV.Engine.Ledger
import LockFreeKV.Engine.Accounting
import LockFreeKV.Engine.AccountingRun
import LockFreeKV.Engine.ExceptionSafety
import LockFreeKV.Engine.Alone
import LockFreeKV.Rapidjson
import LockFreeKV.Crow.TrieRules
import LockFreeKV.Crow.Routing
import LockFreeKV.Crow.Response
import LockFreeKV.Crow.Connection
import LockFreeKV.Http.UrlDecode
import LockFreeKV.Http.UrlEncoding
import LockFreeKV.Http.UrlBounds
import LockFreeKV.Http.Service
import LockFreeKV.Http.Acceptance
import LockFreeKV.Http.Exceptions
import LockFreeKV.Http.Routing
import LockFreeKV.Storage.Persistency
import LockFreeKV.Storage.Loading
import LockFreeKV.Storage.Saving
import LockFreeKV.Storage.Process
import LockFreeKV.Storage.Encoding
import LockFreeKV.Server.Consistency
import LockFreeKV.Server.ReadAccounting
import LockFreeKV.Server.Sessions
import LockFreeKV.Server.Connections
import LockFreeKV.Client.NotFoundReads
import LockFreeKV.Client.Progress
