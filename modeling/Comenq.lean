import Comenq.Lib.Saturating
import Comenq.Lib.LineLog
import Comenq.Lib.CrashTrace
import Comenq.Lib.Traced
import Comenq.Lib.JsonText
import Comenq.Lib.Directory
import Comenq.Store.Types
import Comenq.Store.Encoding
import Comenq.Lib.JsonReader
import Comenq.Store.Codec
import Comenq.Store.FileSystem
import Comenq.Store.Bounds
import Comenq.Store.Queue
import Comenq.Store.Admission
import Comenq.Store.Identifier
import Comenq.Store.History
import Comenq.Store.Recent
import Comenq.Store.Scheduling
import Comenq.Store.Completion
import Comenq.Store.AwaitLookup
import Comenq.Store.Changes
import Comenq.Verify.Capacity
import Comenq.Store.Operations
import Comenq.Verify.CleanRuns
import Comenq.Verify.QueueRuns
import Comenq.Verify.HistoryLog
import Comenq.Store.System
import Comenq.Verify.Ownership
import Comenq.Verify.Recovery
import Comenq.Verify.Lifetimes
import Comenq.Lib.WriteBack
import Comenq.Store.Disk
import Comenq.Verify.PowerLoss
import Comenq.Lib.KeyOrder
import Comenq.Verify.ListModel
import Comenq.Store.HistoryPages
import Comenq.Verify.HistoryReaders
import Comenq.Daemon.WorkerLoop
import Comenq.Verify.Claims
import Comenq.Verify.Wakeups
import Comenq.Daemon.SharedQueue
import Comenq.Verify.Etas
import Comenq.Verify.Completions
import Comenq.Daemon.AwaitHandler
import Comenq.Daemon.AwaitServer
import Comenq.Verify.AwaitLookups
import Comenq.Verify.AwaitWaiters
import Comenq.Client.AwaitStream
import Comenq.Verify.AwaitFrames
import Comenq.Daemon.Messages
import Comenq.Daemon.ProtocolCodec
import Comenq.Daemon.Protocol
import Comenq.Verify.HistoryPaging
import Comenq.Lib.Text
import Comenq.Daemon.TokenFiles
import Comenq.Daemon.Tokens
import Comenq.Lib.RoundRobin
import Comenq.Verify.Rotation
import Comenq.Lib.Chain
import Comenq.Verify.EtaLaws
import Comenq.Lib.OpenAddressing
import Comenq.Verify.Probing
import Comenq.Verify.Deduplication
import Comenq.Verify.Rejections
import Comenq.Verify.Opening
import Comenq.Verify.ReplyLimits
import Comenq.Client.Run
import Comenq.Verify.QuotedTexts
import Comenq.Verify.TerminalOutput
import Comenq.Verify.Execution
import Comenq.Verify.Pacing
import Comenq.Verify.Reservation
import Comenq.Verify.Migration
import Comenq.Verify.AwaitLifetimes
import Comenq.Verify.AwaitRecovery
import Comenq.Client.Slug
import Comenq.Daemon.Supervisor
import Comenq.Verify.HistoryGrowth
import Comenq.Verify.Supervision
import Comenq.Verify.TokenPool
import Comenq.Verify.RepositoryNames
import Comenq.Verify.AttemptRecords
