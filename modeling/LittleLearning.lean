import LittleLearning.Lib.Exec
import LittleLearning.Lib.Numeral
import LittleLearning.Db.Client
import LittleLearning.Db.Inline
import LittleLearning.Db.Bulk
import LittleLearning.Db.Session
import LittleLearning.Db.Cuts
import LittleLearning.Db.Rounds
import LittleLearning.Db.Events
import LittleLearning.Db.Headers
import LittleLearning.Db.LineEnds
import LittleLearning.Db.Grammar
import LittleLearning.Db.Wedge
import LittleLearning.Db.Proxy
import LittleLearning.Db.Guards
import LittleLearning.Lib.Circular
import LittleLearning.Lib.Atomic
import LittleLearning.Repo.TaskQueue
import LittleLearning.Repo.ProducerConsumerQueue
import LittleLearning.Repo.Ring
import LittleLearning.Repo.Spsc
import LittleLearning.Repo.Linear
import LittleLearning.Repo.Fifo
import LittleLearning.Db.Server
import LittleLearning.Db.Step
import LittleLearning.Db.Notify
import LittleLearning.Db.Connections
import LittleLearning.Db.Closing
import LittleLearning.Db.Flush
import LittleLearning.Db.Append
import LittleLearning.Db.Exit
import LittleLearning.Db.Overflow
import LittleLearning.Db.Graft
import LittleLearning.Db.Trace
import LittleLearning.Db.Reads
import LittleLearning.Db.Serial
import LittleLearning.Db.Store
import LittleLearning.Db.Drain
import LittleLearning.Db.Replies
import LittleLearning.Db.Dialogue
import LittleLearning.Db.Linked
import LittleLearning.Lib.Cache
import LittleLearning.Lib.Nodes
import LittleLearning.Algorithm.LruCache
import LittleLearning.Algorithm.LFUCache
import LittleLearning.Algorithm.LFUClock
import LittleLearning.Algorithm.Roomy
import LittleLearning.Lib.Matching
import LittleLearning.Algorithm.StringMatcher
import LittleLearning.Algorithm.MatchAll
import LittleLearning.Algorithm.ComputeDfs
import LittleLearning.Algorithm.Bordered
import LittleLearning.Lib.Memory
import LittleLearning.Basic.Util
import LittleLearning.Basic.Forward
import LittleLearning.Lib.Monitor
import LittleLearning.Lib.Calls
import LittleLearning.Concurrent.BlockingQueue
import LittleLearning.Concurrent.Bounded
import LittleLearning.Concurrent.CasLock
import LittleLearning.Concurrent.Thread
import LittleLearning.Concurrent.Release
import LittleLearning.Concurrent.Destructor
import LittleLearning.Concurrent.ThreadLocal
import LittleLearning.Net.Common
import LittleLearning.Net.Ttcp
import LittleLearning.Net.Disconnect
import LittleLearning.Net.Finish
import LittleLearning.Net.Opening
import LittleLearning.Net.Delivery
import LittleLearning.Net.Hangup
import LittleLearning.Net.Echo
