import KvDatabase.Clients
import KvDatabase.Shutdown
import KvDatabase.Limiter
import KvDatabase.Disjoint
import KvDatabase.Crash
import KvDatabase.Failures
import KvDatabase.Startup
import KvDatabase.Interleaving
import KvDatabase.Requests
import KvDatabase.Dispatch
import KvDatabase.Coverage
import KvDatabase.Buckets
import KvDatabase.Windows
import KvDatabase.Grammar
import KvDatabase.Replies
import KvDatabase.Admission
import KvDatabase.Peers
import KvDatabase.Teardown
import KvDatabase.Hashing
import KvDatabase.Lib.Spans
import KvDatabase.Sweeps
import KvDatabase.Lifetime
import KvDatabase.Wakeups
import KvDatabase.Answers
import KvDatabase.Restarts
import KvDatabase.Sessions
import KvDatabase.Reload
import KvDatabase.Intervals
import KvDatabase.Completion
import KvDatabase.Idle
import KvDatabase.Locks
import KvDatabase.Races
import KvDatabase.Starvation
