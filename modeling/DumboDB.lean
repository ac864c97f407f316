import DumboDB.Dolt.PrefilterSound
import DumboDB.Handler.Sorting
import DumboDB.Dolt.IndexRange
import DumboDB.Index.SplitKeyValues
import DumboDB.Dolt.ResolutionRestart
import DumboDB.Dolt.NamespaceResolution
import DumboDB.Dolt.LockExclusion
import DumboDB.Sqlctx.PooledSessions
import DumboDB.Dolt.TransactionLocks
import DumboDB.Clientconn.Routing
import DumboDB.Clientconn.ReplayedWrite
import DumboDB.Dolt.UncommittedChanges
import DumboDB.Dolt.Rebase
import DumboDB.Handler.PrivilegeSets
import DumboDB.Handler.PrivilegeCache
import DumboDB.Handler.UpdateChanges
import DumboDB.Handler.AdminGuard
import DumboDB.Handler.ViewDefinitions
import DumboDB.Replication.Convergence
import DumboDB.Replication.WholeTransactions
