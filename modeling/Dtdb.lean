import Dtdb.Relational.Isolation
import Dtdb.Relational.CommitError
import Dtdb.Relational.DdlReplay
import Dtdb.Relational.Checkpoint
import Dtdb.Storage.ConcurrentScan
import Dtdb.Relational.Quiesce
import Dtdb.Api.DbNames
import Dtdb.Api.DropDb
import Dtdb.Storage.SnapshotFaults
import Dtdb.Storage.WriteError
import Dtdb.Sql.Cover
import Dtdb.Storage.LogBytes
import Dtdb.Storage.OverlappedRun
import Dtdb.Storage.MergeIter
import Dtdb.Storage.SstableRoundTrip
import Dtdb.Sql.AutoIncrement
import Dtdb.Relational.IndexBuild
import Dtdb.Sql.SetQuery
import Dtdb.Relational.RowBytes
import Dtdb.Relational.KeyRange
import Dtdb.Storage.Backpressure
import Dtdb.Sql.Trigram
import Dtdb.Storage.FlushCount
import Dtdb.Storage.FlushRetry
import Dtdb.Sql.Eval
import Dtdb.Sql.Exact
import Dtdb.Sql.Analyze
import Dtdb.Sql.Spill
import Dtdb.Sql.FullTextQuery
import Dtdb.Relational.Restart
import Dtdb.Storage.Executor
import Dtdb.Sql.MergeJoin
