import PostgresRs.Lock.Deadlock
import PostgresRs.Sql.Precedence
import PostgresRs.Sql.DollarQuote
import PostgresRs.Wal.Restart
import PostgresRs.Server.Publication
import PostgresRs.Server.Acknowledge
import PostgresRs.Server.Connection
import PostgresRs.Storage.Transparent
import PostgresRs.Disk.LogRuns
import PostgresRs.Exec.Aggregate
import PostgresRs.Exec.ArrayText
import PostgresRs.Exec.Regex
import PostgresRs.Exec.Kleene
import PostgresRs.Exec.Compare
import PostgresRs.Exec.SameTable
import PostgresRs.Disk.Atomic
import PostgresRs.Disk.WriteBack
import PostgresRs.Disk.PageRuns
import PostgresRs.Server.TwoPhase
import PostgresRs.Server.Crash
import PostgresRs.Server.RowLocks
import PostgresRs.Server.CopyCsv
import PostgresRs.Storage.Sequence
import PostgresRs.Constraint.Unique
import PostgresRs.Constraint.Merge
import PostgresRs.Constraint.NotNull
import PostgresRs.Constraint.Ranges
import PostgresRs.Exec.SetOps
import PostgresRs.Exec.Series
