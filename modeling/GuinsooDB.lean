import GuinsooDB.Update.Column
import GuinsooDB.Wal.TableContext
import GuinsooDB.Version.Reload
import GuinsooDB.Aggregate.Output
import GuinsooDB.Join.Parallel
import GuinsooDB.Pipeline.Run
import GuinsooDB.Aggregate.Simple
import GuinsooDB.Aggregate.Sum
import GuinsooDB.Storage.BufferAccounting
import GuinsooDB.Catalog.Undo
import GuinsooDB.Storage.StringSpace
import GuinsooDB.Storage.Statistics
import GuinsooDB.Version.DeleteCall
import GuinsooDB.Index.CleanupDelete
import GuinsooDB.Index.Flush
import GuinsooDB.Update.RevertedAppend
import GuinsooDB.Catalog.Dependencies
import GuinsooDB.Storage.MetaBlock
import GuinsooDB.Index.KeyEncoding
import GuinsooDB.Optimizer.Distributivity
import GuinsooDB.Optimizer.ConstantBounds
import GuinsooDB.Arithmetic.Cast
import GuinsooDB.Types.Timestamp
import GuinsooDB.Types.Blob
