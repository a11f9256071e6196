import QuillDb.Txn.DeadlockSound
import QuillDb.BTree.InsertRoom
import QuillDb.BTree.IndexAtomic
import QuillDb.BTree.IndexRoom
import QuillDb.BTree.ScanReverse
import QuillDb.BTree.Settles
import QuillDb.BTree.Restore
import QuillDb.BTree.ThinPages
import QuillDb.Storage.Page
import QuillDb.Txn.Rollback
import QuillDb.Txn.Replay
import QuillDb.Txn.WriteAhead
import QuillDb.Txn.Freelist
import QuillDb.BTree.ValidateSound
import QuillDb.Exec.IndexScan
import QuillDb.Exec.GroupThenFold
import QuillDb.BTree.Cursor
import QuillDb.BTree.Forest
import QuillDb.Catalog.Catalog
import QuillDb.Catalog.UniqueIndex
import QuillDb.Exec.Write
import QuillDb.Exec.DeclaredTypes
import QuillDb.Exec.Explain
import QuillDb.Codec.AnyRecord
import QuillDb.BTree.CellCut
import QuillDb.BTree.OverflowChain
import QuillDb.Exec.Comparison
import QuillDb.Exec.Like
import QuillDb.Exec.InsertRowid
import QuillDb.Exec.Storable
import QuillDb.Sql.TokenizerSound
import QuillDb.Sql.Parser
import QuillDb.Sql.ParserSound
import QuillDb.Sql.Scopes
import QuillDb.Exec.InStepRuns
import QuillDb.Exec.Reload
import QuillDb.Exec.Relations
import QuillDb.Exec.Analyzed
import QuillDb.Exec.Rows
import QuillDb.Exec.Scans
import QuillDb.Exec.Cached
import QuillDb.Lib.Serial
import QuillDb.Txn.Serializable
