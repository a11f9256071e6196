/-
  Exec/InsertRowid.lean --- the rowid that an INSERT gives its row.

  Source: `Insert.next` and `Insert._next_rowid` of `quilldb/exec/operators.py`, and
  `Connection._run_mutation` of `quilldb/api/connection.py`.

  The next rowid is computed without a bound, the tree is searched with it, and the
  cell keeps its low 64 bits.
-/
import QuillDb.BTree.Forest
import QuillDb.BTree.Lookup
import QuillDb.Exec.WriteSpec

set_option autoImplicit false

namespace QuillDb

open Prog PageStore Fallible

def Row.pair (r : Row) : Int × Bytes := (r.rowid, r.stored.data)

section InsertRowid

variable {casefold : String → String} {indexes : List IndexSchema} {lost : Residue} {s : PageStore}
variable {h : Nat} {T : TableTree h} {trees rest : List StoredTree}

/-! ## A table that is read again -/

end InsertRowid

end QuillDb
