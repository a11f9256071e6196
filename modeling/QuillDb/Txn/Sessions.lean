/-
  Txn/Sessions.lean --- what transactions lock, read and write, and when they let go.

  Source: `Transaction` of `quilldb/txn/transaction.py` (its locks, `commit`, `rollback`);
  `_begin`, `_end_txn`, `_run_mutation`, `_statement_txn` and `execute` of
  `quilldb/api/connection.py`; `open` of the scans and of `Insert`, `Delete` and `Update` in
  `quilldb/exec/operators.py`.

  A transaction reads and writes the catalog, and the rows of a table with its indexes.  The
  lock manager is the one of `Txn/Locks.lean`, thread for thread: a call of `acquire` that
  has to wait goes on through its own steps, and a transaction does nothing else meanwhile.
  What the planner reads of `quill_stat1` is not among the reads: it takes no lock, and
  decides which path a statement takes but not what the statement finds.
-/
import QuillDb.Lib.Serial
import QuillDb.Plan.Analyze
import QuillDb.Txn.LockSafety

set_option autoImplicit false

namespace QuillDb

open Serial

/-- `SCHEMA_RESOURCE`. -/
def schemaResource : String := "__schema__"

/-- `WRITER_RESOURCE`. -/
def writerResource : String := "__writer__"

/-! ## The locks of a transaction -/

namespace Transaction

/-- A call of `acquire`. -/
abbrev LockCall : Type := String × LockMode

/-- `lock_schema_read`. -/
def lockSchemaRead : List LockCall := [(schemaResource, .shared)]

/-- `lock_schema_write`. -/
def lockSchemaWrite : List LockCall := [(schemaResource, .exclusive)]

/-- `lock_for_read`. -/
def lockForRead (table : String) : List LockCall := [(table, .shared)]

/-- `_acquire_writer`. -/
def acquireWriter : List LockCall := [(writerResource, .exclusive)]

/-- `lock_for_write`. -/
def lockForWrite (table : String) : List LockCall := acquireWriter ++ [(table, .exclusive)]

/-- `lock_immediate`. -/
def lockImmediate : List LockCall := lockSchemaRead ++ acquireWriter

end Transaction

/-- What transactions read and write. -/
inductive Item where
  | catalog
  | table (name : String)
  deriving DecidableEq, Repr

/-- A statement, by the names that it locks and the tables that these stand for. -/
inductive Locking where
  /-- The tables in the order in which their scans open. -/
  | select (tables : List String)
  /-- INSERT, DELETE or UPDATE. -/
  | mutate (table : String)
  | createTable (name : String)
  /-- The name of the table as it is written, and the table. -/
  | createIndex (written table : String)
  /-- ANALYZE of these, by their names as they are written and the tables. -/
  | analyze (names : List (String × String))
  /-- BEGIN IMMEDIATE. -/
  | immediate

namespace Locking

open Transaction

/-- The calls of `acquire`, in order. -/
def requests : Locking → List LockCall
  | select tables => lockSchemaRead ++ tables.flatMap lockForRead
  | mutate table => lockSchemaRead ++ lockForWrite table
  | createTable name => lockSchemaWrite ++ lockForWrite name
  | createIndex written _ => lockSchemaWrite ++ lockForWrite written
  | analyze names => lockSchemaRead ++ lockForWrite stat1TableName ++ names.flatMap fun name => lockForRead name.1
  | immediate => lockImmediate

/-- What it may read once so many of the calls have returned: a scan its own table, anything
else what it is about once it has all its locks. -/
def mayRead (statement : Locking) (granted : Nat) : Item → Bool
  | .catalog => 0 < granted
  | .table name =>
      match statement with
      | select tables => name ∈ tables.take (granted - 1)
      | mutate table => granted = 3 && name = table
      | createTable created => granted = 3 && name = created
      | createIndex _ table => granted = 3 && name = table
      | analyze names => granted = 3 + names.length && (name = stat1TableName || name ∈ names.map Prod.snd)
      | immediate => false

/-- What it may write then. -/
def mayWrite (statement : Locking) (granted : Nat) (item : Item) : Bool :=
  match statement, item with
  | mutate table, .table name => granted = 3 && name = table
  | createTable created, .table name => granted = 3 && name = created
  | createTable _, .catalog => granted = 3
  | createIndex _ table, .table name => granted = 3 && name = table
  | createIndex _ _, .catalog => granted = 3
  | analyze names, .table name => granted = 3 + names.length && name = stat1TableName
  | _, _ => false

end Locking

/-- A statement under way, and how many of its calls of `acquire` have returned. -/
structure Underway where
  statement : Locking
  granted : Nat

/-- The database, the lock manager and the transactions. -/
structure Sessions (Content : Type) where
  locks : LockSystem := {}
  world : World Nat Item Content
  underway : Nat → Option Underway := fun _ => none

namespace Sessions

variable {Content : Type}

/-- What may happen next. -/
inductive Action (Content : Type) where
  /-- `Transaction(...)`, for BEGIN or for one statement. -/
  | start (t : Nat)
  | execute (t : Nat) (statement : Locking)
  /-- The next call of `acquire` of the statement. -/
  | request (t : Nat)
  /-- A step inside the lock manager. -/
  | lock (a : LockSystem.Action)
  | read (t : Nat) (item : Item)
  | write (t : Nat) (item : Item) (content : Content)
  | commit (t : Nat)
  | rollback (t : Nat)

/-- The transaction is under way and not inside the lock manager. -/
def Running (s : Sessions Content) (t : Nat) : Prop := s.world.phase t = .active ∧ s.locks.threads t = .outside

/-- The thread is not inside the lock manager. -/
def isOutside : ThreadState → Bool
  | .outside => true
  | _ => false

theorem isOutside_iff (p : ThreadState) : isOutside p = true ↔ p = .outside := by
  cases p <;> simp [isOutside]

instance (s : Sessions Content) (t : Nat) : Decidable (s.Running t) :=
  decidable_of_iff (s.world.phase t = .active ∧ isOutside (s.locks.threads t) = true)
    (and_congr_right fun _ => isOutside_iff _)

def setUnderway (s : Sessions Content) (t : Nat) (u : Option Underway) : Sessions Content :=
  { s with underway := Function.update s.underway t u }

/-- One more call has returned. -/
def advance (s : Sessions Content) (t : Nat) : Sessions Content :=
  s.setUnderway t ((s.underway t).map fun u => { u with granted := u.granted + 1 })

/-- The next call of `acquire`: it returns at once, or goes on inside the lock manager. -/
def request (s : Sessions Content) (t : Nat) : Option (Sessions Content) := do
  let u ← s.underway t
  let q ← u.statement.requests[u.granted]?
  let locks ← s.locks.step (.acquire t q.1 q.2)
  match locks.threads t with
  | .outside => some ({ s with locks := locks }.advance t)
  | _ => some { s with locks := locks }

/-- A step inside the lock manager.  A call that ends in an error ends its statement;
`release_all` is for a transaction that is over. -/
def lock (s : Sessions Content) (a : LockSystem.Action) : Option (Sessions Content) := do
  let locks ← s.locks.step a
  let s' := { s with locks := locks }
  match a with
  | .acquire _ _ _ => none
  | .releaseAll t => if s.world.phase t = .ended then some s' else none
  | .settle t =>
      match s.locks.threads t with
      | .leaving (.ok _) => some (s'.advance t)
      | _ => some (s'.setUnderway t none)
  | _ => some s'

/-- The statement of a transaction lets it, so far. -/
def allows (s : Sessions Content) (t : Nat) (may : Locking → Nat → Bool) : Bool :=
  match s.underway t with
  | some u => may u.statement u.granted
  | none => false

/-- One step; `none` where it cannot be taken. -/
def step (s : Sessions Content) : Action Content → Option (Sessions Content)
  | .start t => if s.world.phase t = .new then some { s with world := s.world.start t } else none
  | .execute t statement => if s.Running t then some (s.setUnderway t (some ⟨statement, 0⟩)) else none
  | .request t => if s.Running t then s.request t else none
  | .lock a => s.lock a
  | .read t item =>
      if s.Running t ∧ s.allows t (fun statement granted => statement.mayRead granted item) then
        some { s with world := s.world.read t item }
      else none
  | .write t item content =>
      if s.Running t ∧ s.allows t (fun statement granted => statement.mayWrite granted item) then
        some { s with world := s.world.write t item content }
      else none
  | .commit t => if s.Running t then some { s with world := s.world.commit t } else none
  | .rollback t => if s.Running t then some { s with world := s.world.rollback t } else none

/-- A database that nobody uses yet. -/
def opened (contents : Item → Content) : Sessions Content := { world := { contents := contents } }

end Sessions

end QuillDb
