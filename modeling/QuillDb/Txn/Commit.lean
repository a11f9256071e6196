/-
  Txn/Commit.lean --- commit, step by step, and rollback.

  Source: `Transaction.commit` and `Transaction.rollback` of
  `quilldb/txn/transaction.py`, `commit_barrier` of `quilldb/txn/journal.py`.

  After the header is stamped into page 1, commit is a list of steps with one
  effect on the files each, so that it can be cut anywhere.
-/
import QuillDb.Txn.Steps

set_option autoImplicit false

namespace QuillDb

open Prog

namespace Machine

/-- The open `Journal` object of the transaction. -/
def openJournal : MachineM JournalHandle := do
  let s ← state
  match s.txn.journal with
  | some ⟨nonce, nrec, .opened⟩ => pure ⟨nonce, nrec, .opened⟩
  | some ⟨_, _, .closed⟩ => raise (.valueError "I/O operation on closed file.")
  | _ => raise (.assertionError "called before begin()")

/-- `page[:FILE_HEADER_SIZE] = self._pager.header_bytes()`. -/
def stampPage (page : Page) : MachineM Unit := do
  let s ← state
  let bytes ← lift s.header.toBytes
  mutate schemaRootPage (page.overwrite bytes)

/-- The same inside `pinned_for_write(SCHEMA_ROOT_PAGE)`. -/
def stampHeader : MachineM Unit := do
  let page ← getPageForWrite schemaRootPage
  finally_ (stampPage page) (unpin schemaRootPage)

/-- `flush_page`. -/
def flushPage (id : Nat) : MachineM Unit := do
  let s ← state
  match s.cache.lookup id with
  | none => pure ()
  | some entry =>
      if entry.dirty then do
        onStorage (Pager.writePage s.txn.barrierPassed id entry.data)
        updateCache fun c => c.modify id fun f => { f with dirty := false }
      else pure ()

/-- The steps of commit after the header is stamped. -/
inductive CommitStep where
  | syncJournal
  | syncDirectory
  | writeValidity
  | syncValidity
  | passBarrier
  | flush (id : Nat)
  | syncDatabase
  | deleteJournal

def CommitStep.run : CommitStep → MachineM Unit
  | .syncJournal => openJournal >>= fun _ => onStorage JournalFile.fsync
  | .syncDirectory => onStorage JournalFile.fsyncDirectory
  | .writeValidity => openJournal >>= fun h => onStorage (JournalFile.writeValidity h.nrec)
  | .syncValidity => onStorage JournalFile.fsync
  | .passBarrier => updateTxn fun t => { t with barrierPassed := true }
  | .flush id => flushPage id
  | .syncDatabase => onStorage Pager.sync
  | .deleteJournal => do
      let h ← openJournal
      updateTxn fun t => { t with journal := some { h with file := .closed } }
      onStorage JournalFile.delete

/-- `commit_barrier`, `flush_all` over the cached pages, `sync`, `delete`. -/
def commitPlan (s : Machine) : List CommitStep :=
  [.syncJournal, .syncDirectory, .writeValidity, .syncValidity, .passBarrier] ++
    (s.cache.map fun e => .flush e.1) ++ [.syncDatabase, .deleteJournal]

/-- The first `k` steps of the plan. -/
def commitSteps (k : Nat) : MachineM Unit := do
  let s ← state
  seq (((commitPlan s).take k).map CommitStep.run)

/-- Commit, cut after `k` steps of its plan. -/
def commitUpTo (k : Nat) : MachineM Unit := do
  let s ← state
  match s.txn.journal with
  | none => pure ()
  | some _ => do
      stampHeader
      commitSteps k

/-- `commit`. -/
def commit : MachineM Unit := do
  let s ← state
  match s.txn.journal with
  | none => pure ()
  | some _ => do
      stampHeader
      let s ← state
      seq ((commitPlan s).map CommitStep.run)

/-- What a step leaves behind when the operating system fails it half way: a page
write may have torn the page, an unlink comes after the handle was closed. -/
def CommitStep.torn (garbage : Page) : CommitStep → Machine → Machine
  | .flush id, s =>
      match s.cache.lookup id with
      | none => s
      | some entry =>
          if entry.dirty ∧ s.txn.barrierPassed then
            { s with storage := { s.storage with
                disk := s.storage.disk.issue (.write id garbage) } }
          else s
  | .deleteJournal, s =>
      { s with txn := { s.txn with
          journal := s.txn.journal.map fun h => { h with file := .closed } } }
  | _, s => s

/-- A commit whose step `k` raised `OSError`, having torn a page or not. -/
def failedCommit (k : Nat) (garbage : Option Page) (s : Machine) : Machine :=
  match s.txn.journal with
  | none => s
  | some _ =>
      match stampHeader s with
      | (.error _, s₁) => s₁
      | (.ok (), s₁) =>
          let s₂ := (commitSteps k).exec s₁
          match garbage, (commitPlan s₁)[k]? with
          | some p, some step => step.torn p s₂
          | _, _ => s₂

/-- `rollback`. -/
def rollback : MachineM Unit := do
  let s ← state
  match s.txn.journal with
  | none => pure ()
  | some _ => do
      let _ ← openJournal
      onStorage JournalFile.replay
      onStorage (Pager.truncate s.txn.pageCountBefore)
      onStorage Pager.sync
      CommitStep.deleteJournal.run
      clear s.txn.journalled
      onStorage Pager.reloadHeader

/-! ## What the pool shows -/

/-- The content of a page as the pool's readers see it. -/
def page (s : Machine) (id : Nat) : Page :=
  match s.cache.lookup id with
  | some f => f.data
  | none => s.file.page id

/-- What `get_page` would find: nothing beyond the page count unless it is cached. -/
def view (s : Machine) (id : Nat) : Option Page :=
  match s.cache.lookup id with
  | some f => some f.data
  | none => if 1 ≤ id ∧ id ≤ s.header.pageCount then some (s.file.page id) else none

/-- The database: its pages from 1 to the page count. -/
def database (s : Machine) : DbFile :=
  (List.range s.header.pageCount).map fun i => s.page (i + 1)

end Machine

end QuillDb
