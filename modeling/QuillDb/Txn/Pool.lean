/-
  Txn/Pool.lean --- the buffer pool, inside a write transaction and outside of one.

  Source: `quilldb/storage/bufferpool.py` and `Transaction.will_modify` of
  `quilldb/txn/transaction.py`.

  `inTxn` says whether `self._txn` is set: from the moment the transaction wired itself
  to the pool (`lock_for_write`) on, pages are journalled and dirty ones stay.  Outside
  of a transaction a dirty page is written back when it is evicted.  The cache is an
  association list in recency order, least recently used first.
-/
import QuillDb.Lib.Dict
import QuillDb.Storage.Pager

set_option autoImplicit false

namespace QuillDb

/-- `_Entry`. -/
structure Frame where
  data : Page
  pinCount : Nat
  dirty : Bool

/-- The pool's `OrderedDict`. -/
abbrev Cache : Type := Dict Nat Frame

/-- Where a `Journal` object's file handle stands. -/
inductive HandleState where
  | notBegun
  | opened
  | closed
  deriving DecidableEq

/-- A `Journal` object. -/
structure JournalHandle where
  nonce : Nat
  nrec : Nat
  file : HandleState

/-- `Transaction`: what it needs to undo itself. -/
structure Transaction where
  journal : Option JournalHandle
  journalled : List Nat
  pageCountBefore : Nat
  barrierPassed : Bool

/-- The files, the pool and the transaction wired to both.  `entropy` is what
`random.getrandbits(32)` will return. -/
structure Machine where
  storage : Storage
  capacity : Nat
  cache : Cache
  txn : Transaction
  entropy : UInt32

/-- A program over the machine. -/
abbrev MachineM (α : Type) : Type := Prog DbError Machine α

namespace Machine

open Prog

/-- The header object of the pager. -/
def header (s : Machine) : FileHeader := s.storage.header

/-- The database file as the process reads it. -/
def file (s : Machine) : DbFile := s.storage.disk.file

/-- Run a pager program. -/
def onStorage {α : Type} (m : PagerM α) : MachineM α := fun s =>
  match m s.storage with
  | (r, storage) => (r, { s with storage := storage })

def updateTxn (f : Transaction → Transaction) : MachineM Unit :=
  update fun s => { s with txn := f s.txn }

def updateCache (f : Cache → Cache) : MachineM Unit :=
  update fun s => { s with cache := f s.cache }

/-! ## Transaction.will_modify -/

/-- `record_original` on the transaction's journal. -/
def recordOriginal (id : Nat) (page : Page) : MachineM Unit := do
  let s ← state
  match s.txn.journal with
  | some ⟨nonce, nrec, .opened⟩ => do
      onStorage (JournalFile.append nonce id page)
      updateTxn fun t => { t with journal := some ⟨nonce, nrec + 1, .opened⟩ }
  | _ => raise (.assertionError "record_original() called before begin()")

/-- Construct the journal on the first write to a page that existed before. -/
def promote : MachineM Unit := do
  let s ← state
  match s.txn.journal with
  | some _ => pure ()
  | none => do
      updateTxn fun t => { t with journal := some ⟨0, 0, .notBegun⟩ }
      onStorage (JournalFile.begin_ s.entropy.toNat s.txn.pageCountBefore)
      updateTxn fun t => { t with journal := some ⟨s.entropy.toNat, 0, .opened⟩ }

/-- `will_modify`. -/
def willModify (id : Nat) : MachineM Unit := do
  let s ← state
  if id ∈ s.txn.journalled then pure ()
  else if s.txn.pageCountBefore < id then
    updateTxn fun t => { t with journalled := t.journalled ++ [id] }
  else do
    promote
    let data ← onStorage (Pager.readPage id)
    recordOriginal id data
    updateTxn fun t => { t with journalled := t.journalled ++ [id] }

/-! ## BufferPool -/

/-- `_evict_one` under no-steal: the least recently used clean unpinned entry
goes; an unpinned dirty one lets the pool grow; otherwise there is nothing. -/
def evictOne : MachineM Unit := do
  let s ← state
  match s.cache.find? fun e => e.2.pinCount = 0 ∧ ¬ e.2.dirty with
  | some e => updateCache fun c => c.erase e.1
  | none =>
      if s.cache.any fun e => e.2.pinCount = 0 then pure ()
      else raise (.poolExhausted "every cached page is pinned; nothing to evict")

/-- `unpin`. -/
def unpin (id : Nat) : MachineM Unit := do
  let s ← state
  match s.cache.lookup id with
  | none => raise (.valueError "page is not cached")
  | some entry =>
      if entry.pinCount = 0 then raise (.valueError "page has no outstanding pin")
      else updateCache fun c => c.modify id fun f => { f with pinCount := f.pinCount - 1 }

/-- Writing through the `bytearray` that `get_page_for_write` returned, while the
page is still pinned. -/
def mutate (id : Nat) (page : Page) : MachineM Unit := do
  let s ← state
  match s.cache.lookup id with
  | none => pure ()
  | some entry =>
      if 0 < entry.pinCount ∧ entry.dirty then
        updateCache fun c => c.modify id fun f => { f with data := page }
      else pure ()

/-- `discard`. -/
def discard (id : Nat) : MachineM Unit := do
  let s ← state
  match s.cache.lookup id with
  | none => pure ()
  | some entry =>
      if 0 < entry.pinCount then raise (.valueError "page is still pinned")
      else updateCache fun c => c.erase id

/-- `clear(pages)`. -/
def clear : List Nat → MachineM Unit
  | [] => pure ()
  | id :: rest => do
      discard id
      clear rest

def setHeader (f : FileHeader → FileHeader) : MachineM Unit :=
  onStorage (update fun st => { st with header := f st.header })

/-- A freelist page: the next trunk, the rest zeroed. -/
def freePageImage (next : Nat) : Page :=
  ⟨u32 next ++ zeros (pageSize - 4), by simp [pageSize]⟩

end Machine

namespace BufferPool

open Prog Machine

variable (inTxn : Bool)

/-- `_evict_one`. -/
def evictOne : MachineM Unit :=
  if inTxn then Machine.evictOne
  else do
    let s ← state
    match s.cache.find? fun e => e.2.pinCount = 0 with
    | some e => do
        if e.2.dirty then onStorage (Pager.writePage true e.1 e.2.data) else pure ()
        updateCache fun c => c.erase e.1
    | none => raise (.poolExhausted "every cached page is pinned; nothing to evict")

/-- The capacity check before a miss is filled. -/
def makeRoom : MachineM Unit := do
  let s ← state
  if s.capacity ≤ s.cache.length then evictOne inTxn else pure ()

/-- `get_page`. -/
def getPage (id : Nat) : MachineM Page := do
  let s ← state
  match s.cache.lookup id with
  | some entry => do
      updateCache fun c => c.moveToEnd id { entry with pinCount := entry.pinCount + 1 }
      pure entry.data
  | none => do
      makeRoom inTxn
      let data ← onStorage (Pager.readPage id)
      updateCache fun c => c ++ [(id, ⟨data, 1, false⟩)]
      pure data

/-- `get_page_for_write`. -/
def getPageForWrite (id : Nat) : MachineM Page := do
  if inTxn then willModify id else pure ()
  let page ← getPage inTxn id
  updateCache fun c => c.modify id fun f => { f with dirty := true }
  pure page

/-- `allocate_page`: pop the freelist, or grow the file with a zeroed dirty entry. -/
def allocatePage : MachineM Nat := do
  let s ← state
  if 0 < s.header.freelistCount then do
    let id := s.header.freelistTrunk
    let page ← getPageForWrite inTxn id
    setHeader fun h =>
      { h with freelistTrunk := fromBytes (page.bytes.take 4), freelistCount := h.freelistCount - 1 }
    unpin id
    pure id
  else do
    let id := s.header.pageCount + 1
    setHeader fun h => { h with pageCount := h.pageCount + 1 }
    updateCache fun c => c.put id ⟨Page.zero, 0, true⟩
    pure id

/-- `free_page`. -/
def freePage (id : Nat) : MachineM Unit := do
  let s ← state
  if id = 1 then raise (.valueError "Cannot free page 1 (header page)")
  else if s.header.pageCount < id then raise (.pageOutOfRange "Cannot free page (out of range)")
  else do
    discard id
    let _ ← getPageForWrite inTxn id
    let _ ← lift (toBytes4 s.header.freelistTrunk)
    mutate id (freePageImage s.header.freelistTrunk)
    unpin id
    setHeader fun h => { h with freelistTrunk := id, freelistCount := h.freelistCount + 1 }

end BufferPool

namespace Machine

/-! ## The pool of a transaction -/

def makeRoom : MachineM Unit := BufferPool.makeRoom true

def getPage (id : Nat) : MachineM Page := BufferPool.getPage true id

def getPageForWrite (id : Nat) : MachineM Page := BufferPool.getPageForWrite true id

def allocatePage : MachineM Nat := BufferPool.allocatePage true

def freePage (id : Nat) : MachineM Unit := BufferPool.freePage true id

/-! ## Runs -/

/-- The pool operations a transaction is made of, its own and those of the
readers that share the pool. -/
inductive Op where
  | getPage (id : Nat)
  | getPageForWrite (id : Nat)
  | mutate (id : Nat) (page : Page)
  | unpin (id : Nat)
  | evict
  | allocatePage
  | freePage (id : Nat)
  | bumpSchemaCookie

def Op.run : Op → MachineM Unit
  | .getPage id => Machine.getPage id >>= fun _ => pure ()
  | .getPageForWrite id => Machine.getPageForWrite id >>= fun _ => pure ()
  | .mutate id page => Machine.mutate id page
  | .unpin id => Machine.unpin id
  | .evict => Machine.evictOne
  | .allocatePage => Machine.allocatePage >>= fun _ => pure ()
  | .freePage id => Machine.freePage id
  | .bumpSchemaCookie => onStorage Pager.bumpSchemaCookie

/-- A run goes on after an operation that raised. -/
def runOps (ops : List Op) (s : Machine) : Machine :=
  ops.foldl (fun s op => op.run.exec s) s

end Machine

end QuillDb
