/-
  Storage/Pager.lean --- page access to the database file.

  Source: `quilldb/storage/pager.py`, and the directory-entry operations of
  `quilldb/txn/journal.py`.

  `Storage` is what outlives the buffer pool: the database file, the journal
  file beside it and the in-memory header.
-/
import QuillDb.Lib.Prog
import QuillDb.Storage.Header
import QuillDb.Txn.Journal

set_option autoImplicit false

namespace QuillDb

/-- The two files and the pager's in-memory header. -/
structure Storage where
  disk : Disk
  journal : Option Journal.File
  header : FileHeader

/-- A program over the files. -/
abbrev PagerM (α : Type) : Type := Prog DbError Storage α

/-- The first 100 bytes of a file. -/
def DbFile.headerBytes (f : DbFile) : Bytes :=
  match f with
  | [] => []
  | page1 :: _ => page1.bytes.take fileHeaderSize

namespace Pager

open Prog

/-- `_bootstrap_page1`: a file header and an empty leaf table page after it. -/
def bootstrapPage1 : Page :=
  Page.zero.overwrite (FileHeader.layout {} ++ [0x0d, 0, 0, 0, 0, 0x10, 0, 0])

/-- `Pager.open`: the header must be valid and the file hold the pages it claims.
A file that is not a whole number of pages does not arise here. -/
def openFile (f : DbFile) : Except DbError FileHeader :=
  match FileHeader.fromBytes f.headerBytes with
  | .error e => .error e
  | .ok header =>
      if f.length < header.pageCount then
        .error (.corruptDatabase "header claims more pages than the file holds")
      else .ok header

/-- `read_page`: a page past the end of the file reads as zeros. -/
def readPage (id : Nat) : PagerM Page := do
  let s ← state
  if id < 1 ∨ s.header.pageCount < id then raise (.pageOutOfRange "")
  else pure (s.disk.file.page id)

/-- `write_page`.  `barrierPassed` is the transaction's flag the assertion reads. -/
def writePage (barrierPassed : Bool) (id : Nat) (page : Page) : PagerM Unit := do
  if ¬ barrierPassed then
    raise (.assertionError "database write before the journal was made valid")
  else
    let s ← state
    if id < 1 ∨ s.header.pageCount < id then raise (.pageOutOfRange "page out of range")
    else update fun s => { s with disk := s.disk.issue (.write id page) }

/-- `restore_page`: no bound from the header, since replay precedes truncation. -/
def restorePage (id : Nat) (data : Bytes) : PagerM Unit :=
  if id < 1 then raise (.pageOutOfRange "page out of range")
  else if h : data.length = pageSize then
    update fun s => { s with disk := s.disk.issue (.write id ⟨data, h⟩) }
  else raise (.valueError "data length is not PAGE_SIZE")

/-- `truncate`. -/
def truncate (pageCount : Nat) : PagerM Unit :=
  if pageCount < 1 then raise (.valueError "page_count must be >= 1 (since 1 is for header)")
  else update fun s =>
    { s with
      disk := s.disk.issue (.truncate pageCount)
      header := { s.header with pageCount := pageCount, freelistCount := 0, freelistTrunk := 0 } }

/-- `sync`. -/
def sync : PagerM Unit := update fun s => { s with disk := s.disk.sync }

/-- `reload_header`. -/
def reloadHeader : PagerM Unit := do
  let s ← state
  let header ← lift (FileHeader.fromBytes s.disk.file.headerBytes)
  update fun s => { s with header := header }

/-- `bump_schema_cookie`. -/
def bumpSchemaCookie : PagerM Unit :=
  update fun s =>
    { s with header := { s.header with schemaCookie := (s.header.schemaCookie + 1) % 2 ^ 32 } }

end Pager

/-! ## The journal file -/

namespace JournalFile

open Prog

/-- `open("x+b")` and the header write of `begin`. -/
def begin_ (nonce pageCountBefore : Nat) : PagerM Unit := do
  let s ← state
  match s.journal.filter fun f => ¬ f.unlinked with
  | some _ => raise (.fileExists "journal already exists")
  | none => do
      update fun s => { s with journal := some Journal.File.create }
      let _ ← lift (toBytes4 pageCountBefore)
      update fun s =>
        { s with journal := s.journal.map fun f =>
            f.write ⟨0, Journal.initialHeader nonce pageCountBefore⟩ }

/-- One record at the end of the file. -/
def append (nonce id : Nat) (page : Page) : PagerM Unit := do
  let _ ← lift (toBytes4 id)
  update fun s =>
    { s with journal := s.journal.map fun f =>
        f.write ⟨f.content.length, Journal.record nonce id page⟩ }

/-- The 12-byte write that makes the journal valid. -/
def writeValidity (nrec : Nat) : PagerM Unit := do
  let _ ← lift (toBytes4 nrec)
  update fun s =>
    { s with journal := s.journal.map fun f =>
        f.write ⟨0, Journal.validity journalMagic nrec⟩ }

def fsync : PagerM Unit :=
  update fun s => { s with journal := s.journal.map Journal.File.fsync }

def fsyncDirectory : PagerM Unit :=
  update fun s => { s with journal := s.journal.map Journal.File.syncName }

/-- `unlink`. -/
def delete : PagerM Unit :=
  update fun s => { s with journal := s.journal.map Journal.File.unlink }

/-- The bytes the open journal file holds. -/
def bytes (s : Storage) : Bytes :=
  match s.journal with
  | none => []
  | some f => f.content

/-- The page restorations of `replay`, and the exception that ends them, if any. -/
def replaySteps (j : Bytes) : List (PagerM Unit) :=
  let r := Journal.replayList j
  (r.1.map fun r => Pager.restorePage r.1 r.2) ++
    match r.2 with
    | none => []
    | some e => [raise e]

/-- `replay`. -/
def replay : PagerM Unit := do
  let s ← state
  seq (replaySteps (bytes s))

end JournalFile

end QuillDb
