/-
  BTree/PageStore.lean --- the pages the trees live on.

  Source: `allocate_page`/`free_page` of `quilldb/storage/bufferpool.py`,
  `quilldb/storage/overflow.py`, `parse_page`/`serialize_page` of
  `quilldb/storage/page.py`.

  The pool is the transparent store its callers see: pins, eviction and
  journalling do not show here.  A page is a decoded b-tree body or a link, the
  shape of overflow and freelist pages: a next pointer and content.
-/
import QuillDb.BTree.Cells
import QuillDb.Lib.Prog

set_option autoImplicit false

namespace QuillDb

inductive PageContent where
  | body (b : PageBody)
  | link (next : Nat) (content : Bytes)
  deriving DecidableEq, Repr

/-- `int.from_bytes(page[:4], "big")`: the type byte, two zero bytes and the
high byte of the cell count on a b-tree page. -/
def PageContent.firstWord : PageContent → Nat
  | .body b => b.pageType.code * 2 ^ 24 + b.cellSizes.length / 256
  | .link next _ => next

/-- What follows the next pointer of an overflow page. -/
def PageContent.content : PageContent → Bytes
  | .body _ => []
  | .link _ content => content

structure PageStore where
  pageCount : Nat
  freelistTrunk : Nat
  freelistCount : Nat
  pages : Nat → PageContent

abbrev StoreM : Type → Type := Prog DbError PageStore

namespace PageStore

open Prog

/-- Overwrite one page. -/
def set (s : PageStore) (id : Nat) (c : PageContent) : PageStore :=
  { s with pages := fun i => if i = id then c else s.pages i }

/-! ## Reading and writing -/

/-- `pool.get_page`. -/
def getPage (id : Nat) : StoreM PageContent := do
  let s ← state
  if 1 ≤ id ∧ id ≤ s.pageCount then return s.pages id
  else raise (.pageOutOfRange s!"page {id} out of range")

/-- `parse_page` of a fetched page. -/
def readBody (id : Nat) : StoreM PageBody := do
  match ← getPage id with
  | .body b => return b
  | .link _ _ => raise (.invalidPageType "Page type must be ...")

/-- `raw[:] = serialize_page(body)`. -/
def writeBody (id : Nat) (b : PageBody) : StoreM Unit := do
  raiseIf (pageSize < b.usedBytes) (.pageFull "The current page body exceeded the limit")
  let _ ← lift (toBytes4 b.rightChild)
  update (·.set id (.body b))

/-- Pin a page for writing and serialize a body into it. -/
def initBody (id : Nat) (b : PageBody) : StoreM Unit := do
  let _ ← getPage id
  writeBody id b

/-! ## Allocation -/

/-- `allocate_page`: the head of the freelist, or a new page at the end. -/
def allocatePage : StoreM Nat := do
  let s ← state
  if 0 < s.freelistCount then
    let page ← getPage s.freelistTrunk
    update fun s => { s with
      freelistTrunk := page.firstWord
      freelistCount := s.freelistCount - 1 }
    return s.freelistTrunk
  else
    update fun s => { s with pageCount := s.pageCount + 1 }.set (s.pageCount + 1) (.link 0 [])
    return s.pageCount + 1

/-- `free_page`: the page becomes the head of the freelist. -/
def freePage (id : Nat) : StoreM Unit := do
  raiseIf (id = 1) (.valueError "Cannot free page 1 (header page)")
  let s ← state
  raiseIf (s.pageCount < id) (.pageOutOfRange s!"Cannot free page {id} (out of range)")
  let _ ← getPage id
  let _ ← lift (toBytes4 s.freelistTrunk)
  update fun s => { s with
    freelistTrunk := id
    freelistCount := s.freelistCount + 1 }.set id (.link s.freelistTrunk [])

/-! ## Overflow chains -/

/-- `CONTENT_PER_PAGE`. -/
def contentPerPage : Nat := usableSize - 4

def allocatePages : Nat → StoreM (List Nat)
  | 0 => return []
  | n + 1 => do
      let id ← allocatePage
      let ids ← allocatePages n
      return id :: ids

/-- The second pass of `write_overflow_chain`: link and fill the pages. -/
def fillChain : List Nat → Bytes → StoreM Unit
  | [], _ => return ()
  | id :: ids, data => do
      let _ ← getPage id
      let _ ← lift (toBytes4 (ids.headD 0))
      update (·.set id (.link (ids.headD 0) (data.take contentPerPage)))
      fillChain ids (data.drop contentPerPage)

/-- How many overflow pages some spilled bytes take. -/
def chainLength (n : Nat) : Nat := (n + (contentPerPage - 1)) / contentPerPage

/-- `write_overflow_chain`. -/
def writeOverflowChain (data : Bytes) : StoreM Nat := do
  raiseIf (data = []) (.valueError "cannot write an overflow chain for empty data")
  let ids ← allocatePages (chainLength data.length)
  fillChain ids data
  return ids.headD 0

/-- The walk of `read_overflow_chain`; the visited set bounds it by the number
of pages. -/
def readChainFrom : Nat → List Nat → Nat → Nat → StoreM Bytes
  | 0, _, current, _ => raise (.overflowCycle s!"page {current} revisited -- overflow chain loops")
  | fuel + 1, visited, current, remaining =>
      if current = 0 then
        return zeros remaining
      else if current ∈ visited then
        raise (.overflowCycle s!"page {current} revisited -- overflow chain loops")
      else do
        let page ← getPage current
        let n := min contentPerPage remaining
        let chunk := (page.content ++ zeros n).take n
        let rest ← readChainFrom fuel (current :: visited) page.firstWord (remaining - n)
        return chunk ++ rest

/-- `read_overflow_chain`. -/
def readOverflowChain (first total : Nat) : StoreM Bytes := do
  let s ← state
  readChainFrom (s.pageCount + 2) [] first total

/-- The walk of `free_overflow_chain`. -/
def freeChainFrom : Nat → List Nat → Nat → StoreM Unit
  | 0, _, current => raise (.overflowCycle s!"page {current} revisited -- overflow chain loops")
  | fuel + 1, visited, current =>
      if current = 0 then
        return ()
      else if current ∈ visited then
        raise (.overflowCycle s!"page {current} revisited -- overflow chain loops")
      else do
        let page ← getPage current
        freePage current
        freeChainFrom fuel (current :: visited) page.firstWord

/-- `free_overflow_chain`. -/
def freeOverflowChain (first : Nat) : StoreM Unit := do
  let s ← state
  freeChainFrom (s.pageCount + 2) [] first

end PageStore

end QuillDb
