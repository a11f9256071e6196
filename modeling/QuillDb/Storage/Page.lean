/-
  Storage/Page.lean --- slotted pages, byte for byte.

  Source: `quilldb/storage/page.py`.

  A page does not store the lengths of its cells: they are packed against its end,
  in key order from the back, so that each ends where the one before it starts.
-/
import QuillDb.BTree.Cells
import QuillDb.Lib.Fallible
import QuillDb.Lib.Buffer

set_option autoImplicit false

namespace QuillDb

/-! ## Page types -/

namespace PageType

/-- `is_leaf`. -/
def isLeaf : PageType → Bool
  | leafTable => true
  | leafIndex => true
  | interiorTable => false
  | interiorIndex => false

/-- `header_size`. -/
def headerSize (pageType : PageType) : Nat :=
  if pageType.isLeaf then leafHeaderSize else interiorHeaderSize

/-- `PageType(data[header_offset])`, for the four values that there are. -/
def ofCode (code : UInt8) : Option PageType :=
  [leafIndex, leafTable, interiorIndex, interiorTable].find? fun t => t.code = code.toNat

theorem ofCode_code (t : PageType) : ofCode (UInt8.ofNat t.code) = some t := by
  cases t <;> rfl

end PageType

/-! ## Two-byte integers -/

/-- The two bytes of `n` reduced modulo `2 ^ 16`, most significant first. -/
def u16 (n : Nat) : Bytes := [UInt8.ofNat (n / 2 ^ 8), UInt8.ofNat n]

/-- `n.to_bytes(2, "big")`. -/
def toBytes2 (n : Nat) : Except DbError Bytes :=
  if n < 2 ^ 16 then .ok (u16 n) else .error (.overflowError "int too big to convert")

theorem fromBytes_u16 {n : Nat} (h : n < 2 ^ 16) : fromBytes (u16 n) = n := by
  simp only [fromBytes, u16, List.foldl_cons, List.foldl_nil, UInt8.toNat_ofNat']
  omega

theorem toBytes2_of_lt {n : Nat} (h : n < 2 ^ 16) : toBytes2 n = .ok (u16 n) := if_pos h

/-! ## Page bodies -/

namespace Slotted

/-- `PageBody`: the cells are in key order. -/
structure PageBody where
  pageType : PageType
  cells : List Bytes := []
  rightChild : Nat := 0
  headerOffset : Nat := 0
  deriving DecidableEq, Repr

namespace PageBody

/-- `used_bytes`. -/
def usedBytes (body : PageBody) : Nat :=
  body.headerOffset + body.pageType.headerSize + 2 * body.cells.length +
    (body.cells.map List.length).sum

end PageBody

/-! ## `parse_page` -/

/-- The pointer array: every pointer leads behind the array and into the page. -/
def readPointers (data : Bytes) (arrayEnd : Nat) : Nat → Nat → Except DbError (List Nat)
  | 0, _ => .ok []
  | n + 1, offset =>
      let decodedOffset := fromBytes (slice data offset 2)
      if ¬ (arrayEnd ≤ decodedOffset ∧ decodedOffset ≤ pageSize) then
        .error (.malformedCell "Corrupted")
      else do
        let offsets ← readPointers data arrayEnd n (offset + 2)
        return decodedOffset :: offsets

/-- The cells: the first ends at `stop`, each of the others where the one before it
starts. -/
def cutCells (data : Bytes) : Nat → List Nat → List Bytes
  | _, [] => []
  | stop, offset :: offsets => slice data offset (stop - offset) :: cutCells data offset offsets

/-- `parse_page`. -/
def parsePage (data : Bytes) (headerOffset : Nat) : Except DbError PageBody :=
  match data[headerOffset]? with
  | none => .error (.indexError "index out of range")
  | some code =>
      match PageType.ofCode code with
      | none => .error (.invalidPageType "Page type must be ...")
      | some pageType =>
          let ptrArrayStart := headerOffset + pageType.headerSize
          let cellCount := fromBytes (slice data (headerOffset + 3) 2)
          if pageSize < ptrArrayStart + 2 * cellCount then .error (.malformedCell "Corrupted")
          else do
            let offsets ← readPointers data (ptrArrayStart + 2 * cellCount) cellCount ptrArrayStart
            return { pageType := pageType
                     cells := cutCells data pageSize offsets
                     rightChild :=
                       if pageType.isLeaf then 0 else fromBytes (slice data (headerOffset + 8) 4)
                     headerOffset := headerOffset }

/-! ## `serialize_page` -/

/-- The loop over the cells: the buffer, the pointers and the last offset. -/
def writeCells : List Bytes → Nat → Bytes → Bytes × List Nat × Nat
  | [], curOffset, page => (page, [], curOffset)
  | cell :: cells, curOffset, page =>
      let offset := curOffset - cell.length
      let written := writeCells cells offset (Buffer.write page offset cell)
      (written.1, offset :: written.2.1, written.2.2)

/-- The loop over the pointers. -/
def writePointers : List Nat → Nat → Bytes → Except DbError Bytes
  | [], _, page => .ok page
  | ptr :: ptrs, cellPtrStart, page => do
      let bytes ← toBytes2 ptr
      writePointers ptrs (cellPtrStart + 2) (Buffer.write page cellPtrStart bytes)

/-- The header but for the start of the cell content: the type, the cell count, and
the right child of an interior page. -/
def writeHeader (body : PageBody) (page : Bytes) : Except DbError Bytes := do
  let page := Buffer.write page body.headerOffset [UInt8.ofNat body.pageType.code]
  let count ← toBytes2 body.cells.length
  let page := Buffer.write page (body.headerOffset + 3) count
  if body.pageType.isLeaf then return page
  else do
    let right ← toBytes4 body.rightChild
    return Buffer.write page (body.headerOffset + 8) right

/-- `serialize_page`. -/
def serializePage (body : PageBody) : Except DbError Bytes :=
  if pageSize < body.usedBytes then
    .error (.pageFull "The current page body exceeded the limit")
  else do
    let page ← writeHeader body (zeros pageSize)
    let written := writeCells body.cells pageSize page
    let page ← writePointers written.2.1 (body.headerOffset + body.pageType.headerSize) written.1
    let start ← toBytes2 written.2.2
    return Buffer.write page (body.headerOffset + 5) start

/-- `write_page_body`: the bytes before the header stay. -/
def writePageBody (raw : Bytes) (body : PageBody) : Except DbError Bytes :=
  if raw.length ≠ pageSize then
    .error (.valueError s!"raw buffer is {raw.length} bytes, expected {pageSize}")
  else do
    let serialized ← serializePage body
    return raw.take body.headerOffset ++ serialized.drop body.headerOffset

/-! ## What the loops write -/

section Loops

variable {data data' page : Bytes} {cells : List Bytes} {lo hi : Nat}

/-- Two buffers with the same bytes from `lo` on. -/
def SameFrom (lo : Nat) (data data' : Bytes) : Prop :=
  ∀ pos n, lo ≤ pos → slice data pos n = slice data' pos n

/-- Two buffers with the same bytes up to `hi`. -/
def SameUpTo (hi : Nat) (data data' : Bytes) : Prop :=
  ∀ pos n, pos + n ≤ hi → slice data pos n = slice data' pos n

theorem cutCells_congr (h : SameFrom lo data data') {stop : Nat} {offsets : List Nat}
    (hlo : ∀ offset ∈ offsets, lo ≤ offset) : cutCells data stop offsets = cutCells data' stop offsets := by
  induction offsets generalizing stop with
  | nil => rfl
  | cons offset offsets ih =>
      rw [cutCells, cutCells, h offset _ (hlo offset (List.mem_cons_self ..)),
        ih fun o ho => hlo o (List.mem_cons_of_mem _ ho)]

theorem readPointers_congr {arrayEnd n start : Nat} (h : SameFrom lo data data') (hlo : lo ≤ start) :
    readPointers data arrayEnd n start = readPointers data' arrayEnd n start := by
  induction n generalizing start with
  | zero => rfl
  | succ n ih =>
      rw [readPointers, readPointers, h start 2 hlo, ih (Nat.le_add_right_of_le hlo)]

/-- What `writeCells` leaves: cells packed down from `curOffset`, which `cutCells`
finds again, and nothing changed elsewhere. -/
theorem writeCells_spec {curOffset : Nat} (hroom : (cells.map List.length).sum ≤ curOffset)
    (hpage : curOffset ≤ page.length) :
    let written := writeCells cells curOffset page
    written.1.length = page.length ∧ written.2.1.length = cells.length ∧
      written.2.2 = curOffset - (cells.map List.length).sum ∧
      (∀ ptr ∈ written.2.1, written.2.2 ≤ ptr ∧ ptr ≤ curOffset) ∧
      cutCells written.1 curOffset written.2.1 = cells ∧
      SameUpTo written.2.2 written.1 page ∧ SameFrom curOffset written.1 page := by
  induction cells generalizing curOffset page with
  | nil =>
      exact ⟨rfl, rfl, rfl, fun _ h => (nomatch h), rfl, fun _ _ _ => rfl, fun _ _ _ => rfl⟩
  | cons cell cells ih =>
      rw [List.map_cons, List.sum_cons] at hroom
      have hwrite : curOffset - cell.length + cell.length ≤ page.length := by omega
      have hlength := Buffer.length_write hwrite
      obtain ⟨hlen, hcount, hlast, hptrs, hcut, hbelow, habove⟩ :=
        @ih (Buffer.write page (curOffset - cell.length) cell) (curOffset - cell.length) (by omega)
          (by omega)
      simp only [writeCells]
      generalize writeCells cells (curOffset - cell.length)
        (Buffer.write page (curOffset - cell.length) cell) = written
        at hlen hcount hlast hptrs hcut hbelow habove
      refine ⟨hlen.trans hlength, congrArg (· + 1) hcount, ?_, fun ptr hptr => ?_, ?_, ?_, ?_⟩
      · rw [hlast, List.map_cons, List.sum_cons]
        omega
      · rcases List.mem_cons.mp hptr with rfl | hptr
        · omega
        · have := hptrs ptr hptr
          omega
      · have hcell : slice written.1 (curOffset - cell.length)
            (curOffset - (curOffset - cell.length)) = cell := by
          have hsize : curOffset - (curOffset - cell.length) = cell.length := by omega
          rw [hsize, habove _ _ (Nat.le_refl _)]
          exact Buffer.read_write hwrite
        rw [cutCells, hcell, hcut]
      · intro pos n hpos
        rw [hbelow pos n hpos]
        exact Buffer.read_write_before (by omega) hwrite
      · intro pos n hpos
        rw [habove pos n (by omega)]
        exact Buffer.read_write_behind (by omega) hwrite

/-- What `writePointers` leaves: the pointers, and nothing changed elsewhere. -/
theorem writePointers_spec {ptrs : List Nat} {start : Nat} (hptrs : ∀ ptr ∈ ptrs, ptr < 2 ^ 16)
    (hpage : start + 2 * ptrs.length ≤ page.length) :
    ∃ page', writePointers ptrs start page = .ok page' ∧ page'.length = page.length ∧
      (∀ arrayEnd, (∀ ptr ∈ ptrs, arrayEnd ≤ ptr ∧ ptr ≤ pageSize) →
        readPointers page' arrayEnd ptrs.length start = .ok ptrs) ∧
      SameUpTo start page' page ∧ SameFrom (start + 2 * ptrs.length) page' page := by
  induction ptrs generalizing start page with
  | nil => exact ⟨page, rfl, rfl, fun _ _ => rfl, fun _ _ _ => rfl, fun _ _ _ => rfl⟩
  | cons ptr ptrs ih =>
      rw [List.length_cons] at hpage
      have hptr := hptrs ptr (List.mem_cons_self ..)
      have hwrite : start + (u16 ptr).length ≤ page.length := by
        show start + 2 ≤ page.length
        omega
      have hlength := Buffer.length_write hwrite
      obtain ⟨page', hok, hlen, hread, hbelow, habove⟩ :=
        @ih (Buffer.write page start (u16 ptr)) (start + 2)
          (fun p hp => hptrs p (List.mem_cons_of_mem _ hp)) (by omega)
      refine ⟨page', ?_, hlen.trans hlength, fun arrayEnd hbounds => ?_, ?_, ?_⟩
      · rw [writePointers, toBytes2_of_lt hptr]
        exact hok
      · have hslice : slice page' start 2 = u16 ptr := by
          rw [hbelow start 2 (Nat.le_refl _)]
          exact Buffer.read_write hwrite
        rw [List.length_cons, readPointers, hslice, fromBytes_u16 hptr,
          hread arrayEnd fun p hp => hbounds p (List.mem_cons_of_mem _ hp)]
        have hbound := hbounds ptr (List.mem_cons_self ..)
        simp only [hbound, and_self, not_true_eq_false, if_false]
        rfl
      · intro pos n hpos
        rw [hbelow pos n (by omega)]
        exact Buffer.read_write_before hpos hwrite
      · intro pos n hpos
        rw [List.length_cons] at hpos
        rw [habove pos n (by omega)]
        exact Buffer.read_write_behind (show start + 2 ≤ pos by omega) hwrite

end Loops

/-! ## Round trip -/

/-- A body that `serialize_page` can lay out: the header starts the page or follows the
file header, and only interior pages have a right child, of four bytes. -/
structure PageBody.Packable (body : PageBody) : Prop where
  offset : body.headerOffset = 0 ∨ body.headerOffset = fileHeaderSize
  rightChild : body.rightChild < 2 ^ 32
  leaf : body.pageType.isLeaf = true → body.rightChild = 0

section RoundTrip

variable {body : PageBody} {page data : Bytes}

theorem headerSize_cases (t : PageType) : t.isLeaf = true ∧ t.headerSize = 8 ∨
    t.isLeaf = false ∧ t.headerSize = 12 := by
  cases t
  · exact .inl ⟨rfl, rfl⟩
  · exact .inr ⟨rfl, rfl⟩
  · exact .inl ⟨rfl, rfl⟩
  · exact .inr ⟨rfl, rfl⟩

/-- What `writeHeader` leaves. -/
theorem writeHeader_spec (hcount : body.cells.length < 2 ^ 16) (hright : body.rightChild < 2 ^ 32)
    (hpage : body.headerOffset + body.pageType.headerSize ≤ page.length) :
    ∃ page', writeHeader body page = .ok page' ∧ page'.length = page.length ∧
      slice page' body.headerOffset 1 = [UInt8.ofNat body.pageType.code] ∧
      slice page' (body.headerOffset + 3) 2 = u16 body.cells.length ∧
      (body.pageType.isLeaf = false → slice page' (body.headerOffset + 8) 4 = u32 body.rightChild) := by
  have htype : body.headerOffset + [UInt8.ofNat body.pageType.code].length ≤ page.length := by
    show body.headerOffset + 1 ≤ page.length
    have := headerSize_cases body.pageType
    omega
  have hlength := Buffer.length_write htype
  have hcells : body.headerOffset + 3 + (u16 body.cells.length).length ≤
      (Buffer.write page body.headerOffset [UInt8.ofNat body.pageType.code]).length := by
    show body.headerOffset + 3 + 2 ≤ _
    have := headerSize_cases body.pageType
    omega
  have hlength' := Buffer.length_write hcells
  have hcode : slice (Buffer.write (Buffer.write page body.headerOffset
      [UInt8.ofNat body.pageType.code]) (body.headerOffset + 3) (u16 body.cells.length))
        body.headerOffset 1 = [UInt8.ofNat body.pageType.code] :=
    (Buffer.read_write_before (by omega) hcells).trans (Buffer.read_write htype)
  have hstored : slice (Buffer.write (Buffer.write page body.headerOffset
      [UInt8.ofNat body.pageType.code]) (body.headerOffset + 3) (u16 body.cells.length))
        (body.headerOffset + 3) 2 = u16 body.cells.length := Buffer.read_write hcells
  rw [writeHeader, toBytes2_of_lt hcount]
  rcases headerSize_cases body.pageType with ⟨hleaf, -⟩ | ⟨hleaf, hsize⟩
  · refine ⟨_, ?_, hlength'.trans hlength, hcode, hstored, fun h => absurd hleaf (by rw [h]; decide)⟩
    simp only [hleaf, if_true]
    rfl
  · have hwrite : body.headerOffset + 8 + (u32 body.rightChild).length ≤
        (Buffer.write (Buffer.write page body.headerOffset [UInt8.ofNat body.pageType.code])
          (body.headerOffset + 3) (u16 body.cells.length)).length := by
      show body.headerOffset + 8 + 4 ≤ _
      omega
    refine ⟨_, ?_, (Buffer.length_write hwrite).trans (hlength'.trans hlength), ?_, ?_,
      fun _ => Buffer.read_write hwrite⟩
    · simp only [hleaf, toBytes4_of_lt hright]
      rfl
    · exact (Buffer.read_write_before (by omega) hwrite).trans hcode
    · exact (Buffer.read_write_before (by omega) hwrite).trans hstored

theorem getElem?_of_slice {i : Nat} {b : UInt8} (h : slice data i 1 = [b]) : data[i]? = some b := by
  have hhead := congrArg (fun l : Bytes => l[0]?) h
  simp only [slice, List.getElem?_take, Nat.zero_lt_one, if_true, List.getElem?_drop, Nat.add_zero,
    List.getElem?_cons_zero] at hhead
  exact hhead

/-- Serializing and parsing. -/
theorem serializePage_spec (hbody : body.Packable) (hfits : body.usedBytes ≤ pageSize) :
    ∃ data, serializePage body = .ok data ∧ data.length = pageSize ∧
      parsePage data body.headerOffset = .ok body := by
  have hpageSize : pageSize = 4096 := rfl
  have hused : body.usedBytes = body.headerOffset + body.pageType.headerSize + 2 * body.cells.length +
      (body.cells.map List.length).sum := rfl
  have hsize := headerSize_cases body.pageType
  have hzeros : (zeros pageSize).length = pageSize := zeros_length _
  have hcount : body.cells.length < 2 ^ 16 := by omega
  obtain ⟨page₁, hok₁, hlen₁, hcode, hcells, hright⟩ :=
    @writeHeader_spec body (zeros pageSize) hcount hbody.rightChild (by omega)
  obtain ⟨hlen₂, hptrCount, hlast, hptrs, hcut, hbelow₂, -⟩ :=
    @writeCells_spec page₁ body.cells pageSize (by omega) (by omega)
  generalize hwritten : writeCells body.cells pageSize page₁ = written
    at hlen₂ hptrCount hlast hptrs hcut hbelow₂
  obtain ⟨page₂, ptrs, last⟩ := written
  simp only at hlen₂ hptrCount hlast hptrs hcut hbelow₂
  obtain ⟨page₃, hok₃, hlen₃, hread, hbelow₃, habove₃⟩ :=
    @writePointers_spec page₂ ptrs (body.headerOffset + body.pageType.headerSize)
      (fun ptr hptr => by have := hptrs ptr hptr; omega) (by omega)
  have hwrite : body.headerOffset + 5 + (u16 last).length ≤ page₃.length := by
    show body.headerOffset + 5 + 2 ≤ _
    omega
  have hbelow (pos n : Nat) (hpos : pos + n ≤ body.headerOffset + 5) :
      slice (Buffer.write page₃ (body.headerOffset + 5) (u16 last)) pos n = slice page₁ pos n :=
    (Buffer.read_write_before hpos hwrite).trans
      ((hbelow₃ pos n (by omega)).trans (hbelow₂ pos n (by omega)))
  have habove : SameFrom (body.headerOffset + 7)
      (Buffer.write page₃ (body.headerOffset + 5) (u16 last)) page₃ :=
    fun pos n hpos => Buffer.read_write_behind hpos hwrite
  refine ⟨Buffer.write page₃ (body.headerOffset + 5) (u16 last), ?_, ?_, ?_⟩
  · rw [serializePage, if_neg (Nat.not_lt.mpr hfits), hok₁]
    simp only [bind, Except.bind, hwritten, hok₃, toBytes2_of_lt (show last < 2 ^ 16 by omega)]
    rfl
  · rw [Buffer.length_write hwrite]
    omega
  · have hpointers := hread (body.headerOffset + body.pageType.headerSize + 2 * body.cells.length)
      fun ptr hptr => by
        have := hptrs ptr hptr
        omega
    rw [hptrCount] at hpointers
    have hlists : cutCells (Buffer.write page₃ (body.headerOffset + 5) (u16 last)) pageSize ptrs =
        body.cells := by
      rw [cutCells_congr habove fun ptr hptr => by
        have := hptrs ptr hptr
        omega]
      rw [← hcut]
      exact cutCells_congr habove₃ fun ptr hptr => by
        have := hptrs ptr hptr
        omega
    rw [parsePage, getElem?_of_slice ((hbelow _ 1 (by omega)).trans hcode)]
    simp only [PageType.ofCode_code]
    rw [(hbelow _ 2 (by omega)).trans hcells, fromBytes_u16 hcount, if_neg (by omega),
      readPointers_congr habove (by omega), hpointers]
    simp only [bind, Except.bind, hlists]
    rcases hsize with ⟨hleaf, -⟩ | ⟨hinterior, hheader⟩
    · rw [if_pos hleaf, ← hbody.leaf hleaf]
      rfl
    · have hchild : slice (Buffer.write page₃ (body.headerOffset + 5) (u16 last))
          (body.headerOffset + 8) 4 = u32 body.rightChild := by
        rw [habove _ _ (by omega), hbelow₃ _ _ (by omega), hbelow₂ _ _ (by omega)]
        exact hright hinterior
      rw [hchild, fromBytes_u32 hbody.rightChild, hinterior]
      rfl

theorem serializePage_full (hbody : body.Packable) :
    (∃ message, serializePage body = .error (.pageFull message)) ↔ pageSize < body.usedBytes := by
  constructor
  · rintro ⟨message, herror⟩
    by_contra hfits
    obtain ⟨data, hok, -⟩ := serializePage_spec hbody (Nat.not_lt.mp hfits)
    rw [hok] at herror
    cases herror
  · intro hfull
    exact ⟨_, by rw [serializePage, if_pos hfull]⟩

/-! ## Parsing past a prefix -/

theorem getElem?_eq_slice (data : Bytes) (i : Nat) : data[i]? = (slice data i 1)[0]? := by
  rw [slice, List.getElem?_take, if_pos Nat.zero_lt_one, List.getElem?_drop, Nat.add_zero]

theorem readPointers_bounds {data : Bytes} {arrayEnd n start : Nat} {offsets : List Nat}
    (h : readPointers data arrayEnd n start = .ok offsets) :
    offsets.length = n ∧ ∀ offset ∈ offsets, arrayEnd ≤ offset ∧ offset ≤ pageSize := by
  induction n generalizing start offsets with
  | zero =>
      cases h
      exact ⟨rfl, fun _ hmem => nomatch hmem⟩
  | succ n ih =>
      rw [readPointers] at h
      split at h
      · cases h
      · rename_i hbound
        obtain ⟨rest, hrest, hcons⟩ := Fallible.bind_eq_ok h
        cases hcons
        obtain ⟨hlen, hall⟩ := ih hrest
        refine ⟨congrArg (· + 1) hlen, fun offset hmem => ?_⟩
        rcases List.mem_cons.mp hmem with rfl | hmem
        · exact not_not.mp hbound
        · exact hall offset hmem

/-- `parse_page` does not look before the header. -/
theorem parsePage_congr {data data' : Bytes} {headerOffset : Nat} (h : SameFrom headerOffset data data') :
    parsePage data headerOffset = parsePage data' headerOffset := by
  have hbyte : data[headerOffset]? = data'[headerOffset]? := by
    rw [getElem?_eq_slice data, getElem?_eq_slice data', h headerOffset 1 (Nat.le_refl _)]
  rw [parsePage, parsePage, hbyte]
  rcases data'[headerOffset]? with _ | code
  · rfl
  · simp only
    rcases PageType.ofCode code with _ | t
    · rfl
    · simp only
      rw [h (headerOffset + 3) 2 (by omega), h (headerOffset + 8) 4 (by omega),
        readPointers_congr h (by omega)]
      split
      · rfl
      · rcases hread : readPointers data' _ _ _ with e | offsets
        · rfl
        · have hbounds := (readPointers_bounds hread).2
          simp only [bind, Except.bind]
          rw [cutCells_congr h fun offset hmem => by
            have := hbounds offset hmem
            omega]

/-- Splicing a body into a page. -/
theorem writePageBody_spec {raw : Bytes} (hbody : body.Packable) (hraw : raw.length = pageSize)
    (hfits : body.usedBytes ≤ pageSize) :
    ∃ raw', writePageBody raw body = .ok raw' ∧ raw'.length = pageSize ∧
      parsePage raw' body.headerOffset = .ok body := by
  obtain ⟨data, hok, hlen, hparse⟩ := serializePage_spec hbody hfits
  have hused : body.usedBytes = body.headerOffset + body.pageType.headerSize + 2 * body.cells.length +
      (body.cells.map List.length).sum := rfl
  have hfront : (raw.take body.headerOffset).length = body.headerOffset :=
    List.length_take_of_le (by omega)
  refine ⟨raw.take body.headerOffset ++ data.drop body.headerOffset, ?_, ?_, ?_⟩
  · rw [writePageBody, if_neg (not_not.mpr hraw), hok]
    rfl
  · rw [List.length_append, hfront, List.length_drop]
    omega
  · rw [← hparse]
    refine parsePage_congr fun pos n hpos => ?_
    rw [slice, slice, List.drop_append, List.drop_eq_nil_of_le (by omega), List.nil_append, hfront,
      List.drop_drop, Nat.add_sub_cancel' hpos]

theorem writePageBody_prefix {raw raw' : Bytes} (h : writePageBody raw body = .ok raw')
    (hoffset : body.headerOffset ≤ pageSize) :
    raw'.take body.headerOffset = raw.take body.headerOffset := by
  rw [writePageBody] at h
  split at h
  · cases h
  · rename_i hraw
    obtain ⟨data, -, hdata⟩ := Fallible.bind_eq_ok h
    cases hdata
    exact List.take_left' (List.length_take_of_le (by omega))

end RoundTrip

/-- A page holds what was serialized into it, at every fill level up to a full page, and
`write_page_body` keeps what is before the header. -/
theorem page_codec_round_trip (body : PageBody)
    (hoffset : body.headerOffset = 0 ∨ body.headerOffset = fileHeaderSize)
    (hright : body.rightChild < 2 ^ 32) (hleaf : body.pageType.isLeaf = true → body.rightChild = 0) :
    (body.usedBytes ≤ pageSize → ∃ data, serializePage body = .ok data ∧ data.length = pageSize ∧
      parsePage data body.headerOffset = .ok body) ∧
    (body.usedBytes ≤ pageSize → ∀ raw, raw.length = pageSize → ∃ raw', writePageBody raw body = .ok raw' ∧
      raw'.length = pageSize ∧ parsePage raw' body.headerOffset = .ok body) ∧
    (∀ raw raw', writePageBody raw body = .ok raw' →
      raw'.take body.headerOffset = raw.take body.headerOffset) ∧
    ((∃ message, serializePage body = .error (.pageFull message)) ↔ pageSize < body.usedBytes) := by
  have hbody : body.Packable := ⟨hoffset, hright, hleaf⟩
  have hheader : body.headerOffset ≤ pageSize := by
    rcases hoffset with h | h
    · omega
    · rw [h]
      decide
  exact ⟨serializePage_spec hbody, fun hfits _ hraw => writePageBody_spec hbody hraw hfits,
    fun _ _ h => writePageBody_prefix h hheader, serializePage_full hbody⟩

/-- An interior page that is full to the last byte, behind the file header. -/
def fullPage : PageBody where
  pageType := .interiorTable
  cells := [List.replicate 1000 1, [], List.replicate 2978 2]
  rightChild := 7
  headerOffset := 100

theorem page_codec_round_trip_full : fullPage.usedBytes = pageSize ∧
    ∃ data, serializePage fullPage = .ok data ∧ data.length = pageSize ∧
      parsePage data 100 = .ok fullPage := by
  have hused : fullPage.usedBytes = pageSize := by decide +kernel
  exact ⟨hused, (page_codec_round_trip fullPage (.inr rfl) (by decide) fun h => nomatch h).1
    (Nat.le_of_eq hused)⟩

end Slotted

end QuillDb
