/-
  Storage/Header.lean --- the 100-byte file header at the start of page 1.

  Source: `quilldb/storage/header.py`.

  `toBytes` lays the fields out in offset order; the source assigns the same
  bytes at the same offsets of a zero-filled buffer.  `fromBytes` parses and
  validates, and the round trip holds for every header that `toBytes` accepts
  and `checkSupported` lets through.
-/
import QuillDb.Basic

set_option autoImplicit false

namespace QuillDb

/-- `FileHeader`.  The defaults describe a freshly created, empty database. -/
structure FileHeader where
  pageSize : Nat := 4096
  writeVersion : Nat := 1
  readVersion : Nat := 1
  reservedSpace : Nat := 0
  changeCounter : Nat := 0
  pageCount : Nat := 1
  freelistTrunk : Nat := 0
  freelistCount : Nat := 0
  schemaCookie : Nat := 0
  schemaFormat : Nat := 4
  defaultCacheSize : Nat := 0
  largestRootPage : Nat := 0
  textEncoding : Nat := 1
  userVersion : Nat := 0
  incrementalVacuum : Nat := 0
  applicationId : Nat := 0
  versionValidFor : Nat := 0
  sqliteVersion : Nat := 3045000
  deriving DecidableEq, Repr, Inhabited

namespace FileHeader

/-- `usable_size`. -/
def usableSize (h : FileHeader) : Nat := h.pageSize - h.reservedSpace

/-- The fields `to_bytes` writes as four bytes each, in the source's order. -/
def words (h : FileHeader) : List Nat :=
  [h.changeCounter, h.pageCount, h.freelistTrunk, h.freelistCount, h.schemaCookie,
   h.schemaFormat, h.defaultCacheSize, h.largestRootPage, h.textEncoding,
   h.userVersion, h.incrementalVacuum, h.applicationId, h.versionValidFor,
   h.sqliteVersion]

/-- `encoded_page_size`: 65536 does not fit two bytes and is written as 1. -/
def encodedPageSize (h : FileHeader) : Nat := if h.pageSize = 65536 then 1 else h.pageSize

/-- The bytes of a header whose fields all fit. -/
def layout (h : FileHeader) : Bytes :=
  List.flatten [magic,
    [UInt8.ofNat (h.encodedPageSize / 2 ^ 8), UInt8.ofNat h.encodedPageSize,
      UInt8.ofNat h.writeVersion, UInt8.ofNat h.readVersion, UInt8.ofNat h.reservedSpace],
    [64, 32, 32],
    u32 h.changeCounter, u32 h.pageCount, u32 h.freelistTrunk, u32 h.freelistCount,
    u32 h.schemaCookie, u32 h.schemaFormat, u32 h.defaultCacheSize, u32 h.largestRootPage,
    u32 h.textEncoding, u32 h.userVersion, u32 h.incrementalVacuum, u32 h.applicationId,
    List.replicate 20 0,
    u32 h.versionValidFor, u32 h.sqliteVersion]

/-- Every field fits the bytes `to_bytes` gives it. -/
def Fits (h : FileHeader) : Prop :=
  (h.pageSize = 65536 ∨ h.pageSize < 2 ^ 16) ∧ h.writeVersion < 256 ∧ h.readVersion < 256 ∧
    h.reservedSpace < 256 ∧ ∀ w ∈ h.words, w < 2 ^ 32

instance (h : FileHeader) : Decidable h.Fits := by unfold Fits; infer_instance

/-- `to_bytes`: exactly 100 bytes, or `OverflowError` for a field too large. -/
def toBytes (h : FileHeader) : Except DbError Bytes :=
  if h.Fits then .ok h.layout else .error (.overflowError "int too big to convert")

/-- `check_supported`: refuse what is valid SQLite but outside quilldb's subset. -/
def checkSupported (h : FileHeader) : Except DbError Unit :=
  if h.pageSize ≠ QuillDb.pageSize then .error (.invalidHeader "PAGE SIZE must be 4096")
  else if h.textEncoding ≠ 1 then
    .error (.invalidHeader "Text encoding should be UTF8 which value is 1")
  else if h.readVersion = 2 ∨ h.writeVersion = 2 then
    .error (.invalidHeader "Not support reading combine the WAL mode")
  else if h.reservedSpace ≠ 0 then .error (.invalidHeader "Reserved space should be zero")
  else if h.largestRootPage ≠ 0 ∨ h.incrementalVacuum ≠ 0 then
    .error (.invalidHeader "Not supported yet")
  else if h.schemaFormat ≠ 4 then
    .error (.invalidHeader "Should be 4, where Sqlite version >= 3.3.0")
  else .ok ()

/-- `page_size & (page_size - 1)` is zero exactly on powers of two. -/
def badPageSize (pageSize : Nat) : Bool :=
  pageSize < 512 || pageSize &&& (pageSize - 1) != 0

/-- The fields at their offsets, before validation. -/
def parse (data : Bytes) : FileHeader :=
  let u8 (off : Nat) : Nat := QuillDb.fromBytes (slice data off 1)
  let u32At (off : Nat) : Nat := QuillDb.fromBytes (slice data off 4)
  let rawPageSize := QuillDb.fromBytes (slice data 16 2)
  { pageSize := if rawPageSize = 1 then 65536 else rawPageSize
    writeVersion := u8 18
    readVersion := u8 19
    reservedSpace := u8 20
    changeCounter := u32At 24
    pageCount := u32At 28
    freelistTrunk := u32At 32
    freelistCount := u32At 36
    schemaCookie := u32At 40
    schemaFormat := u32At 44
    defaultCacheSize := u32At 48
    largestRootPage := u32At 52
    textEncoding := u32At 56
    userVersion := u32At 60
    incrementalVacuum := u32At 64
    applicationId := u32At 68
    versionValidFor := u32At 92
    sqliteVersion := u32At 96 }

/-- `from_bytes`: parse and validate. -/
def fromBytes (data : Bytes) : Except DbError FileHeader :=
  if data.length < fileHeaderSize then
    .error (.invalidHeader "buffer shorter than the 100-byte header")
  else if slice data 0 16 ≠ magic then
    .error (.invalidHeader "not a SQLite database (bad magic)")
  else
    let h := parse data
    if badPageSize h.pageSize then .error (.invalidHeader "illegal page size")
    else if h.pageCount = 0 then .error (.invalidHeader "in-header database size is zero")
    else if slice data 21 3 ≠ [64, 32, 32] then
      .error (.invalidHeader "payload fractions are not 64/32/32")
    else if h.usableSize < 480 then
      .error (.invalidHeader "usable size below the 480-byte minimum")
    else
      match h.checkSupported with
      | .error e => .error e
      | .ok () => .ok h

/-! ## Round trip -/

/-- A header quilldb works with: it fits its bytes and passes `from_bytes`'s checks. -/
structure Valid (h : FileHeader) : Prop where
  fits : h.Fits
  pageCount_pos : h.pageCount ≠ 0
  supported : h.checkSupported = .ok ()

/-- The header of a freshly created database. -/
theorem default_valid : Valid {} := ⟨by decide, by decide, rfl⟩

theorem layout_length (h : FileHeader) : h.layout.length = 100 := rfl

theorem toBytes_eq_ok {h : FileHeader} {b : Bytes} (hb : h.toBytes = .ok b) :
    h.Fits ∧ b = h.layout := by
  unfold toBytes at hb
  split at hb
  · exact ⟨‹_›, (Except.ok.inj hb).symm⟩
  · cases hb

theorem pageSize_of_checkSupported {h : FileHeader} (hs : h.checkSupported = .ok ()) :
    h.pageSize = 4096 ∧ h.reservedSpace = 0 := by
  unfold checkSupported at hs
  split_ifs at hs with h₁ h₂ h₃ h₄ h₅ h₆
  exact ⟨not_not.mp h₁, not_not.mp h₄⟩

theorem fromBytes_byte {n : Nat} (h : n < 256) : QuillDb.fromBytes [UInt8.ofNat n] = n := by
  simp only [QuillDb.fromBytes, List.foldl_cons, List.foldl_nil, UInt8.toNat_ofNat']
  omega

theorem fromBytes_u16 {n : Nat} (h : n < 2 ^ 16) :
    QuillDb.fromBytes [UInt8.ofNat (n / 2 ^ 8), UInt8.ofNat n] = n := by
  simp only [QuillDb.fromBytes, List.foldl_cons, List.foldl_nil, UInt8.toNat_ofNat']
  omega

/-- Where `layout` puts each one-byte field and the page size. -/
theorem slice_layout_bytes (h : FileHeader) (rest : Bytes) :
    slice (h.layout ++ rest) 18 1 = [UInt8.ofNat h.writeVersion] ∧
    slice (h.layout ++ rest) 19 1 = [UInt8.ofNat h.readVersion] ∧
    slice (h.layout ++ rest) 20 1 = [UInt8.ofNat h.reservedSpace] :=
  ⟨rfl, rfl, rfl⟩

/-- Where `layout` puts each four-byte field. -/
theorem slice_layout_words (h : FileHeader) (rest : Bytes) :
    [24, 28, 32, 36, 40, 44, 48, 52, 56, 60, 64, 68, 92, 96].map
      (fun off => slice (h.layout ++ rest) off 4) = h.words.map u32 := rfl

theorem slice_layout_pageSize {h : FileHeader} (hp : h.pageSize = 4096) (rest : Bytes) :
    slice (h.layout ++ rest) 16 2 = [UInt8.ofNat (4096 / 2 ^ 8), UInt8.ofNat 4096] := by
  have hraw : slice (h.layout ++ rest) 16 2 =
      [UInt8.ofNat (h.encodedPageSize / 2 ^ 8), UInt8.ofNat h.encodedPageSize] := rfl
  rw [hraw, encodedPageSize, hp, if_neg (by decide)]

/-- Parsing the bytes of a header gives its fields back, whatever follows them. -/
theorem parse_layout {h : FileHeader} (hf : h.Fits) (hp : h.pageSize = 4096) (rest : Bytes) :
    parse (h.layout ++ rest) = h := by
  obtain ⟨-, hw, hr, hs, hwords⟩ := hf
  obtain ⟨h18, h19, h20⟩ := slice_layout_bytes h rest
  have hslices := slice_layout_words h rest
  simp only [words, List.map_cons, List.map_nil, List.cons.injEq, and_true] at hslices
  obtain ⟨s0, s1, s2, s3, s4, s5, s6, s7, s8, s9, s10, s11, s12, s13⟩ := hslices
  have hword : ∀ w ∈ h.words, QuillDb.fromBytes (u32 w) = w :=
    fun w hmem => fromBytes_u32 (hwords w hmem)
  simp only [words, List.mem_cons, List.not_mem_nil, or_false, forall_eq_or_imp,
    forall_eq] at hword
  obtain ⟨h0, h1, h2, h3, h4, h5, h6, h7, h8, h9, h10, h11, h12, h13⟩ := hword
  have hsize : QuillDb.fromBytes [UInt8.ofNat (4096 / 2 ^ 8), UInt8.ofNat 4096] = 4096 :=
    fromBytes_u16 (by omega)
  simp only [parse, slice_layout_pageSize hp, hsize, h18, h19, h20, fromBytes_byte hw,
    fromBytes_byte hr, fromBytes_byte hs, s0, s1, s2, s3, s4, s5, s6, s7, s8, s9, s10, s11,
    s12, s13, h0, h1, h2, h3, h4, h5, h6, h7, h8, h9, h10, h11, h12, h13]
  rw [if_neg (by decide), ← hp]

/-- `from_bytes` accepts what `to_bytes` wrote. -/
theorem fromBytes_layout {h : FileHeader} (hv : h.Valid) (rest : Bytes) :
    fromBytes (h.layout ++ rest) = .ok h := by
  obtain ⟨hps, hrs⟩ := pageSize_of_checkSupported hv.supported
  have hlen : ¬ (h.layout ++ rest).length < fileHeaderSize := by
    simp [layout_length, fileHeaderSize]
  have hmagic : slice (h.layout ++ rest) 0 16 = magic := rfl
  have hfrac : slice (h.layout ++ rest) 21 3 = [64, 32, 32] := rfl
  unfold fromBytes
  rw [if_neg hlen, if_neg (not_not.mpr hmagic)]
  simp only [parse_layout hv.fits hps]
  rw [if_neg (by rw [hps]; decide), if_neg hv.pageCount_pos, if_neg (not_not.mpr hfrac),
    if_neg (by simp [usableSize, hps, hrs]), hv.supported]

/-- What `from_bytes` accepts has a nonzero page count and is supported. -/
theorem fromBytes_ok {data : Bytes} {h : FileHeader} (hd : fromBytes data = .ok h) :
    h = parse data ∧ h.pageCount ≠ 0 ∧ h.checkSupported = .ok () := by
  unfold fromBytes at hd
  simp only at hd
  split_ifs at hd with h₁ h₂ h₃ h₄ h₅ h₆
  split at hd
  · cases hd
  · rename_i hsup
    obtain rfl := Except.ok.inj hd
    exact ⟨rfl, h₄, hsup⟩

end FileHeader

end QuillDb
