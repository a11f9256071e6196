/-
  Txn/Journal.lean --- the rollback journal, byte for byte.

  Source: `quilldb/txn/journal.py`.

  Layout: a 512-byte header, then records of 4 + 4096 + 4 bytes.  `begin` writes
  the header with magic and record count zero; `commit_barrier` fills both in
  with one 12-byte write.  `replay` trusts nothing before that.
-/
import QuillDb.Storage.Disk

set_option autoImplicit false

namespace QuillDb.Journal

/-! ## The format -/

/-- Size of one record: page number, page image, checksum. -/
def recordSize : Nat := 4 + pageSize + 4

/-- `range(PAGE_SIZE - 200, -1, -200)`. -/
def sampled : List Nat := (List.range 20).map fun k => pageSize - 200 - 200 * k

/-- `accumulator += page[i]`: `IndexError` when the byte is missing. -/
def addSample (page : Bytes) (accumulator i : Nat) : Except DbError Nat :=
  match page[i]? with
  | some b => .ok (accumulator + b.toNat)
  | none => .error (.indexError "index out of range")

/-- `journal_checksum`. -/
def checksum (page : Bytes) (nonce : Nat) : Except DbError Nat :=
  (sampled.foldlM (addSample page) nonce).map (· % 2 ^ 32)

/-- The checksum of a whole page, where no sampled byte is missing. -/
def pageChecksum (page : Page) (nonce : Nat) : Nat :=
  (sampled.foldl (fun acc i => acc + (page.bytes.getD i 0).toNat) nonce) % 2 ^ 32

/-- Bytes 0 to 11 of the header: magic and record count. -/
def validity (mark : Bytes) (nrec : Nat) : Bytes := mark ++ u32 nrec

/-- Bytes 12 to 511 of the header. -/
def headerBody (nonce pageCountBefore : Nat) : Bytes :=
  u32 nonce ++ (u32 pageCountBefore ++ (u32 sectorSize ++ (u32 pageSize ++
    zeros (sectorSize - 28))))

/-- The header `begin` writes: magic and record count are withheld. -/
def initialHeader (nonce pageCountBefore : Nat) : Bytes :=
  zeros 12 ++ headerBody nonce pageCountBefore

/-- One record, as `record_original` appends it. -/
def record (nonce : Nat) (id : Nat) (page : Page) : Bytes :=
  u32 id ++ (page.bytes ++ u32 (pageChecksum page nonce))

/-! ## The file -/

/-- One `write` to the journal file. -/
structure Write where
  off : Nat
  data : Bytes

/-- Writing at an offset; a gap before it reads as zeros. -/
def Write.apply (f : Bytes) (w : Write) : Bytes :=
  f.take w.off ++ (zeros (w.off - f.length) ++
    (w.data ++ f.drop (w.off + w.data.length)))

/-- Both ends of the write lie in one sector. -/
def Write.InOneSector (w : Write) : Prop :=
  w.off / sectorSize = (w.off + w.data.length - 1) / sectorSize

instance (w : Write) : Decidable w.InOneSector := by unfold Write.InOneSector; infer_instance

/-- The parts of a write a crash keeps or loses: the whole of it inside one
sector, any of its bytes otherwise. -/
def Write.pieces (w : Write) : List Write :=
  if w.InOneSector then [w] else w.data.mapIdx fun i b => ⟨w.off + i, [b]⟩

/-- A journal file: content as of its last fsync, writes since then, whether its
directory entry was synced, and whether it was unlinked since. -/
structure File where
  synced : Bytes
  pending : List Write
  nameSynced : Bool
  unlinked : Bool

namespace File

/-- `open("x+b")`. -/
def create : File := ⟨[], [], false, false⟩

def content (f : File) : Bytes := f.pending.foldl Write.apply f.synced

def write (f : File) (w : Write) : File := { f with pending := f.pending ++ [w] }

/-- `os.fsync` of the file. -/
def fsync (f : File) : File := { f with synced := f.content, pending := [] }

/-- `os.fsync` of the directory. -/
def syncName (f : File) : File := { f with nameSynced := true }

def unlink (f : File) : File := { f with unlinked := true }

/-- What a crash leaves under the journal's name.  The name survives for sure
once the directory was synced and the file not unlinked since. -/
def CrashImage (f : File) : Option Bytes → Prop
  | none => f.nameSynced = false ∨ f.unlinked = true
  | some j => ∃ kept : List Write, kept.Subperm (f.pending.flatMap Write.pieces) ∧
      j = kept.foldl Write.apply f.synced

@[simp] theorem content_fsync (f : File) : f.fsync.content = f.content := rfl

@[simp] theorem content_write (f : File) (w : Write) :
    (f.write w).content = w.apply f.content := by
  simp [content, write]

end File

/-! ## Reading it back -/

/-- `is_hot`: magic present and at least one record announced. -/
def isHot (j : Bytes) : Bool := slice j 0 8 = journalMagic && 0 < fromBytes (slice j 8 4)

/-- `page_count_before`. -/
def pageCountBefore (j : Bytes) : Nat := fromBytes (slice j 16 4)

/-- The page images `replay` restores from record `i` on, and the exception that
ends the loop early, if any.  A wrong checksum ends it without one. -/
def replayFrom (j : Bytes) (nonce : Nat) : Nat → Nat → List (Nat × Bytes) × Option DbError
  | _, 0 => ([], none)
  | i, n + 1 =>
      let recordData := slice j (sectorSize + i * recordSize) recordSize
      let pageId := fromBytes (slice recordData 0 4)
      let data := slice recordData 4 pageSize
      let storedChecksum := fromBytes (slice recordData (4 + pageSize) 4)
      match checksum data nonce with
      | .error e => ([], some e)
      | .ok sum =>
          if sum ≠ storedChecksum then ([], none)
          else
            let rest := replayFrom j nonce (i + 1) n
            ((pageId, data) :: rest.1, rest.2)

/-- What `replay` restores. -/
def replayList (j : Bytes) : List (Nat × Bytes) × Option DbError :=
  if slice j 0 8 ≠ journalMagic then ([], none)
  else
    let nrec := fromBytes (slice j 8 4)
    if nrec = 0 then ([], none)
    else replayFrom j (fromBytes (slice j 12 4)) 0 nrec

/-! ## Round trip -/

theorem foldlM_addSample (page : Page) (is : List Nat) (acc : Nat)
    (hlt : ∀ i ∈ is, i < pageSize) :
    is.foldlM (addSample page.bytes) acc =
      .ok (is.foldl (fun acc i => acc + (page.bytes.getD i 0).toNat) acc) := by
  induction is generalizing acc with
  | nil => rfl
  | cons i is ih =>
      have hi : i < page.bytes.length := page.length_eq ▸ hlt i (by simp)
      have hstep : addSample page.bytes acc i = .ok (acc + (page.bytes.getD i 0).toNat) := by
        rw [addSample, List.getElem?_eq_getElem hi, List.getD_eq_getElem _ _ hi]
      rw [List.foldlM_cons, hstep]
      exact ih _ fun k hk => hlt k (by simp [hk])

theorem checksum_page (page : Page) (nonce : Nat) :
    checksum page.bytes nonce = .ok (pageChecksum page nonce) := by
  have hlt : ∀ i ∈ sampled, i < pageSize := by
    intro i hi
    simp only [sampled, List.mem_map, pageSize] at hi ⊢
    obtain ⟨k, -, rfl⟩ := hi
    omega
  rw [checksum, foldlM_addSample page sampled nonce hlt]
  rfl

@[simp] theorem headerBody_length (nonce n : Nat) : (headerBody nonce n).length = 500 := by
  simp only [headerBody, List.length_append, u32_length, zeros_length, sectorSize]

@[simp] theorem record_length (nonce id : Nat) (page : Page) :
    (record nonce id page).length = recordSize := by
  simp [record, page.length_eq, recordSize]; omega

/-- The bytes of a journal: header and records. -/
def layout (mark : Bytes) (nrec nonce n : Nat) (records : List (Nat × Page)) : Bytes :=
  validity mark nrec ++ (headerBody nonce n ++
    records.flatMap fun r => record nonce r.1 r.2)

section Layout

variable {mark : Bytes} {nrec nonce n : Nat} {records : List (Nat × Page)}

variable (nrec nonce n records) in
theorem slice_validity (hmark : mark.length = 8) :
    slice (layout mark nrec nonce n records) 0 8 = mark ∧
    slice (layout mark nrec nonce n records) 8 4 = u32 nrec := by
  constructor
  · rw [layout, validity, List.append_assoc, slice_append_left (by omega)]
    rw [slice, List.drop_zero, ← hmark, List.take_length]
  · rw [layout, validity, List.append_assoc, slice_append_right hmark.symm]
    rfl

theorem slice_body (hmark : mark.length = 8) {off k : Nat} (hoff : 12 ≤ off)
    (hk : off + k ≤ 512) :
    slice (layout mark nrec nonce n records) off k = slice (headerBody nonce n) (off - 12) k := by
  have hlen : (validity mark nrec).length = 12 := by simp [validity, hmark]
  have hdrop : slice (layout mark nrec nonce n records) off k =
      slice (headerBody nonce n ++ records.flatMap fun r => record nonce r.1 r.2) (off - 12) k := by
    unfold slice layout
    rw [List.drop_append, hlen, List.drop_eq_nil_of_le (by omega), List.nil_append]
  rw [hdrop, slice_append_left (by rw [headerBody_length]; omega)]

theorem slice_nonce (hmark : mark.length = 8) :
    slice (layout mark nrec nonce n records) 12 4 = u32 nonce := by
  rw [slice_body hmark (by omega) (by omega)]
  rfl

theorem slice_pageCount (hmark : mark.length = 8) :
    slice (layout mark nrec nonce n records) 16 4 = u32 n := by
  rw [slice_body hmark (by omega) (by omega)]
  rfl

/-- The bytes of record `i` are where `replay` looks for them. -/
theorem slice_record (hmark : mark.length = 8) {i : Nat} (hi : i < records.length) :
    slice (layout mark nrec nonce n records) (sectorSize + i * recordSize) recordSize =
      record nonce (records[i]).1 (records[i]).2 := by
  have hlen : (validity mark nrec ++ headerBody nonce n).length = sectorSize := by
    simp [validity, hmark, sectorSize]
  have hskip : ∀ (rs : List (Nat × Page)) (k : Nat) (hk : k < rs.length),
      slice (rs.flatMap fun r => record nonce r.1 r.2) (k * recordSize) recordSize =
        record nonce (rs[k]).1 (rs[k]).2 := by
    intro rs
    induction rs with
    | nil => intro k hk; simp at hk
    | cons r rs ih =>
        intro k hk
        cases k with
        | zero =>
            rw [List.flatMap_cons, slice_append_left (by simp)]
            simp [slice, List.take_of_length_le]
        | succ k =>
            have hlt : k < rs.length := by simpa using hk
            rw [List.getElem_cons_succ, ← ih k hlt, List.flatMap_cons]
            unfold slice
            rw [List.drop_append, List.drop_eq_nil_of_le (by simp; ring_nf; omega),
              List.nil_append, record_length, Nat.succ_mul, Nat.add_sub_cancel]
  rw [layout, ← List.append_assoc]
  unfold slice
  rw [List.drop_append, hlen, List.drop_eq_nil_of_le (by omega), List.nil_append,
    Nat.add_sub_cancel_left]
  exact hskip records i hi

variable (nonce) in
theorem slice_record_parts (id : Nat) (page : Page) :
    slice (record nonce id page) 0 4 = u32 id ∧
    slice (record nonce id page) 4 pageSize = page.bytes ∧
    slice (record nonce id page) (4 + pageSize) 4 = u32 (pageChecksum page nonce) := by
  refine ⟨?_, ?_, ?_⟩
  · rw [record, slice_append_left (by simp)]; rfl
  · rw [record, slice_append_right (u32_length id).symm, ← page.length_eq, List.take_left]
  · have hsplit : record nonce id page =
        (u32 id ++ page.bytes) ++ u32 (pageChecksum page nonce) := by simp [record]
    rw [hsplit, slice_append_right (by simp [page.length_eq])]
    rfl

/-- From record `i` on, `replay` restores the images that were recorded. -/
theorem replayFrom_layout (hmark : mark.length = 8)
    (hids : ∀ r ∈ records, r.1 < 2 ^ 32) :
    ∀ (k i : Nat), i + k = records.length →
      replayFrom (layout mark nrec nonce n records) nonce i k =
        ((records.drop i).map fun r => (r.1, r.2.bytes), none) := by
  intro k
  induction k with
  | zero =>
      intro i hi
      rw [List.drop_of_length_le (by omega)]
      rfl
  | succ k ih =>
      intro i hi
      have hlt : i < records.length := by omega
      obtain ⟨hid, hdata, hsum⟩ :=
        slice_record_parts nonce (records[i]).1 (records[i]).2
      have hsum32 : pageChecksum (records[i]).2 nonce < 2 ^ 32 := Nat.mod_lt _ (by decide)
      rw [replayFrom]
      simp only [slice_record hmark hlt, hid, hdata, hsum, checksum_page,
        fromBytes_u32 (hids _ (List.getElem_mem hlt)), fromBytes_u32 hsum32, ne_eq,
        not_true_eq_false, if_false, ih (i + 1) (by omega)]
      rw [List.drop_eq_getElem_cons hlt, List.map_cons]

/-- A journal with its magic replays exactly the images it records. -/
theorem replayList_layout (hnonce : nonce < 2 ^ 32) (hids : ∀ r ∈ records, r.1 < 2 ^ 32)
    (hcount : records.length < 2 ^ 32) :
    replayList (layout journalMagic records.length nonce n records) =
      (records.map fun r => (r.1, r.2.bytes), none) := by
  have hmark : journalMagic.length = 8 := rfl
  obtain ⟨h0, h8⟩ := slice_validity records.length nonce n records hmark
  unfold replayList
  simp only [h0, h8, slice_nonce hmark, fromBytes_u32 hcount, fromBytes_u32 hnonce, ne_eq,
    not_true_eq_false, if_false]
  split
  · rename_i hzero
    rw [List.eq_nil_of_length_eq_zero hzero]
    rfl
  · rw [replayFrom_layout hmark hids records.length 0 (by omega)]
    rfl

theorem isHot_layout (hcount : records.length < 2 ^ 32) :
    isHot (layout journalMagic records.length nonce n records) = decide (0 < records.length) := by
  have hmark : journalMagic.length = 8 := rfl
  obtain ⟨h0, h8⟩ := slice_validity records.length nonce n records hmark
  simp [isHot, h0, h8, fromBytes_u32 hcount]

theorem pageCountBefore_layout (hmark : mark.length = 8) (hn : n < 2 ^ 32) :
    pageCountBefore (layout mark nrec nonce n records) = n := by
  rw [pageCountBefore, slice_pageCount hmark, fromBytes_u32 hn]

end Layout

/-- `initialHeader` is a layout whose magic and count are zero. -/
theorem initialHeader_eq_layout (nonce n : Nat) :
    initialHeader nonce n = layout (zeros 8) 0 nonce n [] := by
  simp only [initialHeader, layout, validity, List.flatMap_nil, List.append_nil]
  rfl

end QuillDb.Journal
