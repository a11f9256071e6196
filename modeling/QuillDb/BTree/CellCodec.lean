/-
  BTree/CellCodec.lean --- the four cell formats, byte for byte.

  Source: `quilldb/btree/cells.py`.

  A cell stores no length of its local payload: the decoder computes the split
  again from the full length, and nothing behind the cell is read.
-/
import QuillDb.BTree.RawCells
import QuillDb.Codec.Record

set_option autoImplicit false

namespace QuillDb

/-! ## Signed rowids -/

theorem testBit_top {n : Nat} (h : n < 2 ^ 64) : n.testBit 63 = decide (2 ^ 63 ≤ n) := by
  rw [Nat.testBit_eq_decide_div_mod_eq, decide_eq_decide]
  omega

theorem toTwosComplement_lt (n : Int) : toTwosComplement n < 2 ^ 64 := by
  unfold toTwosComplement
  omega

theorem fromTwosComplement_toTwosComplement {n : Int} (h : -2 ^ 63 ≤ n ∧ n < 2 ^ 63) :
    fromTwosComplement (toTwosComplement n) = n := by
  rw [fromTwosComplement, testBit_top (toTwosComplement_lt n)]
  unfold toTwosComplement
  simp only [decide_eq_true_eq]
  split <;> omega

/-! ## The split -/

section Split

variable {pageType : PageType} {total : Nat}

theorem minLocalPayload_le (pageType : PageType) : minLocalPayload ≤ maxLocalPayload pageType := by
  cases pageType <;> decide

theorem localPayloadSize_of_le (h : total ≤ maxLocalPayload pageType) :
    localPayloadSize pageType total = total := if_pos h

theorem le_localPayloadSize (h : maxLocalPayload pageType < total) :
    minLocalPayload ≤ localPayloadSize pageType total := by
  unfold localPayloadSize
  simp only
  rw [if_neg (Nat.not_le.mpr h)]
  split
  · exact Nat.le_add_right _ _
  · exact Nat.le_refl _

/-- What spills fills its overflow pages, unless only the least stays. -/
theorem dvd_spill (h : maxLocalPayload pageType < total)
    (hne : localPayloadSize pageType total ≠ minLocalPayload) :
    usableSize - 4 ∣ total - localPayloadSize pageType total := by
  have hmin := minLocalPayload_le pageType
  unfold localPayloadSize at hne ⊢
  simp only at hne ⊢
  rw [if_neg (Nat.not_le.mpr h)] at hne ⊢
  split
  · have hspill : total - (minLocalPayload + (total - minLocalPayload) % (usableSize - 4)) =
        (total - minLocalPayload) - (total - minLocalPayload) % (usableSize - 4) := by omega
    rw [hspill]
    exact Nat.dvd_sub_mod _
  · rename_i hk
    rw [if_neg hk] at hne
    exact (hne rfl).elim

end Split

namespace Slotted

/-! ## `cells.py` -/

/-- The overflow page at the end of a cell, where there is one. -/
def encodeOverflow (overflow : Nat) : Except DbError Bytes :=
  if overflow = 0 then .ok [] else toBytes4 overflow

/-- `encode_leaf_table_cell`. -/
def encodeLeafTableCell (rowid : Int) (p : Payload) : Except DbError Bytes := do
  requireValidSplit .leafTable p
  let total ← encodeUvarint p.total
  let rawRowid ← encodeUvarint (toTwosComplement rowid)
  let overflow ← encodeOverflow p.overflow
  return total ++ (rawRowid ++ (p.localPart ++ overflow))

/-- `encode_interior_table_cell`. -/
def encodeInteriorTableCell (child : Nat) (rowid : Int) : Except DbError Bytes := do
  let childPage ← toBytes4 child
  let rawRowid ← encodeUvarint (toTwosComplement rowid)
  return childPage ++ rawRowid

/-- `encode_leaf_index_cell`. -/
def encodeLeafIndexCell (p : Payload) : Except DbError Bytes := do
  requireValidSplit .leafIndex p
  let total ← encodeUvarint p.total
  let overflow ← encodeOverflow p.overflow
  return total ++ (p.localPart ++ overflow)

/-- `encode_interior_index_cell`. -/
def encodeInteriorIndexCell (child : Nat) (p : Payload) : Except DbError Bytes := do
  requireValidSplit .interiorIndex p
  let childPage ← toBytes4 child
  let total ← encodeUvarint p.total
  let overflow ← encodeOverflow p.overflow
  return childPage ++ (total ++ (p.localPart ++ overflow))

/-- The payload of a cell behind its header, the same in three of the formats. -/
def decodePayload (pageType : PageType) (cell : Bytes) (total headerLen : Nat) : Except DbError Payload :=
  let localLen := localPayloadSize pageType total
  let localPayload := slice cell headerLen localLen
  if localPayload.length < localLen then
    .error (.malformedCell "cell is shorter than its declared local payload")
  else if localLen < total then
    let overflowBytes := slice cell (headerLen + localLen) 4
    if overflowBytes.length < 4 then
      .error (.malformedCell "cell is missing its overflow page number")
    else .ok ⟨total, localPayload, fromBytes overflowBytes⟩
  else .ok ⟨total, localPayload, 0⟩

/-- `decode_leaf_index_cell`. -/
def decodeLeafIndexCell (cell : Bytes) : Except DbError Payload := do
  let (total, n1) ← decodeUvarint cell 0
  decodePayload .leafIndex cell total n1

/-- `decode_interior_index_cell`. -/
def decodeInteriorIndexCell (cell : Bytes) : Except DbError (InteriorCell Payload) :=
  if cell.length < 4 then
    .error (.malformedCell "cell is shorter than the fixed 4-byte child field")
  else do
    let (total, n1) ← decodeUvarint cell 4
    let payload ← decodePayload .interiorIndex cell total (4 + n1)
    return ⟨fromBytes (slice cell 0 4), payload⟩

/-- The table leaf decoder shares that payload. -/
theorem decodeLeafTableCell_eq {cell : Bytes} {total n1 rawRowid n2 : Nat}
    (htotal : decodeUvarint cell 0 = .ok (total, n1)) (hrow : decodeUvarint cell n1 = .ok (rawRowid, n2)) :
    decodeLeafTableCell cell =
      (decodePayload .leafTable cell total (n1 + n2)).map (TableLeafCell.mk (fromTwosComplement rawRowid)) := by
  unfold decodeLeafTableCell decodePayload
  rw [htotal]
  simp only [bind, Except.bind, hrow]
  split
  · rfl
  · split
    · split
      · rfl
      · rfl
    · rfl

/-! ## Decoding what was encoded -/

/-- The fields of a payload that the format can store: the local bytes are as many as stay,
and there is an overflow page exactly when some spill. -/
structure Splits (pageType : PageType) (p : Payload) : Prop where
  localLen : p.localPart.length = localPayloadSize pageType p.total
  overflow : if p.localPart.length < p.total then 1 ≤ p.overflow ∧ p.overflow < 2 ^ 32 else p.overflow = 0

section RoundTrip

variable {pageType : PageType} {p : Payload} {pre post : Bytes}

theorem Splits.requireValidSplit (h : Splits pageType p) : requireValidSplit pageType p = .ok () := by
  have hoverflow := h.overflow
  rw [QuillDb.requireValidSplit, if_neg (not_not.mpr h.localLen), if_neg]
  refine not_not.mpr (propext ?_)
  split at hoverflow
  · rename_i hspill
    exact iff_of_true (by omega) hspill
  · rename_i hspill
    exact iff_of_false (by omega) hspill

theorem Splits.encodeOverflow (h : Splits pageType p) :
    encodeOverflow p.overflow = .ok (if p.localPart.length < p.total then u32 p.overflow else []) := by
  have hoverflow := h.overflow
  unfold Slotted.encodeOverflow
  split at hoverflow
  · rename_i hspill
    rw [if_neg (by omega), if_pos hspill, toBytes4_of_lt hoverflow.2]
  · rename_i hspill
    rw [if_pos hoverflow, if_neg hspill]

/-- The payload reads back behind any header, whatever comes after it. -/
theorem Splits.decodePayload (h : Splits pageType p) :
    decodePayload pageType (pre ++ (p.localPart ++
      ((if p.localPart.length < p.total then u32 p.overflow else []) ++ post))) p.total pre.length =
      .ok p := by
  have hoverflow := h.overflow
  have hlocal := slice_append_right (a := pre) (b := p.localPart ++
    ((if p.localPart.length < p.total then u32 p.overflow else []) ++ post))
    (n := p.localPart.length) rfl
  rw [List.take_append_of_le_length (Nat.le_refl _), List.take_length] at hlocal
  rw [Slotted.decodePayload]
  simp only
  rw [← h.localLen, hlocal, if_neg (Nat.lt_irrefl _)]
  split at hoverflow
  · rename_i hspill
    have hpage : slice (pre ++ (p.localPart ++ (u32 p.overflow ++ post))) (pre.length + p.localPart.length) 4 =
        u32 p.overflow := by
      rw [← List.append_assoc pre, slice_append_right List.length_append.symm,
        List.take_append_of_le_length (by rw [u32_length]), List.take_of_length_le (by rw [u32_length])]
    simp only [if_pos hspill]
    rw [hpage, if_neg (by rw [u32_length]; omega), fromBytes_u32 hoverflow.2]
  · rename_i hspill
    rw [if_neg hspill, ← hoverflow]

/-- A cell whose encoding reads back, with anything behind it; a payload too long for its
length to be stored is refused. -/
def RoundTrips {α : Type} (total : Nat) (encoded : Except DbError Bytes) (decode : Bytes → Except DbError α)
    (fields : α) : Prop :=
  if total < 2 ^ 64 then
    ∃ cell, encoded = .ok cell ∧ ∀ post, decode (cell ++ post) = .ok fields
  else ∃ message, encoded = .error (.valueError message)

theorem encodeUvarint_of_le {value : Nat} (h : 2 ^ 64 ≤ value) :
    encodeUvarint value = .error (.valueError "value must satisfy 0 <= value < 2**64") := if_pos h

theorem decodeUvarint_front {value : Nat} {enc : Bytes} (h : encodeUvarint value = .ok enc) :
    decodeUvarint (enc ++ post) 0 = .ok (value, enc.length) := @decodeUvarint_encode [] post value enc h

theorem leafTable_roundTrips {rowid : Int} (hrowid : -2 ^ 63 ≤ rowid ∧ rowid < 2 ^ 63)
    (h : Splits .leafTable p) :
    RoundTrips p.total (encodeLeafTableCell rowid p) decodeLeafTableCell ⟨rowid, p⟩ := by
  unfold RoundTrips encodeLeafTableCell
  rw [h.requireValidSplit, h.encodeOverflow]
  split
  · rename_i htotal
    obtain ⟨total, henc⟩ := encodeUvarint_of_lt htotal
    obtain ⟨rawRowid, hraw⟩ := encodeUvarint_of_lt (toTwosComplement_lt rowid)
    rw [henc, hraw]
    refine ⟨_, rfl, fun post => ?_⟩
    have hrow := @decodeUvarint_encode total (p.localPart ++
      ((if p.localPart.length < p.total then u32 p.overflow else []) ++ post)) _ _ hraw
    have hpayload := @Splits.decodePayload _ _ (total ++ rawRowid) post h
    rw [List.length_append] at hpayload
    simp only [List.append_assoc] at hpayload ⊢
    rw [decodeLeafTableCell_eq (decodeUvarint_front henc) hrow, hpayload,
      fromTwosComplement_toTwosComplement hrowid]
    rfl
  · rename_i htotal
    rw [encodeUvarint_of_le (Nat.not_lt.mp htotal)]
    exact ⟨_, rfl⟩

theorem slice_child {child : Nat} : slice (u32 child ++ post) 0 4 = u32 child := rfl

theorem interiorTable_roundTrips {child : Nat} {rowid : Int} (hchild : child < 2 ^ 32)
    (hrowid : -2 ^ 63 ≤ rowid ∧ rowid < 2 ^ 63) :
    RoundTrips 0 (encodeInteriorTableCell child rowid) decodeInteriorTableCell ⟨child, rowid⟩ := by
  unfold RoundTrips encodeInteriorTableCell
  obtain ⟨rawRowid, hraw⟩ := encodeUvarint_of_lt (toTwosComplement_lt rowid)
  rw [if_pos (by decide), toBytes4_of_lt hchild, hraw]
  refine ⟨_, rfl, fun post => ?_⟩
  have hrow := @decodeUvarint_encode (u32 child) post _ _ hraw
  rw [u32_length] at hrow
  rw [List.append_assoc, decodeInteriorTableCell, if_neg (by rw [List.length_append, u32_length]; omega),
    hrow, slice_child, fromBytes_u32 hchild]
  simp only [bind, Except.bind]
  rw [fromTwosComplement_toTwosComplement hrowid]
  rfl

theorem leafIndex_roundTrips (h : Splits .leafIndex p) :
    RoundTrips p.total (encodeLeafIndexCell p) decodeLeafIndexCell p := by
  unfold RoundTrips encodeLeafIndexCell
  rw [h.requireValidSplit, h.encodeOverflow]
  split
  · rename_i htotal
    obtain ⟨total, henc⟩ := encodeUvarint_of_lt htotal
    rw [henc]
    refine ⟨_, rfl, fun post => ?_⟩
    have hpayload := @Splits.decodePayload _ _ total post h
    simp only [List.append_assoc]
    rw [decodeLeafIndexCell, decodeUvarint_front henc]
    exact hpayload
  · rename_i htotal
    rw [encodeUvarint_of_le (Nat.not_lt.mp htotal)]
    exact ⟨_, rfl⟩

theorem interiorIndex_roundTrips {child : Nat} (hchild : child < 2 ^ 32) (h : Splits .interiorIndex p) :
    RoundTrips p.total (encodeInteriorIndexCell child p) decodeInteriorIndexCell ⟨child, p⟩ := by
  unfold RoundTrips encodeInteriorIndexCell
  rw [h.requireValidSplit, h.encodeOverflow, toBytes4_of_lt hchild]
  split
  · rename_i htotal
    obtain ⟨total, henc⟩ := encodeUvarint_of_lt htotal
    rw [henc]
    refine ⟨_, rfl, fun post => ?_⟩
    have htot := @decodeUvarint_encode (u32 child) (p.localPart ++
      ((if p.localPart.length < p.total then u32 p.overflow else []) ++ post)) _ _ henc
    have hpayload := @Splits.decodePayload _ _ (u32 child ++ total) post h
    rw [u32_length] at htot
    rw [List.length_append, u32_length] at hpayload
    simp only [List.append_assoc] at hpayload ⊢
    rw [decodeInteriorIndexCell, if_neg (by rw [List.length_append, u32_length]; omega), htot,
      slice_child, fromBytes_u32 hchild]
    simp only [bind, Except.bind, hpayload]
    rfl
  · rename_i htotal
    rw [encodeUvarint_of_le (Nat.not_lt.mp htotal)]
    exact ⟨_, rfl⟩

/-! ## Between the index formats -/

/-- What decodes is split as the format says; a spilled payload may still name no page. -/
theorem splits_of_decodePayload {cell : Bytes} {total headerLen : Nat}
    (h : decodePayload pageType cell total headerLen = .ok p)
    (hpage : p.localPart.length < p.total → p.overflow ≠ 0) : p.total = total ∧ Splits pageType p := by
  have hle := localPayloadSize_le_total pageType total
  rw [decodePayload] at h
  simp only at h
  split at h
  · cases h
  · rename_i hlen
    have hlocal : (slice cell headerLen (localPayloadSize pageType total)).length =
        localPayloadSize pageType total :=
      Nat.le_antisymm (List.length_take_le _ _) (Nat.not_lt.mp hlen)
    split at h
    · rename_i hspill
      split at h
      · cases h
      · cases h
        refine ⟨rfl, hlocal, ?_⟩
        simp only at hpage ⊢
        rw [hlocal] at hpage ⊢
        rw [if_pos hspill]
        have hfour := List.length_take_le 4 (cell.drop (headerLen + localPayloadSize pageType total))
        have hlt := fromBytes_lt (slice cell (headerLen + localPayloadSize pageType total) 4)
        have hpow : 256 ^ (slice cell (headerLen + localPayloadSize pageType total) 4).length ≤ 256 ^ 4 :=
          Nat.pow_le_pow_right (by decide) hfour
        exact ⟨Nat.pos_of_ne_zero (hpage hspill), by omega⟩
    · rename_i hspill
      cases h
      refine ⟨rfl, hlocal, ?_⟩
      rw [hlocal, if_neg hspill]

/-- The two index formats split alike. -/
theorem Splits.interiorIndex (h : Splits .leafIndex p) : Splits .interiorIndex p := ⟨h.localLen, h.overflow⟩

/-- The fields of any index leaf cell, moved into an interior cell and back. -/
theorem leafIndex_moves {leaf : Bytes} {child : Nat} (hchild : child < 2 ^ 32)
    (h : decodeLeafIndexCell leaf = .ok p) (hpage : p.localPart.length < p.total → p.overflow ≠ 0) :
    ∃ interior, encodeInteriorIndexCell child p = .ok interior ∧
      (∀ post, decodeInteriorIndexCell (interior ++ post) = .ok ⟨child, p⟩) ∧
      ∃ back, encodeLeafIndexCell p = .ok back ∧ ∀ post, decodeLeafIndexCell (back ++ post) = .ok p := by
  rw [decodeLeafIndexCell] at h
  obtain ⟨⟨total, n1⟩, htotal, h⟩ := Fallible.bind_eq_ok h
  obtain ⟨rfl, hsplits⟩ := splits_of_decodePayload h hpage
  have hlt := (decodeUvarint_ok htotal).1
  have hinterior := interiorIndex_roundTrips hchild hsplits.interiorIndex
  have hleaf := leafIndex_roundTrips hsplits
  rw [RoundTrips, if_pos hlt] at hinterior hleaf
  obtain ⟨interior, hencode, hdecode⟩ := hinterior
  exact ⟨interior, hencode, hdecode, hleaf⟩

end RoundTrip

/-! ## The decoded cells -/

section Decoded

variable {p : Payload} {cell : Bytes}

theorem encodeOverflow_ok {overflow : Nat} {bytes : Bytes} (h : encodeOverflow overflow = .ok bytes) :
    toBytes4 overflow = .ok (u32 overflow) ∧ bytes.length = if overflow = 0 then 0 else 4 := by
  unfold encodeOverflow at h
  split at h
  · rename_i hzero
    cases h
    rw [hzero]
    exact ⟨rfl, rfl⟩
  · rename_i hzero
    obtain ⟨hlt, rfl⟩ := toBytes4_eq_ok h
    rw [if_neg hzero]
    exact ⟨toBytes4_of_lt hlt, rfl⟩

theorem checkUvarint_of_encode {value : Nat} {enc : Bytes} (h : encodeUvarint value = .ok enc) :
    checkUvarint value = .ok () := if_pos (encodeUvarint_lt h)

/-- A cell that is packed is one that the decoded page takes, of the length that it counts. -/
theorem encodeLeafTableCell_refines {rowid : Int} (h : encodeLeafTableCell rowid p = .ok cell) :
    QuillDb.encodeLeafTableCell rowid p = .ok ⟨rowid, p⟩ ∧
      cell.length = TableLeafCell.size ⟨rowid, p⟩ := by
  unfold encodeLeafTableCell at h
  obtain ⟨_, hsplit, h⟩ := Fallible.bind_eq_ok h
  obtain ⟨total, htotal, h⟩ := Fallible.bind_eq_ok h
  obtain ⟨rawRowid, hrow, h⟩ := Fallible.bind_eq_ok h
  obtain ⟨overflow, hoverflow, h⟩ := Fallible.bind_eq_ok h
  cases h
  obtain ⟨hbytes, hlen⟩ := encodeOverflow_ok hoverflow
  constructor
  · rw [QuillDb.encodeLeafTableCell, hsplit, checkUvarint_of_encode htotal, hbytes]
    rfl
  · simp only [List.length_append, encodeUvarint_length htotal, encodeUvarint_length hrow, hlen,
      TableLeafCell.size, Payload.size]
    omega

theorem encodeInteriorTableCell_refines {child : Nat} {rowid : Int}
    (h : encodeInteriorTableCell child rowid = .ok cell) :
    QuillDb.encodeInteriorTableCell child rowid = .ok ⟨child, rowid⟩ ∧
      cell.length = InteriorCell.size rowidSize ⟨child, rowid⟩ := by
  unfold encodeInteriorTableCell at h
  obtain ⟨childPage, hchild, h⟩ := Fallible.bind_eq_ok h
  obtain ⟨rawRowid, hrow, h⟩ := Fallible.bind_eq_ok h
  cases h
  obtain ⟨-, rfl⟩ := toBytes4_eq_ok hchild
  constructor
  · rw [QuillDb.encodeInteriorTableCell, hchild]
    rfl
  · simp only [List.length_append, u32_length, encodeUvarint_length hrow, InteriorCell.size, rowidSize]

theorem encodeLeafIndexCell_refines (h : encodeLeafIndexCell p = .ok cell) :
    QuillDb.encodeLeafIndexCell p = .ok p ∧ cell.length = p.size := by
  unfold encodeLeafIndexCell at h
  obtain ⟨_, hsplit, h⟩ := Fallible.bind_eq_ok h
  obtain ⟨total, htotal, h⟩ := Fallible.bind_eq_ok h
  obtain ⟨overflow, hoverflow, h⟩ := Fallible.bind_eq_ok h
  cases h
  obtain ⟨hbytes, hlen⟩ := encodeOverflow_ok hoverflow
  constructor
  · rw [QuillDb.encodeLeafIndexCell, hsplit, checkUvarint_of_encode htotal, hbytes]
    rfl
  · simp only [List.length_append, encodeUvarint_length htotal, hlen, Payload.size]
    omega

theorem encodeInteriorIndexCell_refines {child : Nat} (h : encodeInteriorIndexCell child p = .ok cell) :
    QuillDb.encodeInteriorIndexCell child p = .ok ⟨child, p⟩ ∧
      cell.length = InteriorCell.size Payload.size ⟨child, p⟩ := by
  unfold encodeInteriorIndexCell at h
  obtain ⟨_, hsplit, h⟩ := Fallible.bind_eq_ok h
  obtain ⟨childPage, hchild, h⟩ := Fallible.bind_eq_ok h
  obtain ⟨total, htotal, h⟩ := Fallible.bind_eq_ok h
  obtain ⟨overflow, hoverflow, h⟩ := Fallible.bind_eq_ok h
  cases h
  obtain ⟨-, rfl⟩ := toBytes4_eq_ok hchild
  obtain ⟨hbytes, hlen⟩ := encodeOverflow_ok hoverflow
  constructor
  · rw [QuillDb.encodeInteriorIndexCell, hsplit, hchild, checkUvarint_of_encode htotal, hbytes]
    rfl
  · simp only [List.length_append, u32_length, encodeUvarint_length htotal, hlen, InteriorCell.size,
      Payload.size]
    omega

end Decoded

/-- How a payload is split, that every cell reads back, and that the key of an index moves
between the two formats unchanged. -/
theorem cell_codec :
    (∀ pageType total, pageType ≠ .interiorTable →
      (total ≤ maxLocalPayload pageType → localPayloadSize pageType total = total) ∧
      (maxLocalPayload pageType < total →
        minLocalPayload ≤ localPayloadSize pageType total ∧
        localPayloadSize pageType total ≤ maxLocalPayload pageType ∧
        (usableSize - 4 ∣ total - localPayloadSize pageType total ∨
          localPayloadSize pageType total = minLocalPayload))) ∧
    (∀ rowid p, -2 ^ 63 ≤ rowid ∧ rowid < 2 ^ 63 → Splits .leafTable p →
      RoundTrips p.total (encodeLeafTableCell rowid p) decodeLeafTableCell ⟨rowid, p⟩) ∧
    (∀ child rowid, 1 ≤ child ∧ child < 2 ^ 32 → -2 ^ 63 ≤ rowid ∧ rowid < 2 ^ 63 →
      RoundTrips 0 (encodeInteriorTableCell child rowid) decodeInteriorTableCell ⟨child, rowid⟩) ∧
    (∀ p, Splits .leafIndex p → RoundTrips p.total (encodeLeafIndexCell p) decodeLeafIndexCell p) ∧
    (∀ child p, 1 ≤ child ∧ child < 2 ^ 32 → Splits .interiorIndex p →
      RoundTrips p.total (encodeInteriorIndexCell child p) decodeInteriorIndexCell ⟨child, p⟩) ∧
    ∀ child leaf p, 1 ≤ child ∧ child < 2 ^ 32 → decodeLeafIndexCell leaf = .ok p →
      (p.localPart.length < p.total → p.overflow ≠ 0) →
        ∃ interior, encodeInteriorIndexCell child p = .ok interior ∧
          (∀ post, decodeInteriorIndexCell (interior ++ post) = .ok ⟨child, p⟩) ∧
          ∃ back, encodeLeafIndexCell p = .ok back ∧ ∀ post, decodeLeafIndexCell (back ++ post) = .ok p := by
  refine ⟨fun pageType total _ => ⟨localPayloadSize_of_le, fun h =>
    ⟨le_localPayloadSize h, localPayloadSize_le pageType total, ?_⟩⟩,
    fun _ _ hrowid => leafTable_roundTrips hrowid,
    fun _ _ hchild hrowid => interiorTable_roundTrips hchild.2 hrowid,
    fun _ => leafIndex_roundTrips, fun _ _ hchild => interiorIndex_roundTrips hchild.2,
    fun _ _ _ hchild => leafIndex_moves hchild.2⟩
  by_cases hmin : localPayloadSize pageType total = minLocalPayload
  · exact .inr hmin
  · exact .inl (dvd_spill h hmin)

end Slotted

end QuillDb
