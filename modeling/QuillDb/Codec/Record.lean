/-
  Codec/Record.lean --- rows as bytes.

  Source: `quilldb/codec/record.py`.

  A record is a header of serial types and then the values.  A float is kept as
  its 64 bits, a string as text that UTF-8 can encode.
-/
import QuillDb.Codec.Varint
import QuillDb.Lib.Fallible

set_option autoImplicit false

namespace QuillDb

open Fallible

/-! ## Bytes of numbers and strings -/

/-- `n.to_bytes(width, "big")` of `n` reduced modulo `256 ^ width`. -/
def beBytes : Nat → Nat → Bytes
  | 0, _ => []
  | width + 1, n => UInt8.ofNat (n / 256 ^ width) :: beBytes width n

/-- `n.to_bytes(width, "big", signed=True)` of an `n` in range. -/
def signedBytes (width : Nat) (n : Int) : Bytes := beBytes width (n % 256 ^ width).toNat

/-- `int.from_bytes(data, "big", signed=True)`. -/
def fromSignedBytes (data : Bytes) : Int :=
  let u := fromBytes data
  if 256 ^ data.length ≤ 2 * u then (u : Int) - 256 ^ data.length else u

/-- `s.encode("utf-8")`. -/
def utf8Bytes (s : String) : Bytes := s.toByteArray.data.toList

/-- `data.decode("utf-8")`. -/
def fromUtf8 (data : Bytes) : Except DbError String :=
  match String.fromUTF8? ⟨data.toArray⟩ with
  | some s => .ok s
  | none => .error (.valueError "'utf-8' codec can't decode byte")

/-! ## Serial types -/

/-- `_INT_WIDTH_BY_TYPE`. -/
def intWidth : Nat → Option Nat
  | 1 => some 1
  | 2 => some 2
  | 3 => some 3
  | 4 => some 4
  | 5 => some 6
  | 6 => some 8
  | _ => none

/-- `_INT_RANGES`, as serial types with their widths. -/
def intRanges : List (Nat × Nat) := [(1, 1), (2, 2), (3, 3), (4, 4), (5, 6), (6, 8)]

/-- The integers of `width` bytes. -/
def inWidth (n : Int) (width : Nat) : Bool :=
  -(2 ^ (8 * width - 1)) ≤ n && n ≤ 2 ^ (8 * width - 1) - 1

/-- `serial_type_for`. -/
def serialTypeFor : Value → Except DbError (Nat × Bytes)
  | .null => .ok (0, [])
  | .int n =>
      if n = 0 then .ok (8, [])
      else if n = 1 then .ok (9, [])
      else
        match intRanges.find? fun r => inWidth n r.2 with
        | some (serialType, width) => .ok (serialType, signedBytes width n)
        | none => .error (.valueError "integer outside the signed 64-bit range")
  | .real bits => .ok (7, beBytes 8 bits.toNat)
  | .text s => .ok ((utf8Bytes s).length * 2 + 13, utf8Bytes s)
  | .blob data => .ok (data.length * 2 + 12, data)

/-- `_body_length`. -/
def bodyLength (serialType : Nat) : Except DbError Nat :=
  if serialType = 0 ∨ serialType = 8 ∨ serialType = 9 then .ok 0
  else
    match intWidth serialType with
    | some width => .ok width
    | none =>
        if serialType = 7 then .ok 8
        else if serialType = 10 ∨ serialType = 11 then
          .error (.malformedRecord s!"reserved serial type {serialType}")
        else if serialType % 2 = 0 then .ok ((serialType - 12) / 2)
        else .ok ((serialType - 13) / 2)

/-- A body of the length its serial type says. -/
def decodeBody (serialType : Nat) (body : Bytes) : Except DbError Value :=
  if (intWidth serialType).isSome then .ok (.int (fromSignedBytes body))
  else if serialType = 7 then .ok (.real (BitVec.ofNat 64 (fromBytes body)))
  else if serialType % 2 = 0 then .ok (.blob body)
  else do
    let s ← fromUtf8 body
    return .text s

/-- `decode_value`. -/
def decodeValue (serialType : Nat) (data : Bytes) (offset : Nat) : Except DbError (Value × Nat) :=
  if serialType = 0 then .ok (.null, 0)
  else if serialType = 8 then .ok (.int 0, 0)
  else if serialType = 9 then .ok (.int 1, 0)
  else do
    let length ← bodyLength serialType
    if data.length < offset + length then
      .error (.malformedRecord s!"buffer too short for serial type {serialType}")
    else
      let value ← decodeBody serialType (slice data offset length)
      return (value, length)

/-! ## Records -/

/-- The loop that settles the header size, which counts its own varint. -/
def headerSizeFrom (typesLength : Nat) : Nat → Nat → Except DbError Nat
  | 0, _ => .error (.assertionError "the header size does not settle")
  | fuel + 1, headerSize => do
      let enc ← encodeUvarint headerSize
      let actual := enc.length + typesLength
      if actual = headerSize then return headerSize
      else headerSizeFrom typesLength fuel actual

/-- `encode_record`; the header size can grow by the eight more bytes of its own
varint. -/
def encodeRecord (values : List Value) : Except DbError Bytes := do
  let pairs ← values.mapM serialTypeFor
  let typeVarints ← pairs.mapM fun p => encodeUvarint p.1
  let typesLength := typeVarints.flatten.length
  let headerSize ← headerSizeFrom typesLength 10 (1 + typesLength)
  let header ← encodeUvarint headerSize
  return header ++ typeVarints.flatten ++ (pairs.map Prod.snd).flatten

/-- The serial types up to `bodyStart`. -/
def decodeTypes (data : Bytes) (bodyStart : Nat) : Nat → Nat → Except DbError (List Nat)
  | 0, _ => .error (.malformedRecord "the buffer ends mid-varint")
  | fuel + 1, pos =>
      if pos < bodyStart then do
        let (serialType, consumed) ← decodeUvarint data pos
        let serialTypes ← decodeTypes data bodyStart fuel (pos + consumed)
        return serialType :: serialTypes
      else if pos ≠ bodyStart then
        .error (.malformedRecord "header size inconsistent with type codes")
      else .ok []

def decodeValues (data : Bytes) : List Nat → Nat → Except DbError (List Value)
  | [], _ => .ok []
  | serialType :: serialTypes, offset => do
      let (value, consumed) ← decodeValue serialType data offset
      let values ← decodeValues data serialTypes (offset + consumed)
      return value :: values

/-- `decode_record`; every serial type takes a byte of the buffer. -/
def decodeRecord (data : Bytes) (offset : Nat) : Except DbError (List Value) := do
  let (headerSize, consumed) ← decodeUvarint data offset
  let bodyStart := offset + headerSize
  let serialTypes ← decodeTypes data bodyStart (data.length + 1) (offset + consumed)
  decodeValues data serialTypes bodyStart

/-! ## The round trip of a value -/

@[simp] theorem beBytes_length (width n : Nat) : (beBytes width n).length = width := by
  induction width with
  | zero => rfl
  | succ width ih => rw [beBytes, List.length_cons, ih]

theorem foldl_beBytes (width n acc : Nat) :
    (beBytes width n).foldl (fun acc b => acc * 256 + b.toNat) acc =
      acc * 256 ^ width + n % 256 ^ width := by
  induction width generalizing acc with
  | zero => rw [beBytes, List.foldl_nil, Nat.pow_zero, Nat.mul_one, Nat.mod_one, Nat.add_zero]
  | succ width ih =>
      have hmod : n % (256 ^ width * 256) = n % 256 ^ width + 256 ^ width * (n / 256 ^ width % 256) :=
        Nat.mod_mul
      have hbyte : (UInt8.ofNat (n / 256 ^ width)).toNat = n / 256 ^ width % 256 :=
        UInt8.toNat_ofNat'
      rw [beBytes, List.foldl_cons, ih, hbyte, Nat.pow_succ, hmod]
      ring

theorem fromBytes_beBytes (width n : Nat) : fromBytes (beBytes width n) = n % 256 ^ width := by
  rw [fromBytes, foldl_beBytes, Nat.zero_mul, Nat.zero_add]

theorem fromSignedBytes_signedBytes {width : Nat} {n : Int} (hpos : 0 < width)
    (h : inWidth n width = true) : fromSignedBytes (signedBytes width n) = n := by
  obtain ⟨k, rfl⟩ : ∃ k, width = k + 1 := ⟨width - 1, by omega⟩
  have hpow : (256 : Nat) ^ (k + 1) = 2 * 2 ^ (8 * (k + 1) - 1) := by
    rw [show (256 : Nat) = 2 ^ 8 by decide, ← Nat.pow_mul, ← Nat.pow_succ']
    congr 1
  have hpow' : (256 : Int) ^ (k + 1) = ((256 ^ (k + 1) : Nat) : Int) := by
    rw [Nat.cast_pow]
    rfl
  rw [inWidth, Bool.and_eq_true, decide_eq_true_eq, decide_eq_true_eq] at h
  have hhalf : (2 : Int) ^ (8 * (k + 1) - 1) = ((2 ^ (8 * (k + 1) - 1) : Nat) : Int) := by
    rw [Nat.cast_pow]
    rfl
  rw [hhalf] at h
  unfold fromSignedBytes signedBytes
  simp only
  rw [fromBytes_beBytes, beBytes_length, hpow', hpow]
  generalize 2 ^ (8 * (k + 1) - 1) = half at h ⊢
  have hrange : n % ((2 * half : Nat) : Int) < (2 * half : Nat) := Int.emod_lt_of_pos n (by omega)
  have hmod : (n % ((2 * half : Nat) : Int)).toNat % (2 * half) =
      (n % ((2 * half : Nat) : Int)).toNat := Nat.mod_eq_of_lt (by omega)
  rw [hmod]
  rcases lt_or_ge n 0 with hneg | hnonneg
  · have hwrap : n % ((2 * half : Nat) : Int) = n + (2 * half : Nat) := by
      rw [← Int.add_emod_right, Int.emod_eq_of_lt (by omega) (by omega)]
    rw [hwrap, if_pos (by omega)]
    omega
  · rw [Int.emod_eq_of_lt hnonneg (by omega), if_neg (by omega)]
    omega

theorem fromUtf8_utf8Bytes (s : String) : fromUtf8 (utf8Bytes s) = .ok s := by
  unfold fromUtf8 utf8Bytes
  rw [Array.toArray_toList, String.fromUTF8?, dif_pos s.isValidUTF8]
  rfl

/-- The types of the integer ranges and their widths agree. -/
theorem intRanges_width : ∀ r ∈ intRanges, intWidth r.1 = some r.2 ∧ 0 < r.2 := by decide

/-- The body of a serial type reads back. -/
theorem decodeBody_serialTypeFor {v : Value} {serialType : Nat} {body : Bytes}
    (h : serialTypeFor v = .ok (serialType, body)) (htype : serialType ≠ 0 ∧ serialType ≠ 8 ∧
      serialType ≠ 9) :
    bodyLength serialType = .ok body.length ∧ decodeBody serialType body = .ok v := by
  have hno : ¬ (serialType = 0 ∨ serialType = 8 ∨ serialType = 9) := by
    rintro (h | h | h)
    · exact htype.1 h
    · exact htype.2.1 h
    · exact htype.2.2 h
  have hlong : ∀ n, 10 ≤ n → intWidth n = none := by
    intro n hn
    unfold intWidth
    split <;> first | omega | rfl
  unfold bodyLength decodeBody
  rw [if_neg hno]
  cases v with
  | null =>
      obtain ⟨rfl, rfl⟩ := Prod.mk.inj (Except.ok.inj h)
      exact absurd rfl htype.1
  | int n =>
      rw [serialTypeFor] at h
      split at h
      · obtain ⟨rfl, rfl⟩ := Prod.mk.inj (Except.ok.inj h)
        exact absurd rfl htype.2.1
      · split at h
        · obtain ⟨rfl, rfl⟩ := Prod.mk.inj (Except.ok.inj h)
          exact absurd rfl htype.2.2
        · split at h
          · rename_i t width hfind
            obtain ⟨rfl, rfl⟩ := Prod.mk.inj (Except.ok.inj h)
            have hrange := intRanges_width _ (List.mem_of_find?_eq_some hfind)
            have hin : inWidth n width = true := @List.find?_some _ _ (t, width) _ hfind
            have hwidth : intWidth t = some width := hrange.1
            rw [hwidth, signedBytes, beBytes_length, ← signedBytes,
              fromSignedBytes_signedBytes hrange.2 hin]
            exact ⟨rfl, rfl⟩
          · cases h
  | real bits =>
      obtain ⟨rfl, rfl⟩ := Prod.mk.inj (Except.ok.inj h)
      have hlt : bits.toNat < 256 ^ 8 := bits.isLt
      rw [beBytes_length, fromBytes_beBytes, Nat.mod_eq_of_lt hlt, BitVec.ofNat_toNat,
        BitVec.setWidth_eq]
      exact ⟨rfl, rfl⟩
  | text s =>
      obtain ⟨rfl, rfl⟩ := Prod.mk.inj (Except.ok.inj h)
      rw [hlong _ (by omega), fromUtf8_utf8Bytes]
      simp only
      have hodd : ((utf8Bytes s).length * 2 + 13) % 2 ≠ 0 := by omega
      have hlen : ((utf8Bytes s).length * 2 + 13 - 13) / 2 = (utf8Bytes s).length := by omega
      rw [if_neg (by omega), if_neg (by omega), if_neg hodd, hlen, Option.isSome_none, if_neg Bool.false_ne_true,
        if_neg (by omega), if_neg hodd]
      exact ⟨rfl, rfl⟩
  | blob data =>
      obtain ⟨rfl, rfl⟩ := Prod.mk.inj (Except.ok.inj h)
      rw [hlong _ (by omega)]
      simp only
      have heven : (data.length * 2 + 12) % 2 = 0 := by omega
      have hlen : (data.length * 2 + 12 - 12) / 2 = data.length := by omega
      rw [if_neg (by omega), if_neg (by omega), if_pos heven, hlen, Option.isSome_none, if_neg Bool.false_ne_true,
        if_neg (by omega), if_pos heven]
      exact ⟨rfl, rfl⟩

/-- The types that carry their value. -/
theorem serialTypeFor_bare {v : Value} {serialType : Nat} {body : Bytes}
    (h : serialTypeFor v = .ok (serialType, body))
    (htype : serialType = 0 ∨ serialType = 8 ∨ serialType = 9) :
    body = [] ∧ (v = .null ∧ serialType = 0 ∨ v = .int 0 ∧ serialType = 8 ∨
      v = .int 1 ∧ serialType = 9) := by
  cases v with
  | null =>
      obtain ⟨rfl, rfl⟩ := Prod.mk.inj (Except.ok.inj h)
      exact ⟨rfl, .inl ⟨rfl, rfl⟩⟩
  | int n =>
      rw [serialTypeFor] at h
      split at h
      · rename_i hzero
        obtain ⟨rfl, rfl⟩ := Prod.mk.inj (Except.ok.inj h)
        exact ⟨rfl, .inr (.inl ⟨congrArg _ hzero, rfl⟩)⟩
      · split at h
        · rename_i hone
          obtain ⟨rfl, rfl⟩ := Prod.mk.inj (Except.ok.inj h)
          exact ⟨rfl, .inr (.inr ⟨congrArg _ hone, rfl⟩)⟩
        · split at h
          · rename_i t width hfind
            obtain ⟨rfl, rfl⟩ := Prod.mk.inj (Except.ok.inj h)
            have hbare : ∀ r ∈ intRanges, ¬ (r.1 = 0 ∨ r.1 = 8 ∨ r.1 = 9) := by decide
            exact absurd htype (hbare _ (List.mem_of_find?_eq_some hfind))
          · cases h
  | real bits =>
      obtain ⟨rfl, rfl⟩ := Prod.mk.inj (Except.ok.inj h)
      omega
  | text s =>
      obtain ⟨rfl, rfl⟩ := Prod.mk.inj (Except.ok.inj h)
      omega
  | blob data =>
      obtain ⟨rfl, rfl⟩ := Prod.mk.inj (Except.ok.inj h)
      omega

/-- A value reads back from where its body lies. -/
theorem decodeValue_serialTypeFor {v : Value} {serialType : Nat} {body pre post : Bytes}
    (h : serialTypeFor v = .ok (serialType, body)) :
    decodeValue serialType (pre ++ (body ++ post)) pre.length = .ok (v, body.length) := by
  by_cases htype : serialType = 0 ∨ serialType = 8 ∨ serialType = 9
  · -- the value is in the type
    obtain ⟨rfl, hv⟩ := serialTypeFor_bare h htype
    unfold decodeValue
    rcases hv with ⟨rfl, rfl⟩ | ⟨rfl, rfl⟩ | ⟨rfl, rfl⟩
    · rfl
    · rfl
    · rfl
  · obtain ⟨hlength, hbody⟩ := decodeBody_serialTypeFor h ⟨fun h => htype (.inl h),
      fun h => htype (.inr (.inl h)), fun h => htype (.inr (.inr h))⟩
    unfold decodeValue
    rw [if_neg fun h => htype (.inl h), if_neg fun h => htype (.inr (.inl h)),
      if_neg fun h => htype (.inr (.inr h)), hlength]
    have hslice : slice (pre ++ (body ++ post)) pre.length body.length = body := by
      rw [slice_append_right rfl, List.take_left]
    have hfits : ¬ (pre ++ (body ++ post)).length < pre.length + body.length := by
      rw [List.length_append, List.length_append]
      omega
    show (if (pre ++ (body ++ post)).length < pre.length + body.length then _ else _) = _
    rw [if_neg hfits, hslice, hbody]
    rfl

/-! ## The round trip of a record -/

theorem headerSizeFrom_ok {typesLength fuel guess headerSize : Nat}
    (h : headerSizeFrom typesLength fuel guess = .ok headerSize) :
    ∃ enc, encodeUvarint headerSize = .ok enc ∧ enc.length + typesLength = headerSize := by
  induction fuel generalizing guess with
  | zero => cases h
  | succ fuel ih =>
      rw [headerSizeFrom] at h
      obtain ⟨enc, henc, h⟩ := bind_eq_ok h
      simp only at h
      split at h
      · rename_i hsettled
        obtain rfl := Except.ok.inj h
        exact ⟨enc, henc, hsettled⟩
      · exact ih h

theorem decodeTypes_encode {pairs : List (Nat × Bytes)} {encs : List Bytes} {pre post : Bytes}
    {fuel : Nat} (henc : List.Forall₂ (fun p enc => encodeUvarint p.1 = .ok enc) pairs encs)
    (hfuel : pairs.length < fuel) :
    decodeTypes (pre ++ (encs.flatten ++ post)) (pre.length + encs.flatten.length) fuel pre.length =
      .ok (pairs.map Prod.fst) := by
  induction henc generalizing pre fuel with
  | nil =>
      obtain ⟨fuel, rfl⟩ : ∃ n, fuel = n + 1 := ⟨fuel - 1, by omega⟩
      rw [decodeTypes, if_neg (by rw [List.flatten_nil, List.length_nil]; omega), if_neg (by
        rw [List.flatten_nil, List.length_nil]; omega)]
      rfl
  | @cons p enc pairs encs hp _ ih =>
      obtain ⟨fuel, rfl⟩ : ∃ n, fuel = n + 1 := ⟨fuel - 1, by omega⟩
      have hpos : 1 ≤ enc.length := encodeUvarint_length hp ▸ uvarintSize_pos _
      have hdata : pre ++ ((enc :: encs).flatten ++ post) = pre ++ (enc ++ (encs.flatten ++ post)) := by
        rw [List.flatten_cons, List.append_assoc]
      have hdata' : pre ++ ((enc :: encs).flatten ++ post) =
          (pre ++ enc) ++ (encs.flatten ++ post) := by
        rw [hdata, List.append_assoc]
      have hlen : (enc :: encs).flatten.length = enc.length + encs.flatten.length := by
        rw [List.flatten_cons, List.length_append]
      have hrest := @ih (pre ++ enc) fuel (by rw [List.length_cons] at hfuel; omega)
      rw [List.length_append] at hrest
      rw [decodeTypes, if_pos (by omega)]
      nth_rewrite 1 [hdata]
      rw [decodeUvarint_encode hp, hdata', hlen, ← Nat.add_assoc]
      show (decodeTypes _ _ fuel (pre.length + enc.length) >>= fun types => pure (p.1 :: types)) = _
      rw [hrest]
      rfl

theorem decodeValues_encode {values : List Value} {pairs : List (Nat × Bytes)} {pre post : Bytes}
    (hpairs : List.Forall₂ (fun v p => serialTypeFor v = .ok p) values pairs) :
    decodeValues (pre ++ ((pairs.map Prod.snd).flatten ++ post)) (pairs.map Prod.fst) pre.length =
      .ok values := by
  induction hpairs generalizing pre with
  | nil => rfl
  | @cons v p values pairs hv _ ih =>
      have hdata : pre ++ (((p :: pairs).map Prod.snd).flatten ++ post) =
          pre ++ (p.2 ++ ((pairs.map Prod.snd).flatten ++ post)) := by
        rw [List.map_cons, List.flatten_cons, List.append_assoc]
      have hrest := @ih (pre ++ p.2)
      rw [List.append_assoc, ← hdata, List.length_append] at hrest
      rw [List.map_cons (f := Prod.fst), decodeValues]
      nth_rewrite 1 [hdata]
      rw [decodeValue_serialTypeFor hv]
      show (decodeValues _ _ (pre.length + p.2.length) >>= fun vs => pure (v :: vs)) = _
      rw [hrest]
      rfl

theorem pairs_length_le {pairs : List (Nat × Bytes)} {encs : List Bytes}
    (henc : List.Forall₂ (fun p enc => encodeUvarint p.1 = .ok enc) pairs encs) :
    pairs.length ≤ encs.flatten.length := by
  induction henc with
  | nil => exact Nat.le_refl _
  | @cons p enc pairs encs hp _ ih =>
      have hpos : 1 ≤ enc.length := encodeUvarint_length hp ▸ uvarintSize_pos _
      rw [List.length_cons, List.flatten_cons, List.length_append]
      omega

/-- An encoded record reads back, with anything before and behind it. -/
theorem decodeRecord_encodeRecord {values : List Value} {data : Bytes} (pre post : Bytes)
    (h : encodeRecord values = .ok data) :
    decodeRecord (pre ++ (data ++ post)) pre.length = .ok values := by
  unfold encodeRecord at h
  obtain ⟨pairs, hpairs, h⟩ := bind_eq_ok h
  obtain ⟨encs, hencs, h⟩ := bind_eq_ok h
  obtain ⟨headerSize, hsize, h⟩ := bind_eq_ok h
  obtain ⟨header, hheader, h⟩ := bind_eq_ok h
  obtain rfl := Except.ok.inj h
  have hencs := mapM_ok hencs
  obtain ⟨header', hheader', hlength⟩ := headerSizeFrom_ok hsize
  obtain rfl := Except.ok.inj (hheader.symm.trans hheader')
  have hdata : pre ++ (header ++ encs.flatten ++ (pairs.map Prod.snd).flatten ++ post) =
      pre ++ (header ++ (encs.flatten ++ ((pairs.map Prod.snd).flatten ++ post))) := by
    simp only [List.append_assoc]
  have htypes := @decodeTypes_encode pairs encs (pre ++ header)
    ((pairs.map Prod.snd).flatten ++ post) ((pre ++ (header ++ encs.flatten ++
      (pairs.map Prod.snd).flatten ++ post)).length + 1) hencs (by
        have hle := pairs_length_le hencs
        simp only [List.length_append]
        omega)
  have hvalues := @decodeValues_encode values pairs (pre ++ (header ++ encs.flatten)) post
    (mapM_ok hpairs)
  have hstart : pre.length + headerSize = (pre ++ (header ++ encs.flatten)).length := by
    rw [List.length_append, List.length_append]
    omega
  have hstart' : pre.length + headerSize = (pre ++ header).length + encs.flatten.length := by
    rw [List.length_append]
    omega
  have hbody : pre ++ (header ++ encs.flatten) ++ ((pairs.map Prod.snd).flatten ++ post) =
      pre ++ (header ++ encs.flatten ++ (pairs.map Prod.snd).flatten ++ post) := by
    simp only [List.append_assoc]
  have htail : pre ++ header ++ (encs.flatten ++ ((pairs.map Prod.snd).flatten ++ post)) =
      pre ++ (header ++ encs.flatten ++ (pairs.map Prod.snd).flatten ++ post) := by
    simp only [List.append_assoc]
  rw [hbody, ← hstart] at hvalues
  have hheaderLength : (pre ++ header).length = pre.length + header.length := List.length_append
  rw [htail, ← hstart', hheaderLength] at htypes
  unfold decodeRecord
  nth_rewrite 1 [hdata]
  rw [decodeUvarint_encode hheader]
  show (decodeTypes _ _ _ _ >>= fun types => decodeValues _ types _) = _
  rw [htypes]
  exact hvalues

/-! ## The size of the header -/

theorem uvarintSize_mono {m n : Nat} (h : m ≤ n) : uvarintSize m ≤ uvarintSize n := by
  by_cases hn : n < 2 ^ 56
  · rw [uvarintSize, uvarintSize, if_pos hn, if_pos (by omega)]
    rcases Nat.eq_zero_or_pos m with rfl | hm
    · exact Nat.succ_le_succ (Nat.zero_le _)
    · have hlog : m.log2 ≤ n.log2 :=
        (Nat.le_log2 (by omega)).mpr ((Nat.log2_self_le (by omega)).trans h)
      exact Nat.succ_le_succ (Nat.div_le_div_right hlog)
  · have hle := uvarintSize_le m
    rw [uvarintSize.eq_def n, if_neg hn]
    exact hle

/-- The loop ends: a guess that is too small grows, and never past nine bytes. -/
theorem headerSizeFrom_settles {typesLength fuel guess : Nat} (hlt : typesLength + 9 < 2 ^ 64)
    (hguess : guess ≤ uvarintSize guess + typesLength) (hfuel : typesLength + 10 ≤ guess + fuel) :
    ∃ headerSize, headerSizeFrom typesLength fuel guess = .ok headerSize := by
  have hle := uvarintSize_le guess
  induction fuel generalizing guess with
  | zero => omega
  | succ fuel ih =>
      obtain ⟨enc, henc⟩ := encodeUvarint_of_lt (show guess < 2 ^ 64 by omega)
      have hlength := encodeUvarint_length henc
      rw [headerSizeFrom, henc]
      show ∃ headerSize, (if enc.length + typesLength = guess then pure guess
        else headerSizeFrom typesLength fuel (enc.length + typesLength)) = Except.ok headerSize
      split
      · exact ⟨guess, rfl⟩
      · have hmono := uvarintSize_mono (show guess ≤ enc.length + typesLength by omega)
        exact ih (by omega) (by omega) (uvarintSize_le _)

/-! ## The narrowest type -/

theorem foldl_lt (data : Bytes) (acc : Nat) :
    data.foldl (fun acc b => acc * 256 + b.toNat) acc < (acc + 1) * 256 ^ data.length := by
  induction data generalizing acc with
  | nil => rw [List.foldl_nil, List.length_nil, Nat.pow_zero, Nat.mul_one]; omega
  | cons b data ih =>
      have hb := b.toNat_lt
      rw [List.foldl_cons, List.length_cons, Nat.pow_succ', ← Nat.mul_assoc]
      exact (ih _).trans_le (Nat.mul_le_mul_right _ (by omega))

theorem fromBytes_lt (data : Bytes) : fromBytes data < 256 ^ data.length := by
  have hlt := foldl_lt data 0
  rwa [Nat.zero_add, Nat.one_mul] at hlt

/-- What some bytes hold, they are wide enough for. -/
theorem inWidth_fromSignedBytes {data : Bytes} (hpos : 0 < data.length) :
    inWidth (fromSignedBytes data) data.length = true := by
  obtain ⟨k, hk⟩ : ∃ k, data.length = k + 1 := ⟨data.length - 1, by omega⟩
  have hlt := fromBytes_lt data
  have hpow : (256 : Nat) ^ (k + 1) = 2 * 2 ^ (8 * (k + 1) - 1) := by
    rw [show (256 : Nat) = 2 ^ 8 by decide, ← Nat.pow_mul, ← Nat.pow_succ']
    congr 1
  have hpow' : (256 : Int) ^ (k + 1) = ((256 ^ (k + 1) : Nat) : Int) := by
    rw [Nat.cast_pow]
    rfl
  have hhalf : (2 : Int) ^ (8 * (k + 1) - 1) = ((2 ^ (8 * (k + 1) - 1) : Nat) : Int) := by
    rw [Nat.cast_pow]
    rfl
  rw [hk, hpow] at hlt
  unfold fromSignedBytes inWidth
  simp only
  rw [hk, hpow', hpow, hhalf]
  generalize 2 ^ (8 * (k + 1) - 1) = half at hlt ⊢
  rw [Bool.and_eq_true, decide_eq_true_eq, decide_eq_true_eq]
  split <;> omega

/-- No serial type that a number reads back from takes fewer bytes than this one. -/
def Narrowest (n : Int) (p : Nat × Bytes) : Prop :=
  ∀ serialType data offset length, decodeValue serialType data offset = .ok (.int n, length) →
    p.2.length ≤ length

/-- The widths of the integers that a serial type reads. -/
theorem decodeValue_int {serialType offset length : Nat} {data : Bytes} {n : Int}
    (h : decodeValue serialType data offset = .ok (.int n, length)) :
    n = 0 ∨ n = 1 ∨ intWidth serialType = some length ∧ inWidth n length = true := by
  unfold decodeValue at h
  split at h
  · cases h
  · split at h
    · cases h
      exact .inl rfl
    · split at h
      · cases h
        exact .inr (.inl rfl)
      · rename_i hnull hzero hone
        obtain ⟨width, hlength, h⟩ := bind_eq_ok h
        split at h
        · cases h
        · rename_i hroom
          obtain ⟨v, hbody, h⟩ := bind_eq_ok h
          obtain ⟨rfl, rfl⟩ := Prod.mk.inj (Except.ok.inj h)
          unfold decodeBody at hbody
          split at hbody
          · rename_i hsome
            obtain ⟨width', hwidth⟩ := Option.isSome_iff_exists.mp hsome
            rw [bodyLength, if_neg (by rintro (h | h | h) <;> contradiction), hwidth] at hlength
            obtain rfl := Except.ok.inj hlength
            have hslice : (slice data offset width').length = width' := by
              rw [slice, List.length_take, List.length_drop]
              omega
            have hpos : 0 < width' := by
              unfold intWidth at hwidth
              split at hwidth <;> first | cases hwidth; decide | cases hwidth
            cases hbody
            have hin := @inWidth_fromSignedBytes (slice data offset width') (by omega)
            rw [hslice] at hin
            exact .inr (.inr ⟨hwidth, hin⟩)
          · split at hbody
            · cases hbody
            · split at hbody
              · cases hbody
              · obtain ⟨s, -, hbody⟩ := bind_eq_ok hbody
                cases hbody

theorem mem_intRanges {serialType width : Nat} (h : intWidth serialType = some width) :
    (serialType, width) ∈ intRanges := by
  unfold intWidth at h
  split at h <;> first | cases h; decide | cases h

/-- The first range that holds a number is the narrowest. -/
theorem narrowest_serialTypeFor {n : Int} {p : Nat × Bytes} (h : serialTypeFor (.int n) = .ok p) :
    Narrowest n p := by
  intro serialType data offset length hread
  rw [serialTypeFor] at h
  split at h
  · cases h
    exact Nat.zero_le _
  · split at h
    · cases h
      exact Nat.zero_le _
    · split at h
      · rename_i hzero hone _ t width hfind
        cases h
        show (signedBytes width n).length ≤ length
        rw [signedBytes, beBytes_length]
        obtain ⟨hwidth, hin⟩ := ((decodeValue_int hread).resolve_left hzero).resolve_left hone
        obtain ⟨-, before, behind, hranges, hbefore⟩ := List.find?_eq_some_iff_append.mp hfind
        have hmem := mem_intRanges hwidth
        have hsorted : intRanges.Pairwise fun r r' => r.2 ≤ r'.2 := by decide
        rw [hranges] at hmem hsorted
        rcases List.mem_append.mp hmem with hmem | hmem
        · have hout := hbefore _ hmem
          rw [hin] at hout
          cases hout
        · rcases List.mem_cons.mp hmem with heq | hmem
          · exact ((Prod.mk.inj heq).2).ge
          · exact (List.pairwise_cons.mp (List.pairwise_append.mp hsorted).2.1).1 _ hmem
      · cases h

/-! ## Every row -/

/-- A value of a Python program that a row may hold: integers of 64 bits, and bytes that
an object has room for (`sys.maxsize`, less the object's own 33). -/
def Value.Fits : Value → Prop
  | .int n => -2 ^ 63 ≤ n ∧ n < 2 ^ 63
  | .text s => (utf8Bytes s).length < 2 ^ 63 - 33
  | .blob data => data.length < 2 ^ 63 - 33
  | _ => True

theorem serialTypeFor_of_fits {v : Value} (h : v.Fits) :
    ∃ p, serialTypeFor v = .ok p ∧ p.1 < 2 ^ 64 := by
  cases v with
  | null => exact ⟨_, rfl, by decide⟩
  | int n =>
      rw [serialTypeFor]
      split
      · exact ⟨_, rfl, by decide⟩
      · split
        · exact ⟨_, rfl, by decide⟩
        · split
          · rename_i t width hfind
            have hbound : ∀ r ∈ intRanges, r.1 < 2 ^ 64 := by decide
            exact ⟨_, rfl, hbound _ (List.mem_of_find?_eq_some hfind)⟩
          · rename_i hnone
            have hout := List.find?_eq_none.mp hnone (6, 8) (by decide)
            refine absurd ?_ hout
            rw [inWidth, Bool.and_eq_true, decide_eq_true_eq, decide_eq_true_eq]
            exact ⟨h.1, Int.le_sub_one_of_lt h.2⟩
  | real bits => exact ⟨_, rfl, show 7 < 2 ^ 64 by decide⟩
  | text s =>
      refine ⟨_, rfl, ?_⟩
      have hlen : (utf8Bytes s).length < 2 ^ 63 - 33 := h
      show (utf8Bytes s).length * 2 + 13 < 2 ^ 64
      omega
  | blob data =>
      refine ⟨_, rfl, ?_⟩
      have hlen : data.length < 2 ^ 63 - 33 := h
      show data.length * 2 + 12 < 2 ^ 64
      omega

theorem mapM_of_forall {α β : Type} {f : α → Except DbError β} {P : α → β → Prop} {xs : List α}
    (h : ∀ x ∈ xs, ∃ y, f x = .ok y ∧ P x y) :
    ∃ ys, xs.mapM f = .ok ys ∧ List.Forall₂ (fun x y => f x = .ok y ∧ P x y) xs ys := by
  induction xs with
  | nil => exact ⟨[], rfl, .nil⟩
  | cons x xs ih =>
      obtain ⟨y, hy, hP⟩ := h x (List.mem_cons_self ..)
      obtain ⟨ys, hys, hall⟩ := ih fun x hx => h x (List.mem_cons_of_mem _ hx)
      refine ⟨y :: ys, ?_, .cons ⟨hy, hP⟩ hall⟩
      exact mapM_eq_ok_iff.mpr (.cons hy (mapM_eq_ok_iff.mp hys))

theorem flatten_length_le {pairs : List (Nat × Bytes)} {types : List Bytes}
    (h : List.Forall₂ (fun p enc => encodeUvarint p.1 = .ok enc) pairs types) :
    types.flatten.length ≤ 9 * pairs.length := by
  induction h with
  | nil => exact Nat.le_refl 0
  | @cons p enc pairs types hp _ ih =>
      have hle : enc.length ≤ 9 := encodeUvarint_length hp ▸ uvarintSize_le p.1
      rw [List.flatten_cons, List.length_append, List.length_cons]
      omega

/-- A row of any length: the loop over the header size ends, with the length of the
header; the record reads back, with anything before and behind it; and every integer
takes the narrowest serial type. -/
theorem record_round_trip (values : List Value) (hcount : values.length < 2 ^ 60)
    (hfits : ∀ v ∈ values, v.Fits) :
    ∃ pairs types headerSize header data,
      List.Forall₂ (fun v p => serialTypeFor v = .ok p ∧ ∀ n, v = .int n → Narrowest n p) values pairs ∧
      (pairs.mapM fun p => encodeUvarint p.1) = .ok types ∧
      headerSizeFrom types.flatten.length 10 (1 + types.flatten.length) = .ok headerSize ∧
      encodeUvarint headerSize = .ok header ∧
      headerSize = (header ++ types.flatten).length ∧
      encodeRecord values = .ok data ∧
      data = header ++ types.flatten ++ (pairs.map Prod.snd).flatten ∧
      ∀ pre post, decodeRecord (pre ++ (data ++ post)) pre.length = .ok values := by
  have hserial : ∀ v ∈ values, ∃ p, serialTypeFor v = .ok p ∧
      (p.1 < 2 ^ 64 ∧ ∀ n, v = .int n → Narrowest n p) := fun v hv => by
    obtain ⟨p, hp, hlt⟩ := serialTypeFor_of_fits (hfits v hv)
    exact ⟨p, hp, hlt, fun n hn => narrowest_serialTypeFor (hn ▸ hp)⟩
  obtain ⟨pairs, hpairs, hall⟩ := mapM_of_forall hserial
  have hencs : ∀ p ∈ pairs, ∃ enc, encodeUvarint p.1 = .ok enc ∧ True := fun p hp => by
    obtain ⟨v, -, -, hlt, -⟩ := exists_left hall hp
    obtain ⟨enc, henc⟩ := encodeUvarint_of_lt hlt
    exact ⟨enc, henc, trivial⟩
  obtain ⟨types, htypes, -⟩ := mapM_of_forall hencs
  have hsize := flatten_length_le (mapM_ok htypes)
  rw [← hall.length_eq] at hsize
  have hguess := uvarintSize_pos (1 + types.flatten.length)
  obtain ⟨headerSize, hloop⟩ := @headerSizeFrom_settles types.flatten.length 10 (1 + types.flatten.length)
    (by omega) (by omega) (by omega)
  obtain ⟨header, hheader, hlength⟩ := headerSizeFrom_ok hloop
  have hrun : encodeRecord values =
      .ok (header ++ types.flatten ++ (pairs.map Prod.snd).flatten) := by
    unfold encodeRecord
    simp only [hpairs, htypes, hloop, hheader, bind, Except.bind]
    rfl
  refine ⟨pairs, types, headerSize, header, _, ?_, htypes, hloop, hheader, ?_, hrun, rfl,
    fun pre post => decodeRecord_encodeRecord pre post hrun⟩
  · exact hall.imp fun v p h => ⟨h.1, h.2.2⟩
  · rw [List.length_append]
    omega

/-- Values of every kind, a spread of integer widths among them. -/
theorem record_round_trip_mixed :
    ∃ data, encodeRecord [.null, .int 0, .int (-129), .text "", .blob [1, 2], .int (2 ^ 47)] = .ok data ∧
      decodeRecord (data ++ [7]) 0 =
        .ok [.null, .int 0, .int (-129), .text "", .blob [1, 2], .int (2 ^ 47)] := by
  obtain ⟨-, -, -, -, data, -, -, -, -, -, hrun, -, hread⟩ := record_round_trip
    [.null, .int 0, .int (-129), .text "", .blob [1, 2], .int (2 ^ 47)] (by decide) (by
      intro v hv
      simp only [List.mem_cons, List.not_mem_nil, or_false] at hv
      rcases hv with rfl | rfl | rfl | rfl | rfl | rfl <;>
        first | exact trivial | exact ⟨by decide, by decide⟩ | exact Nat.lt_of_le_of_lt (m := 2) (by decide) (by decide))
  exact ⟨data, hrun, hread [] [7]⟩

end QuillDb
