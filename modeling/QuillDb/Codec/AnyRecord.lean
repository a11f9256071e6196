/-
  Codec/AnyRecord.lean --- records that nobody encoded.

  Source: `decode_record` and `decode_column` of `quilldb/codec/record.py`.

  The bytes may claim anything.  What a column takes up and what it is decoded from are
  the same bytes, so a column may be skipped unread; and reading a row goes wrong with
  one exception, but for texts, whose bytes are handed to Python's UTF-8 decoder.
-/
import QuillDb.Codec.Record
import Mathlib.Tactic.IntervalCases

set_option autoImplicit false

namespace QuillDb

open Fallible

/-! ## `decode_column` -/

/-- The loop of `decode_column`. -/
def columnFrom (data : Bytes) (bodyStart column : Nat) : Nat → Nat → Nat → Nat → Except DbError Value
  | 0, _, _, _ => .error (.malformedRecord "the buffer ends mid-varint")
  | fuel + 1, pos, bodyOffset, index =>
      if pos < bodyStart then do
        let (serialType, consumed) ← decodeUvarint data pos
        if index = column then do
          let (value, _) ← decodeValue serialType data bodyOffset
          return value
        else do
          let length ← bodyLength serialType
          columnFrom data bodyStart column fuel (pos + consumed) (bodyOffset + length) (index + 1)
      else .error (.indexError s!"column {column} out of range")

/-- `decode_column`. -/
def decodeColumn (data : Bytes) (offset column : Nat) : Except DbError Value := do
  let (headerSize, consumed) ← decodeUvarint data offset
  let bodyStart := offset + headerSize
  columnFrom data bodyStart column (data.length + 1) (offset + consumed) bodyStart 0

/-! ## One column -/

section Column

variable {data : Bytes} {offset start length serialType : Nat} {v : Value} {e : DbError}

/-- The serial types of texts. -/
def IsText (serialType : Nat) : Prop := 13 ≤ serialType ∧ serialType % 2 = 1

/-- Bytes that are UTF-8 of some text. -/
def IsUtf8 (data : Bytes) : Prop := ∃ s, utf8Bytes s = data

theorem fromUtf8_ok_iff : (∃ s, fromUtf8 data = .ok s) ↔ IsUtf8 data := by
  constructor
  · rintro ⟨s, h⟩
    refine ⟨s, ?_⟩
    unfold fromUtf8 at h
    split at h
    · rename_i s' hdecode
      obtain rfl := Except.ok.inj h
      rw [String.fromUTF8?] at hdecode
      split at hdecode
      · obtain rfl := Option.some.inj hdecode
        rfl
      · cases hdecode
    · cases h
  · rintro ⟨s, rfl⟩
    exact ⟨s, fromUtf8_utf8Bytes s⟩

theorem bodyLength_error (h : bodyLength serialType = .error e) :
    ∃ message, e = .malformedRecord message := by
  unfold bodyLength at h
  split at h
  · cases h
  · split at h
    · cases h
    · split at h
      · cases h
      · split at h
        · exact ⟨_, (Except.error.inj h).symm⟩
        · split at h <;> cases h

/-- The serial types whose value is in the type take no bytes. -/
theorem bodyLength_bare (h : serialType = 0 ∨ serialType = 8 ∨ serialType = 9) :
    bodyLength serialType = .ok 0 := if_pos h

/-- What is consumed is what would be skipped, and it lies in the buffer. -/
theorem decodeValue_ok (h : decodeValue serialType data start = .ok (v, length)) :
    bodyLength serialType = .ok length ∧ (length = 0 ∨ start + length ≤ data.length) := by
  unfold decodeValue at h
  split at h
  · cases h
    exact ⟨bodyLength_bare (.inl ‹_›), .inl rfl⟩
  · split at h
    · cases h
      exact ⟨bodyLength_bare (.inr (.inl ‹_›)), .inl rfl⟩
    · split at h
      · cases h
        exact ⟨bodyLength_bare (.inr (.inr ‹_›)), .inl rfl⟩
      · obtain ⟨width, hlength, h⟩ := bind_eq_ok h
        split at h
        · cases h
        · rename_i hroom
          obtain ⟨v', -, h⟩ := bind_eq_ok h
          obtain ⟨-, rfl⟩ := Prod.mk.inj (Except.ok.inj h)
          exact ⟨hlength, .inr (Nat.not_lt.mp hroom)⟩

/-- Only a text can fail to decode once its bytes are there. -/
theorem decodeBody_ok {body : Bytes} (hbare : ¬ (serialType = 0 ∨ serialType = 8 ∨ serialType = 9))
    (hlength : bodyLength serialType = .ok length) (h : IsText serialType → IsUtf8 body) :
    ∃ v, decodeBody serialType body = .ok v := by
  unfold decodeBody
  split
  · exact ⟨_, rfl⟩
  · rename_i hsome
    have hwidth := Option.not_isSome_iff_eq_none.mp hsome
    split
    · exact ⟨_, rfl⟩
    · rename_i hreal
      split
      · exact ⟨_, rfl⟩
      · rename_i hodd
        have hlong : 13 ≤ serialType := by
          by_contra hsmall
          rw [bodyLength, if_neg hbare, hwidth] at hlength
          have hreserved : serialType = 10 ∨ serialType = 11 := by
            interval_cases serialType <;> first | omega | cases hwidth
          simp only [if_neg hreal, if_pos hreserved] at hlength
          cases hlength
        obtain ⟨s, hs⟩ := fromUtf8_ok_iff.mpr (h ⟨hlong, by omega⟩)
        exact ⟨.text s, by rw [hs]; rfl⟩

theorem fromUtf8_error {body : Bytes} (h : fromUtf8 body = .error e) :
    ∃ message, e = .valueError message := by
  unfold fromUtf8 at h
  split at h
  · cases h
  · exact ⟨_, (Except.error.inj h).symm⟩

/-- Bytes that are not UTF-8 are an exception of the wrong kind. -/
theorem decodeBody_text {body : Bytes} (ht : IsText serialType) (h : ¬ IsUtf8 body) :
    ∃ message, decodeBody serialType body = .error (.valueError message) := by
  have hwidth : intWidth serialType = none := by
    have := ht.1
    unfold intWidth
    split <;> first | omega | rfl
  have hsome : ¬ (intWidth serialType).isSome := by
    rw [hwidth]
    decide
  have hseven : serialType ≠ 7 := by have := ht.1; omega
  have hodd : serialType % 2 ≠ 0 := by have := ht.2; omega
  rw [decodeBody, if_neg hsome, if_neg hseven, if_neg hodd]
  cases hdecode : fromUtf8 body with
  | ok s => exact absurd (fromUtf8_ok_iff.mp ⟨s, hdecode⟩) h
  | error e =>
      obtain ⟨message, rfl⟩ := fromUtf8_error hdecode
      exact ⟨message, rfl⟩

theorem decodeValue_wide (hbare : ¬ (serialType = 0 ∨ serialType = 8 ∨ serialType = 9))
    (hlength : bodyLength serialType = .ok length) :
    decodeValue serialType data start = if data.length < start + length then
      .error (.malformedRecord s!"buffer too short for serial type {serialType}")
    else decodeBody serialType (slice data start length) >>= fun value => pure (value, length) := by
  rw [decodeValue, if_neg fun h => hbare (.inl h), if_neg fun h => hbare (.inr (.inl h)),
    if_neg fun h => hbare (.inr (.inr h)), hlength]
  rfl

/-- A column whose bytes are there, and UTF-8 if it is a text. -/
def Sound (data : Bytes) (serialType start length : Nat) : Prop :=
  IsText serialType → IsUtf8 (slice data start length)

/-- A column whose bytes are there decodes unless it is such a text. -/
theorem decodeValue_sound (hlength : bodyLength serialType = .ok length)
    (hroom : start + length ≤ data.length) (h : Sound data serialType start length) :
    ∃ v, decodeValue serialType data start = .ok (v, length) := by
  by_cases hbare : serialType = 0 ∨ serialType = 8 ∨ serialType = 9
  · obtain rfl := Except.ok.inj ((bodyLength_bare hbare).symm.trans hlength)
    rcases hbare with rfl | rfl | rfl <;> exact ⟨_, rfl⟩
  · obtain ⟨v, hbody⟩ := @decodeBody_ok _ _ (slice data start length) hbare hlength h
    refine ⟨v, ?_⟩
    rw [decodeValue_wide hbare hlength, if_neg (Nat.not_lt.mpr hroom), hbody]
    rfl

/-- A text that is there and not UTF-8 is an exception of the wrong kind. -/
theorem decodeValue_not_sound (hlength : bodyLength serialType = .ok length)
    (hroom : start + length ≤ data.length) (h : ¬ Sound data serialType start length) :
    ∃ message, decodeValue serialType data start = .error (.valueError message) := by
  obtain ⟨ht, hutf8⟩ : IsText serialType ∧ ¬ IsUtf8 (slice data start length) :=
    Classical.not_imp.mp h
  have hlong := ht.1
  obtain ⟨message, hbody⟩ := decodeBody_text ht hutf8
  refine ⟨message, ?_⟩
  rw [decodeValue_wide (by omega) hlength, if_neg (Nat.not_lt.mpr hroom), hbody]
  rfl

/-- A column whose bytes are not there, or whose type is reserved. -/
theorem decodeValue_absent (hbare : ¬ (serialType = 0 ∨ serialType = 8 ∨ serialType = 9))
    (h : ∀ length, bodyLength serialType = .ok length → data.length < start + length) :
    ∃ message, decodeValue serialType data start = .error (.malformedRecord message) := by
  cases hlength : bodyLength serialType with
  | ok length => exact ⟨_, (decodeValue_wide hbare hlength).trans (if_pos (h length hlength))⟩
  | error e =>
      obtain ⟨message, rfl⟩ := bodyLength_error hlength
      refine ⟨message, ?_⟩
      rw [decodeValue, if_neg fun h => hbare (.inl h), if_neg fun h => hbare (.inr (.inl h)),
        if_neg fun h => hbare (.inr (.inr h)), hlength]
      rfl

end Column

/-! ## The header -/

section Header

variable {data : Bytes} {offset bodyStart pos fuel : Nat} {types : List Nat} {e : DbError}

/-- Serial types that fill the bytes from a position up to where the bodies start. -/
inductive TypesAt (data : Bytes) (bodyStart : Nat) : Nat → List Nat → Prop
  | nil : TypesAt data bodyStart bodyStart []
  | cons {pos serialType consumed : Nat} {types : List Nat} (hpos : pos < bodyStart)
      (htype : decodeUvarint data pos = .ok (serialType, consumed))
      (htypes : TypesAt data bodyStart (pos + consumed) types) :
      TypesAt data bodyStart pos (serialType :: types)

theorem typesAt_of_decodeTypes (h : decodeTypes data bodyStart fuel pos = .ok types) :
    TypesAt data bodyStart pos types := by
  induction fuel generalizing pos types with
  | zero => cases h
  | succ fuel ih =>
      rw [decodeTypes] at h
      split at h
      · rename_i hpos
        obtain ⟨r, htype, h⟩ := bind_eq_ok h
        obtain ⟨rest, hrest, h⟩ := bind_eq_ok h
        cases h
        exact .cons hpos htype (ih hrest)
      · split at h
        · cases h
        · rename_i heq
          cases h
          rw [not_not.mp heq]
          exact .nil

/-- Every serial type takes a byte of the buffer. -/
theorem TypesAt.length_le (h : TypesAt data bodyStart pos types) :
    types.length ≤ data.length - pos := by
  induction h with
  | nil => exact Nat.zero_le _
  | cons hpos htype _ ih =>
      obtain ⟨-, -, hone, -, hin⟩ := decodeUvarint_ok htype
      rw [List.length_cons]
      omega

theorem TypesAt.decodeTypes (h : TypesAt data bodyStart pos types) (hfuel : types.length < fuel) :
    decodeTypes data bodyStart fuel pos = .ok types := by
  induction h generalizing fuel with
  | nil =>
      obtain ⟨fuel, rfl⟩ : ∃ n, fuel = n + 1 := ⟨fuel - 1, by omega⟩
      rw [QuillDb.decodeTypes, if_neg (Nat.lt_irrefl _), if_neg (not_not.mpr rfl)]
  | @cons pos serialType consumed types hpos htype _ ih =>
      obtain ⟨fuel, rfl⟩ : ∃ n, fuel = n + 1 := ⟨fuel - 1, by omega⟩
      rw [QuillDb.decodeTypes, if_pos hpos, htype]
      show (QuillDb.decodeTypes data bodyStart fuel (pos + consumed) >>= fun types =>
        pure (serialType :: types)) = _
      rw [ih (Nat.lt_of_succ_lt_succ hfuel)]
      rfl

theorem decodeTypes_error (h : decodeTypes data bodyStart fuel pos = .error e) :
    ∃ message, e = .malformedRecord message := by
  induction fuel generalizing pos with
  | zero => exact ⟨_, (Except.error.inj h).symm⟩
  | succ fuel ih =>
      rw [decodeTypes] at h
      split at h
      · cases htype : decodeUvarint data pos with
        | error e' =>
            rw [htype] at h
            cases h
            exact ⟨_, (decodeUvarint_error htype).1⟩
        | ok r =>
            cases htypes : decodeTypes data bodyStart fuel (pos + r.2) with
            | error e' =>
                rw [htype] at h
                simp only [bind, Except.bind, htypes] at h
                cases h
                exact ih htypes
            | ok types =>
                rw [htype] at h
                simp only [bind, Except.bind, htypes] at h
                cases h
      · split at h
        · exact ⟨_, (Except.error.inj h).symm⟩
        · cases h

/-- The loop never uses up its fuel: every round takes a byte of the buffer. -/
theorem decodeTypes_enough (hone : 1 ≤ fuel) (hfuel : data.length < pos + fuel) :
    decodeTypes data bodyStart (fuel + 1) pos = decodeTypes data bodyStart fuel pos := by
  induction fuel generalizing pos with
  | zero => omega
  | succ fuel ih =>
      rw [decodeTypes, decodeTypes]
      split
      · cases htype : decodeUvarint data pos with
        | error e => rfl
        | ok r =>
            obtain ⟨-, -, hpos, -, hin⟩ := decodeUvarint_ok htype
            simp only [bind, Except.bind]
            rw [ih (by omega) (by omega)]
      · rfl

theorem decodeTypes_fuel (hfuel : data.length < fuel) :
    decodeTypes data bodyStart fuel pos = decodeTypes data bodyStart (data.length + 1) pos := by
  induction fuel with
  | zero => omega
  | succ fuel ih =>
      rcases Nat.eq_or_lt_of_le (Nat.lt_succ_iff.mp hfuel) with heq | hlt
      · rw [heq]
      · rw [decodeTypes_enough (by omega) (by omega), ih hlt]

end Header

/-! ## `decode_column` and `decode_record` -/

/-- The columns that are left and the place of the wanted one among them. -/
theorem columnFrom_eq {data : Bytes} {bodyStart pos fuel start index column : Nat} {types : List Nat}
    {values : List Value} (htypes : decodeTypes data bodyStart fuel pos = .ok types)
    (hvalues : decodeValues data types start = .ok values) :
    (∀ v, values[column]? = some v →
        columnFrom data bodyStart (index + column) fuel pos start index = .ok v) ∧
      (values.length ≤ column → columnFrom data bodyStart (index + column) fuel pos start index =
        .error (.indexError s!"column {index + column} out of range")) := by
  induction fuel generalizing pos types start values index column with
  | zero => cases htypes
  | succ fuel ih =>
      rw [decodeTypes] at htypes
      rw [columnFrom]
      split at htypes
      · rename_i hpos
        obtain ⟨⟨serialType, consumed⟩, htype, htypes⟩ := bind_eq_ok htypes
        obtain ⟨rest, hrest, htypes⟩ := bind_eq_ok htypes
        cases htypes
        rw [decodeValues] at hvalues
        obtain ⟨⟨v, length⟩, hvalue, hvalues⟩ := bind_eq_ok hvalues
        obtain ⟨vs, hvs, hvalues⟩ := bind_eq_ok hvalues
        cases hvalues
        rw [if_pos hpos, htype]
        simp only [bind, Except.bind]
        cases column with
        | zero =>
            -- the wanted column
            rw [Nat.add_zero, if_pos rfl, hvalue]
            exact ⟨fun v' hv' => congrArg Except.ok (Option.some.inj hv'), fun hle => absurd hle (Nat.not_succ_le_zero _)⟩
        | succ column =>
            -- a column before it is skipped by the length of its type
            rw [if_neg (by omega), (decodeValue_ok hvalue).1]
            have hcount : index + (column + 1) = index + 1 + column := by omega
            obtain ⟨hin, hout⟩ := @ih (pos + consumed) (start + length) (index + 1) column rest vs hrest hvs
            rw [hcount]
            exact ⟨hin, fun hle => hout (Nat.le_of_succ_le_succ hle)⟩
      · rename_i hpos
        split at htypes
        · cases htypes
        · cases htypes
          cases hvalues
          rw [if_neg hpos]
          refine ⟨fun v hv => ?_, fun _ => rfl⟩
          cases hv

/-- One column of a record that decodes is the one that decoding all of them gives. -/
theorem decodeColumn_eq {data : Bytes} {offset : Nat} {values : List Value}
    (h : decodeRecord data offset = .ok values) (column : Nat) :
    (∀ v, values[column]? = some v → decodeColumn data offset column = .ok v) ∧
      (values.length ≤ column → decodeColumn data offset column =
        .error (.indexError s!"column {column} out of range")) := by
  unfold decodeRecord at h
  obtain ⟨⟨headerSize, consumed⟩, hsize, h⟩ := bind_eq_ok h
  obtain ⟨types, htypes, hvalues⟩ := bind_eq_ok h
  have hcolumn := @columnFrom_eq data _ _ _ _ 0 column _ _ htypes hvalues
  rw [Nat.zero_add] at hcolumn
  rw [decodeColumn, hsize]
  exact hcolumn

/-- A record that no encoder wrote: its header size takes two bytes. -/
theorem decodeColumn_eq_padded :
    decodeColumn [0x80, 5, 9, 1, 12, 0xff] 0 1 = .ok (.int (-1)) ∧
      decodeColumn [0x80, 5, 9, 1, 12, 0xff] 0 3 =
        .error (.indexError s!"column {3} out of range") := by
  have hread : decodeRecord [0x80, 5, 9, 1, 12, 0xff] 0 = .ok [.int 1, .int (-1), .blob []] := rfl
  exact ⟨(decodeColumn_eq hread 1).1 (.int (-1)) rfl, (decodeColumn_eq hread 3).2 (by decide)⟩

/-! ## Every byte string -/

section Meets

variable {data post : Bytes} {offset start : Nat} {types : List Nat} {e : DbError}

/-- What a record may hand out: integers of 64 bits, and anything else. -/
def Value.Storable : Value → Prop
  | .int n => -2 ^ 63 ≤ n ∧ n < 2 ^ 63
  | _ => True

/-- From the left, every column whose bytes are there is UTF-8 if it is a text, up to the
first that is reserved or reaches past the buffer. -/
def TextsSound (data : Bytes) : List Nat → Nat → Prop
  | [], _ => True
  | serialType :: types, start => ∀ length, bodyLength serialType = .ok length →
      start + length ≤ data.length →
        Sound data serialType start length ∧ TextsSound data types (start + length)

/-- The texts that reading a record comes to are UTF-8. -/
def ReadsUtf8 (data : Bytes) (offset : Nat) : Prop :=
  ∀ headerSize consumed types, decodeUvarint data offset = .ok (headerSize, consumed) →
    TypesAt data (offset + headerSize) (offset + consumed) types →
      TextsSound data types (offset + headerSize)

/-- Reading a record gives storable values, the same whatever is behind the buffer, or the
one exception; and more rounds of the header's loop change nothing. -/
structure DecodeMeets (data : Bytes) (offset : Nat) : Prop where
  outcome : (∃ values, decodeRecord data offset = .ok values ∧ (∀ v ∈ values, v.Storable) ∧
      ∀ post, decodeRecord (data ++ post) offset = .ok values) ∨
    ∃ message, decodeRecord data offset = .error (.malformedRecord message)
  terminates : ∀ bodyStart pos fuel, data.length < fuel →
    decodeTypes data bodyStart fuel pos = decodeTypes data bodyStart (data.length + 1) pos

theorem decodeBody_storable {serialType : Nat} {body : Bytes} {v : Value}
    (hlength : bodyLength serialType = .ok body.length) (h : decodeBody serialType body = .ok v) :
    v.Storable := by
  unfold decodeBody at h
  split at h
  · rename_i hsome
    cases h
    obtain ⟨width, hwidth⟩ := Option.isSome_iff_exists.mp hsome
    have hbare : ¬ (serialType = 0 ∨ serialType = 8 ∨ serialType = 9) := by
      rintro (rfl | rfl | rfl) <;> cases hwidth
    rw [bodyLength, if_neg hbare, hwidth] at hlength
    have hwidth' := Except.ok.inj hlength
    have hrange : 0 < width ∧ width ≤ 8 := by
      unfold intWidth at hwidth
      split at hwidth <;> first | cases hwidth; decide | cases hwidth
    have hin := @inWidth_fromSignedBytes body (by omega)
    rw [inWidth, Bool.and_eq_true, decide_eq_true_eq, decide_eq_true_eq] at hin
    have hpow : (2 : Int) ^ (8 * body.length - 1) ≤ 2 ^ 63 :=
      pow_le_pow_right₀ (by decide) (by omega)
    exact ⟨by omega, by omega⟩
  · split at h
    · cases h
      trivial
    · split at h
      · cases h
        trivial
      · obtain ⟨s, -, h⟩ := bind_eq_ok h
        cases h
        trivial

theorem decodeValue_storable {serialType length : Nat} {v : Value}
    (h : decodeValue serialType data start = .ok (v, length)) : v.Storable := by
  by_cases hbare : serialType = 0 ∨ serialType = 8 ∨ serialType = 9
  · rcases hbare with rfl | rfl | rfl <;> cases h
    · trivial
    · exact ⟨by decide, by decide⟩
    · exact ⟨by decide, by decide⟩
  · have hlength := (decodeValue_ok h).1
    rw [decodeValue_wide hbare hlength] at h
    split at h
    · cases h
    · rename_i hroom
      obtain ⟨v', hbody, h⟩ := bind_eq_ok h
      cases h
      refine decodeBody_storable ?_ hbody
      rw [hlength, slice, List.length_take, List.length_drop]
      congr 1
      omega

theorem decodeTypes_append {bodyStart fuel pos : Nat}
    (h : decodeTypes data bodyStart fuel pos = .ok types) :
    decodeTypes (data ++ post) bodyStart fuel pos = .ok types := by
  induction fuel generalizing pos types with
  | zero => cases h
  | succ fuel ih =>
      rw [decodeTypes] at h ⊢
      split at h
      · rename_i hpos
        obtain ⟨r, htype, h⟩ := bind_eq_ok h
        obtain ⟨rest, hrest, h⟩ := bind_eq_ok h
        rw [if_pos hpos, decodeUvarint_append htype]
        simp only [bind, Except.bind, ih hrest]
        exact h
      · rename_i hpos
        rw [if_neg hpos]
        exact h

theorem decodeValue_append {serialType : Nat} {r : Value × Nat}
    (h : decodeValue serialType data start = .ok r) : decodeValue serialType (data ++ post) start = .ok r := by
  by_cases hbare : serialType = 0 ∨ serialType = 8 ∨ serialType = 9
  · rcases hbare with rfl | rfl | rfl <;> exact h
  · have hlength := (decodeValue_ok h).1
    rw [decodeValue_wide hbare hlength] at h ⊢
    split at h
    · cases h
    · rename_i hroom
      have hslice : slice (data ++ post) start r.2 = slice data start r.2 :=
        slice_append_left (Nat.not_lt.mp hroom)
      rw [if_neg (by rw [List.length_append]; omega), hslice]
      exact h

theorem decodeValues_append {values : List Value} (h : decodeValues data types start = .ok values) :
    decodeValues (data ++ post) types start = .ok values := by
  induction types generalizing start values with
  | nil => exact h
  | cons serialType types ih =>
      rw [decodeValues] at h ⊢
      obtain ⟨r, hvalue, h⟩ := bind_eq_ok h
      obtain ⟨vs, hvs, h⟩ := bind_eq_ok h
      rw [decodeValue_append hvalue]
      simp only [bind, Except.bind, ih hvs]
      exact h

/-- A successful read never looks behind the buffer. -/
theorem decodeRecord_append {values : List Value} (h : decodeRecord data offset = .ok values) (post : Bytes) :
    decodeRecord (data ++ post) offset = .ok values := by
  unfold decodeRecord at h ⊢
  obtain ⟨r, hsize, h⟩ := bind_eq_ok h
  obtain ⟨types, htypes, hvalues⟩ := bind_eq_ok h
  have hmore : decodeTypes (data ++ post) (offset + r.1) ((data ++ post).length + 1) (offset + r.2) =
      .ok types := by
    have happend := @decodeTypes_append data post _ _ _ _ htypes
    rw [← happend]
    refine (typesAt_of_decodeTypes happend).decodeTypes ?_ |>.trans happend.symm
    have hle := (typesAt_of_decodeTypes htypes).length_le
    rw [List.length_append]
    omega
  rw [decodeUvarint_append hsize]
  simp only [bind, Except.bind, hmore]
  exact decodeValues_append hvalues

theorem decodeValues_storable {values : List Value} (h : decodeValues data types start = .ok values) :
    ∀ v ∈ values, v.Storable := by
  induction types generalizing start values with
  | nil =>
      cases h
      exact fun _ hv => nomatch hv
  | cons serialType types ih =>
      rw [decodeValues] at h
      obtain ⟨r, hvalue, h⟩ := bind_eq_ok h
      obtain ⟨vs, hvs, h⟩ := bind_eq_ok h
      cases h
      exact List.forall_mem_cons.mpr ⟨decodeValue_storable hvalue, ih hvs⟩

/-- The columns of a row give values or the one exception exactly when no text that is
reached is other than UTF-8. -/
theorem decodeValues_meets_iff (hstart : start ≤ data.length) :
    ((∃ values, decodeValues data types start = .ok values) ∨
      ∃ message, decodeValues data types start = .error (.malformedRecord message)) ↔
      TextsSound data types start := by
  induction types generalizing start with
  | nil => exact iff_of_true (.inl ⟨[], rfl⟩) trivial
  | cons serialType types ih =>
      by_cases hthere : ∃ length, bodyLength serialType = .ok length ∧ start + length ≤ data.length
      · obtain ⟨length, hlength, hroom⟩ := hthere
        have hsplit : TextsSound data (serialType :: types) start ↔
            Sound data serialType start length ∧ TextsSound data types (start + length) :=
          ⟨fun h => h length hlength hroom, fun h length' hlength' _ => by
            obtain rfl := Except.ok.inj (hlength.symm.trans hlength')
            exact h⟩
        rw [hsplit, decodeValues]
        by_cases hsound : Sound data serialType start length
        · obtain ⟨v, hvalue⟩ := decodeValue_sound hlength hroom hsound
          rw [hvalue, ← ih hroom, and_iff_right hsound]
          simp only [bind, Except.bind]
          cases decodeValues data types (start + length) with
          | ok vs => exact iff_of_true (.inl ⟨_, rfl⟩) (.inl ⟨_, rfl⟩)
          | error e => simp only [reduceCtorEq, exists_false, false_or, Except.error.injEq]
        · obtain ⟨message, hvalue⟩ := decodeValue_not_sound hlength hroom hsound
          rw [hvalue]
          refine iff_of_false ?_ fun h => hsound h.1
          rintro (⟨_, h⟩ | ⟨_, h⟩) <;> cases h
      · -- the first column that cannot be read for want of bytes or of a type
        refine iff_of_true (.inr ?_) fun length hlength hroom => (hthere ⟨length, hlength, hroom⟩).elim
        rw [decodeValues]
        have hout : ∀ length, bodyLength serialType = .ok length → data.length < start + length :=
          fun length hlength => by
            by_contra hroom
            exact hthere ⟨length, hlength, Nat.not_lt.mp hroom⟩
        have hbare : ¬ (serialType = 0 ∨ serialType = 8 ∨ serialType = 9) := fun h => by
          have := hout 0 (bodyLength_bare h)
          omega
        obtain ⟨message, hvalue⟩ := decodeValue_absent hbare hout
        exact ⟨message, by rw [hvalue]; rfl⟩

/-- Behind a header come the bodies, in the buffer or where it ends. -/
theorem TypesAt.start_le {bodyStart pos : Nat} (h : TypesAt data bodyStart pos types)
    (hpos : pos ≤ data.length) : bodyStart ≤ data.length := by
  induction h with
  | nil => exact hpos
  | cons _ htype _ ih => exact ih (decodeUvarint_ok htype).2.2.2.2

end Meets

/-- Reading a record gives a row or the one exception exactly when no text that it comes
to is other than UTF-8. -/
theorem decodeRecord_meets_iff (data : Bytes) (offset : Nat) :
    DecodeMeets data offset ↔ ReadsUtf8 data offset := by
  have hfuel : ∀ bodyStart pos fuel, data.length < fuel →
      decodeTypes data bodyStart fuel pos = decodeTypes data bodyStart (data.length + 1) pos :=
    fun _ _ _ h => decodeTypes_fuel h
  constructor
  · rintro ⟨houtcome, -⟩ headerSize consumed types hsize htypes
    have hstart := htypes.start_le (decodeUvarint_ok hsize).2.2.2.2
    have hrun : decodeRecord data offset = decodeValues data types (offset + headerSize) := by
      have hle := htypes.length_le
      rw [decodeRecord, hsize]
      simp only [bind, Except.bind]
      rw [htypes.decodeTypes (by omega)]
    rw [hrun] at houtcome
    refine (decodeValues_meets_iff hstart).mp ?_
    exact houtcome.imp (fun ⟨values, h, _⟩ => ⟨values, h⟩) id
  · intro hutf8
    refine ⟨?_, hfuel⟩
    cases hsize : decodeUvarint data offset with
    | error e =>
        obtain ⟨rfl, -⟩ := decodeUvarint_error hsize
        refine .inr ⟨"the buffer ends mid-varint", ?_⟩
        rw [decodeRecord, hsize]
        rfl
    | ok r =>
        cases htypes : decodeTypes data (offset + r.1) (data.length + 1) (offset + r.2) with
        | error e =>
            obtain ⟨message, rfl⟩ := decodeTypes_error htypes
            refine .inr ⟨message, ?_⟩
            rw [decodeRecord, hsize]
            simp only [bind, Except.bind, htypes]
        | ok types =>
            have hrun : decodeRecord data offset = decodeValues data types (offset + r.1) := by
              rw [decodeRecord, hsize]
              simp only [bind, Except.bind, htypes]
            have hat := typesAt_of_decodeTypes htypes
            have hsound := hutf8 r.1 r.2 types hsize hat
            have hstart := hat.start_le (decodeUvarint_ok hsize).2.2.2.2
            rcases (decodeValues_meets_iff hstart).mpr hsound with ⟨values, h⟩ | ⟨message, h⟩
            · refine .inl ⟨values, hrun.trans h, decodeValues_storable h, ?_⟩
              exact decodeRecord_append (hrun.trans h)
            · exact .inr ⟨message, hrun.trans h⟩

/-- One text column of one byte, which is no UTF-8. -/
theorem decodeRecord_raises_on_bad_text :
    ¬ DecodeMeets [2, 15, 0xff] 0 ∧
      decodeRecord [2, 15, 0xff] 0 = .error (.valueError "'utf-8' codec can't decode byte") := by
  have hrun : decodeRecord [2, 15, 0xff] 0 = .error (.valueError "'utf-8' codec can't decode byte") := by
    decide +kernel
  refine ⟨fun h => ?_, hrun⟩
  rcases h.outcome with ⟨values, hok, -⟩ | ⟨message, herror⟩
  · rw [hrun] at hok
    cases hok
  · rw [hrun] at herror
    cases herror

end QuillDb
