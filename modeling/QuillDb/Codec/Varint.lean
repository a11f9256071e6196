/-
  Codec/Varint.lean --- variable-length integers.

  Source: `quilldb/codec/varint.py`.

  Groups of seven bits, the highest first, each but the last flagged; a ninth
  byte carries eight bits and no flag.
-/
import QuillDb.BTree.Cells

set_option autoImplicit false

namespace QuillDb

/-! ## The source -/

/-- `n` flagged groups of seven bits, the lowest of them at shift 0. -/
def flaggedGroups (value : Nat) : Nat → Bytes
  | 0 => []
  | n + 1 => UInt8.ofNat ((value >>> (7 * n)) % 128 + 128) :: flaggedGroups value n

/-- `encode_uvarint`. -/
def encodeUvarint (value : Nat) : Except DbError Bytes :=
  if 2 ^ 64 ≤ value then .error (.valueError "value must satisfy 0 <= value < 2**64")
  else if value = 0 then .ok [0]
  else if 2 ^ 56 ≤ value then
    .ok (flaggedGroups (value >>> 8) 8 ++ [UInt8.ofNat (value % 256)])
  else
    .ok (flaggedGroups (value >>> 7) (value.log2 / 7) ++ [UInt8.ofNat (value % 128)])

/-- The groups of `decode_uvarint`; after the eighth flagged one, the ninth byte. -/
def decodeGroups (data : Bytes) (offset : Nat) : Nat → Nat → Nat → Except DbError (Nat × Nat)
  | 0, result, consumed =>
      match data[offset + consumed]? with
      | none => .error (.malformedRecord "the buffer ends mid-varint")
      | some b => .ok (result * 256 + b.toNat, consumed + 1)
  | n + 1, result, consumed =>
      match data[offset + consumed]? with
      | none => .error (.malformedRecord "the buffer ends mid-varint")
      | some b =>
          if b.toNat < 128 then .ok (result * 128 + b.toNat % 128, consumed + 1)
          else decodeGroups data offset n (result * 128 + b.toNat % 128) (consumed + 1)

/-- `decode_uvarint`: the value and the bytes consumed. -/
def decodeUvarint (data : Bytes) (offset : Nat) : Except DbError (Nat × Nat) :=
  decodeGroups data offset 8 0 0

/-! ## Lengths -/

@[simp] theorem flaggedGroups_length (value n : Nat) : (flaggedGroups value n).length = n := by
  induction n with
  | zero => rfl
  | succ n ih => rw [flaggedGroups, List.length_cons, ih]

theorem encodeUvarint_lt {value : Nat} {enc : Bytes} (h : encodeUvarint value = .ok enc) :
    value < 2 ^ 64 := by
  unfold encodeUvarint at h
  split at h
  · cases h
  · omega

/-- The length of the encoding is the one the sizes of cells count. -/
theorem encodeUvarint_length {value : Nat} {enc : Bytes} (h : encodeUvarint value = .ok enc) :
    enc.length = uvarintSize value := by
  unfold encodeUvarint at h
  unfold uvarintSize
  split at h
  · cases h
  · split at h
    · rename_i hzero
      obtain rfl := Except.ok.inj h
      rw [hzero]
      rfl
    · split at h
      · rename_i hbig
        obtain rfl := Except.ok.inj h
        rw [if_neg (by omega), List.length_append, flaggedGroups_length]
        rfl
      · rename_i hsmall
        obtain rfl := Except.ok.inj h
        rw [if_pos (by omega), List.length_append, flaggedGroups_length]
        rfl

/-! ## The round trip -/

section RoundTrip

variable {pre post : Bytes}

theorem getElem?_after (pre : Bytes) (b : UInt8) (post : Bytes) {i : Nat} (hi : i = pre.length) :
    (pre ++ b :: post)[i]? = some b := by
  rw [hi, List.getElem?_append_right (Nat.le_refl _), Nat.sub_self, List.getElem?_cons_zero]

/-- Reading flagged groups; `n` of the eight are left when they are done. -/
theorem decodeGroups_flagged (value n m result offset consumed : Nat)
    (hoffset : offset + consumed = pre.length) :
    decodeGroups (pre ++ (flaggedGroups value n ++ post)) offset (n + m) result consumed =
      decodeGroups (pre ++ (flaggedGroups value n ++ post)) offset m
        (result * 128 ^ n + value % 128 ^ n) (consumed + n) := by
  induction n generalizing pre result consumed with
  | zero => rw [Nat.zero_add, Nat.pow_zero, Nat.mul_one, Nat.mod_one, Nat.add_zero, Nat.add_zero]
  | succ n ih =>
      generalize hb : UInt8.ofNat ((value >>> (7 * n)) % 128 + 128) = b
      have hnat : b.toNat = (value >>> (7 * n)) % 128 + 128 := by
        rw [← hb, UInt8.toNat_ofNat']
        omega
      have hdata : pre ++ (flaggedGroups value (n + 1) ++ post) =
          (pre ++ [b]) ++ (flaggedGroups value n ++ post) := by
        rw [flaggedGroups, hb, List.append_assoc, List.singleton_append, List.cons_append]
      have hget : (pre ++ (flaggedGroups value (n + 1) ++ post))[offset + consumed]? = some b := by
        rw [flaggedGroups, hb, List.cons_append]
        exact getElem?_after pre b _ hoffset
      have hshift : value >>> (7 * n) = value / 128 ^ n := by
        rw [Nat.shiftRight_eq_div_pow, Nat.pow_mul]
      have hlen : offset + (consumed + 1) = (pre ++ [b]).length := by
        rw [List.length_append, List.length_singleton]
        omega
      rw [Nat.add_right_comm, decodeGroups, hget]
      simp only
      rw [if_neg (by omega), hdata, @ih (pre ++ [b]) _ _ hlen]
      congr 1
      · rw [hnat, Nat.add_mod_right, Nat.mod_mod, hshift, Nat.pow_succ, Nat.mod_mul]
        ring
      · omega

/-- Decoding what was encoded, with anything before and behind it. -/
theorem decodeUvarint_encode {value : Nat} {enc : Bytes} (h : encodeUvarint value = .ok enc) :
    decodeUvarint (pre ++ (enc ++ post)) pre.length = .ok (value, enc.length) := by
  have hlt := encodeUvarint_lt h
  unfold encodeUvarint at h
  rw [if_neg (by omega)] at h
  split at h
  · rename_i hzero
    obtain rfl := Except.ok.inj h
    rw [decodeUvarint, decodeGroups, List.singleton_append, getElem?_after pre 0 post (Nat.add_zero _)]
    simp only [hzero]
    rfl
  · split at h
    · rename_i hbig
      obtain rfl := Except.ok.inj h
      have hlast : (pre ++ (flaggedGroups (value >>> 8) 8 ++ [UInt8.ofNat (value % 256)] ++
          post))[pre.length + (0 + 8)]? = some (UInt8.ofNat (value % 256)) := by
        rw [List.append_assoc, ← List.append_assoc, List.singleton_append]
        refine getElem?_after _ _ post ?_
        rw [List.length_append, flaggedGroups_length]
      have hdecode := @decodeGroups_flagged pre ([UInt8.ofNat (value % 256)] ++ post) (value >>> 8)
        8 0 0 pre.length 0 rfl
      rw [← List.append_assoc (flaggedGroups (value >>> 8) 8)] at hdecode
      rw [decodeUvarint, hdecode, decodeGroups, hlast]
      simp only
      rw [UInt8.toNat_ofNat', List.length_append, flaggedGroups_length, Nat.shiftRight_eq_div_pow]
      congr 2
      omega
    · rename_i hsmall
      obtain rfl := Except.ok.inj h
      generalize hn : value.log2 / 7 = n
      have hne : value ≠ 0 := by assumption
      have hlog : value < 2 ^ (value.log2 + 1) := (Nat.log2_lt hne).mp (Nat.lt_succ_self _)
      have hlog' : value.log2 < 56 := (Nat.log2_lt hne).mpr (by omega)
      have hfits : value >>> 7 < 128 ^ n := by
        rw [Nat.shiftRight_eq_div_pow, Nat.div_lt_iff_lt_mul (Nat.two_pow_pos 7)]
        calc value < 2 ^ (value.log2 + 1) := hlog
          _ ≤ 2 ^ (7 * (n + 1)) := Nat.pow_le_pow_right (by decide) (by omega)
          _ = 128 ^ n * 2 ^ 7 := by rw [Nat.mul_succ, Nat.pow_add, Nat.pow_mul]
      obtain ⟨m, hm⟩ : ∃ m, 8 = n + (m + 1) := ⟨7 - n, by omega⟩
      have hlast : (pre ++ (flaggedGroups (value >>> 7) n ++ [UInt8.ofNat (value % 128)] ++
          post))[pre.length + (0 + n)]? = some (UInt8.ofNat (value % 128)) := by
        rw [List.append_assoc, ← List.append_assoc, List.singleton_append]
        refine getElem?_after _ _ post ?_
        rw [List.length_append, flaggedGroups_length, Nat.zero_add]
      have hdecode := @decodeGroups_flagged pre ([UInt8.ofNat (value % 128)] ++ post) (value >>> 7)
        n (m + 1) 0 pre.length 0 rfl
      rw [← List.append_assoc (flaggedGroups (value >>> 7) n), ← hm] at hdecode
      have hnat : (UInt8.ofNat (value % 128)).toNat = value % 128 := by
        rw [UInt8.toNat_ofNat']
        omega
      rw [decodeUvarint, hdecode, decodeGroups, hlast]
      simp only
      rw [hnat, if_pos (by omega), Nat.mod_eq_of_lt hfits, List.length_append, flaggedGroups_length,
        Nat.shiftRight_eq_div_pow]
      congr 2
      · omega
      · rw [List.length_singleton, Nat.zero_add]

end RoundTrip

/-! ## Any bytes -/

section AnyBytes

variable {data post : Bytes} {offset n result consumed value c : Nat} {e : DbError}

theorem drop_of_getElem? {i : Nat} {b : UInt8} (h : data[i]? = some b) :
    data.drop i = b :: data.drop (i + 1) := by
  obtain ⟨hi, rfl⟩ := List.getElem?_eq_some_iff.mp h
  exact List.drop_eq_getElem_cons hi

/-- The bytes that a number takes lie in the buffer and bound it; only the ninth of
them counts for eight bits. -/
theorem decodeGroups_ok (h : decodeGroups data offset n result consumed = .ok (value, c)) :
    ∃ k, c = consumed + k ∧ 1 ≤ k ∧ offset + c ≤ data.length ∧
      (k ≤ n ∧ value < (result + 1) * 128 ^ k ∨ k = n + 1 ∧ value < (result + 1) * 128 ^ n * 256) := by
  induction n generalizing result consumed with
  | zero =>
      rw [decodeGroups] at h
      split at h
      · cases h
      · rename_i b hget
        obtain ⟨rfl, rfl⟩ := Prod.mk.inj (Except.ok.inj h)
        have hin := (List.getElem?_eq_some_iff.mp hget).1
        have hb := b.toNat_lt
        refine ⟨1, rfl, Nat.le_refl 1, by omega, .inr ⟨rfl, ?_⟩⟩
        rw [Nat.pow_zero, Nat.mul_one]
        omega
  | succ n ih =>
      rw [decodeGroups] at h
      split at h
      · cases h
      · rename_i b hget
        have hin := (List.getElem?_eq_some_iff.mp hget).1
        split at h
        · obtain ⟨rfl, rfl⟩ := Prod.mk.inj (Except.ok.inj h)
          refine ⟨1, rfl, Nat.le_refl 1, by omega, .inl ⟨by omega, ?_⟩⟩
          rw [Nat.pow_one]
          omega
        · obtain ⟨k, hc, hk, hlen, hbound⟩ := ih h
          -- the group that was read leaves room for the ones behind it
          have hstep (m : Nat) : (result * 128 + b.toNat % 128 + 1) * 128 ^ m ≤
              (result + 1) * 128 ^ (m + 1) := by
            rw [Nat.pow_succ', ← Nat.mul_assoc]
            exact Nat.mul_le_mul_right _ (by omega)
          refine ⟨k + 1, by omega, by omega, hlen, ?_⟩
          rcases hbound with ⟨hkn, hvalue⟩ | ⟨rfl, hvalue⟩
          · exact .inl ⟨by omega, hvalue.trans_le (hstep k)⟩
          · exact .inr ⟨rfl, hvalue.trans_le (Nat.mul_le_mul_right 256 (hstep n))⟩

/-- The bytes from an offset on end before a varint does. -/
def EndsInside (data : Bytes) (offset : Nat) : Prop :=
  (data.drop offset).length ≤ 8 ∧ ∀ b ∈ data.drop offset, 128 ≤ b.toNat

/-- Reading goes wrong only where the buffer ends inside the number. -/
theorem decodeGroups_error (h : decodeGroups data offset n result consumed = .error e) :
    e = .malformedRecord "the buffer ends mid-varint" ∧
      (data.drop (offset + consumed)).length ≤ n ∧
      ∀ b ∈ data.drop (offset + consumed), 128 ≤ b.toNat := by
  induction n generalizing result consumed with
  | zero =>
      rw [decodeGroups] at h
      split at h
      · rename_i hget
        rw [List.drop_eq_nil_of_le (List.getElem?_eq_none_iff.mp hget)]
        exact ⟨(Except.error.inj h).symm, Nat.le_refl 0, fun _ hb => nomatch hb⟩
      · cases h
  | succ n ih =>
      rw [decodeGroups] at h
      split at h
      · rename_i hget
        rw [List.drop_eq_nil_of_le (List.getElem?_eq_none_iff.mp hget)]
        exact ⟨(Except.error.inj h).symm, Nat.zero_le _, fun _ hb => nomatch hb⟩
      · rename_i b hget
        split at h
        · cases h
        · obtain ⟨he, hlen, hflags⟩ := ih h
          rw [drop_of_getElem? hget]
          refine ⟨he, Nat.succ_le_succ hlen, fun b' hb' => ?_⟩
          rcases List.mem_cons.mp hb' with rfl | hb'
          · omega
          · exact hflags b' hb'

theorem decodeUvarint_ok (h : decodeUvarint data offset = .ok (value, c)) :
    value < 2 ^ 64 ∧ uvarintSize value ≤ c ∧ 1 ≤ c ∧ c ≤ 9 ∧ offset + c ≤ data.length := by
  obtain ⟨k, hc, hk, hlen, hbound⟩ := decodeGroups_ok h
  obtain rfl : c = k := by omega
  rcases hbound with ⟨hk8, hvalue⟩ | ⟨rfl, hvalue⟩
  · have hpow : value < 2 ^ (7 * c) := by
      rw [Nat.zero_add, Nat.one_mul] at hvalue
      rw [Nat.pow_mul]
      exact hvalue
    have hle : 2 ^ (7 * c) ≤ 2 ^ 56 := Nat.pow_le_pow_right (by decide) (by omega)
    refine ⟨by omega, ?_, hk, by omega, hlen⟩
    rw [uvarintSize, if_pos (by omega)]
    rcases Nat.eq_zero_or_pos value with rfl | hpos
    · exact hk
    · have hlog : value.log2 < 7 * c := (Nat.log2_lt (Nat.ne_of_gt hpos)).mpr hpow
      omega
  · exact ⟨by omega, uvarintSize_le value, hk, Nat.le_refl 9, hlen⟩

theorem decodeUvarint_error (h : decodeUvarint data offset = .error e) :
    e = .malformedRecord "the buffer ends mid-varint" ∧ EndsInside data offset :=
  decodeGroups_error h

theorem encodeUvarint_of_lt {value : Nat} (h : value < 2 ^ 64) : ∃ enc, encodeUvarint value = .ok enc := by
  unfold encodeUvarint
  rw [if_neg (by omega)]
  split
  · exact ⟨_, rfl⟩
  · split
    · exact ⟨_, rfl⟩
    · exact ⟨_, rfl⟩

theorem getElem?_append_some {i : Nat} {b : UInt8} (h : data[i]? = some b) :
    (data ++ post)[i]? = some b := by
  rw [List.getElem?_append_left (List.getElem?_eq_some_iff.mp h).1]
  exact h

theorem decodeGroups_append {r : Nat × Nat}
    (h : decodeGroups data offset n result consumed = .ok r) :
    decodeGroups (data ++ post) offset n result consumed = .ok r := by
  induction n generalizing result consumed with
  | zero =>
      rw [decodeGroups] at h ⊢
      split at h
      · cases h
      · rename_i b hget
        rw [getElem?_append_some hget]
        exact h
  | succ n ih =>
      rw [decodeGroups] at h ⊢
      split at h
      · cases h
      · rename_i b hget
        rw [getElem?_append_some hget]
        simp only
        split at h
        · rename_i hlast
          rw [if_pos hlast]
          exact h
        · rename_i hflag
          rw [if_neg hflag]
          exact ih h

/-- Bytes behind a number do not matter. -/
theorem decodeUvarint_append {r : Nat × Nat} (h : decodeUvarint data offset = .ok r) :
    decodeUvarint (data ++ post) offset = .ok r :=
  decodeGroups_append h

end AnyBytes

/-- What is encoded reads back in place, and in no fewer bytes; what is read from any
bytes is a number of 64 bits inside the buffer, unless the buffer ends first. -/
theorem uvarint_codec :
    (∀ value, value < 2 ^ 64 → ∃ enc, encodeUvarint value = .ok enc ∧ 1 ≤ enc.length ∧ enc.length ≤ 9 ∧
      (∀ pre post, decodeUvarint (pre ++ (enc ++ post)) pre.length = .ok (value, enc.length)) ∧
      ∀ data offset consumed, decodeUvarint data offset = .ok (value, consumed) →
        enc.length ≤ consumed) ∧
    ∀ data offset,
      (decodeUvarint data offset = .error (.malformedRecord "the buffer ends mid-varint") ∧
        EndsInside data offset) ∨
      ∃ value consumed, decodeUvarint data offset = .ok (value, consumed) ∧ value < 2 ^ 64 ∧
        1 ≤ consumed ∧ offset + consumed ≤ data.length := by
  constructor
  · intro value hvalue
    obtain ⟨enc, henc⟩ := encodeUvarint_of_lt hvalue
    have hlength := encodeUvarint_length henc
    refine ⟨enc, henc, ?_, ?_, fun pre post => decodeUvarint_encode henc, fun data offset c h => ?_⟩
    · rw [hlength]
      exact uvarintSize_pos value
    · rw [hlength]
      exact uvarintSize_le value
    · rw [hlength]
      exact (decodeUvarint_ok h).2.1
  · intro data offset
    cases hrun : decodeUvarint data offset with
    | error e =>
        obtain ⟨rfl, hends⟩ := decodeUvarint_error hrun
        exact .inl ⟨rfl, hends⟩
    | ok r =>
        obtain ⟨hlt, -, hpos, -, hin⟩ := decodeUvarint_ok hrun
        exact .inr ⟨r.1, r.2, rfl, hlt, hpos, hin⟩

end QuillDb
