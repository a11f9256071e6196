/-
  Basic.lean --- bytes, constants and exceptions shared by every layer.

  Source: `quilldb/constants.py`, `quilldb/errors.py`.

  Python integers are unbounded, so counters and page numbers are `Nat` here
  (pages are numbered from 1, so that 0 can mean "no page"); where the source
  packs one into a fixed number of bytes (`int.to_bytes(4, "big")`) the packing
  is a partial operation that raises `OverflowError`, exactly as Python does.
-/
import Mathlib.Data.List.Basic
import Mathlib.Tactic.Ring
import Mathlib.Tactic.Linarith

set_option autoImplicit false

namespace QuillDb

/-- Raw bytes. -/
abbrev Bytes : Type := List UInt8

/-! ## Format constants (`constants.py`) -/

def pageSize : Nat := 4096
def fileHeaderSize : Nat := 100
def schemaRootPage : Nat := 1
def reservedSpace : Nat := 0
def usableSize : Nat := pageSize - reservedSpace
def leafHeaderSize : Nat := 8
def interiorHeaderSize : Nat := 12
def sectorSize : Nat := 512

/-- `MAGIC`: "SQLite format 3" and a NUL. -/
def magic : Bytes :=
  [0x53, 0x51, 0x4c, 0x69, 0x74, 0x65, 0x20, 0x66,
   0x6f, 0x72, 0x6d, 0x61, 0x74, 0x20, 0x33, 0x00]

/-- `JOURNAL_MAGIC`: "quilldbj". -/
def journalMagic : Bytes := [0x71, 0x75, 0x69, 0x6c, 0x6c, 0x64, 0x62, 0x6a]

/-! ## Values -/

/-- `Value`. -/
inductive Value where
  | null
  | int (n : Int)
  | real (bits : BitVec 64)
  | text (s : String)
  | blob (data : Bytes)
  deriving DecidableEq, Repr, Inhabited

/-! ## Exceptions -/

/-- The exceptions the modelled code raises, with the source's message. -/
inductive DbError where
  | pageOutOfRange (message : String)
  | poolExhausted (message : String)
  | invalidHeader (message : String)
  | corruptDatabase (message : String)
  | valueError (message : String)
  | overflowError (message : String)
  | indexError (message : String)
  | zeroDivision (message : String)
  | assertionError (message : String)
  | fileExists (message : String)
  | osError (message : String)
  | pageFull (message : String)
  | duplicateRowId (message : String)
  | invalidPageType (message : String)
  | malformedCell (message : String)
  | malformedRecord (message : String)
  | overflowCycle (message : String)
  | btreeInvariant (message : String)
  | uniqueViolation (index : String) (key : List Value)
  | typeMismatch (message : String)
  | columnNotFound (message : String)
  | ambiguousColumn (message : String)
  | unsupportedFeature (message : String)
  | integerOverflow (message : String)
  | sqlSyntax (message : String)
  | columnCount (message : String)
  | parameterCount (message : String)
  | tableNotFound (message : String)
  | tableExists (message : String)
  | indexExists (message : String)
  | deadlock (victim : Nat) (cycle : List (Nat × String × Nat))
  | lockTimeout (message : String)
  | keyError (message : String)
  | sortLimitExceeded (message : String)
  deriving DecidableEq, Repr, Inhabited

/-! ## Big-endian integers -/

/-- The four bytes of `n` reduced modulo `2 ^ 32`, most significant first. -/
def u32 (n : Nat) : Bytes :=
  [UInt8.ofNat (n / 2 ^ 24), UInt8.ofNat (n / 2 ^ 16), UInt8.ofNat (n / 2 ^ 8), UInt8.ofNat n]

/-- `n.to_bytes(4, "big")`. -/
def toBytes4 (n : Nat) : Except DbError Bytes :=
  if n < 2 ^ 32 then .ok (u32 n) else .error (.overflowError "int too big to convert")

/-- `int.from_bytes(data, "big")`. -/
def fromBytes (data : Bytes) : Nat :=
  data.foldl (fun acc b => acc * 256 + b.toNat) 0

/-- `bytearray(n)`. -/
def zeros (n : Nat) : Bytes := List.replicate n 0

/-- `data[start : start + n]`. -/
def slice (data : Bytes) (start n : Nat) : Bytes := (data.drop start).take n

@[simp] theorem u32_length (n : Nat) : (u32 n).length = 4 := rfl

@[simp] theorem zeros_length (n : Nat) : (zeros n).length = n := List.length_replicate

theorem fromBytes_u32 {n : Nat} (h : n < 2 ^ 32) : fromBytes (u32 n) = n := by
  simp only [fromBytes, u32, List.foldl_cons, List.foldl_nil, UInt8.toNat_ofNat']
  omega

theorem toBytes4_eq_ok {n : Nat} {b : Bytes} (h : toBytes4 n = .ok b) :
    n < 2 ^ 32 ∧ b = u32 n := by
  unfold toBytes4 at h
  split at h
  · exact ⟨‹_›, (Except.ok.inj h).symm⟩
  · cases h

theorem toBytes4_of_lt {n : Nat} (h : n < 2 ^ 32) : toBytes4 n = .ok (u32 n) := if_pos h

/-- Reading past a prefix of known length. -/
theorem slice_append_right {a b : Bytes} {start n : Nat} (h : start = a.length) :
    slice (a ++ b) start n = b.take n := by
  subst h
  simp [slice]

theorem slice_append_left {a b : Bytes} {start n : Nat} (h : start + n ≤ a.length) :
    slice (a ++ b) start n = slice a start n := by
  unfold slice
  rw [List.drop_append_of_le_length (by omega), List.take_append_of_le_length]
  simp only [List.length_drop]
  omega

end QuillDb
