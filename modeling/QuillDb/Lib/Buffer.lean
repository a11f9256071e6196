/-
  Lib/Buffer.lean --- reads and writes of a fixed-size buffer.

  A write replaces as many elements as it brings, so the buffer keeps its length.
  A read sees the last write of its range, and no write elsewhere.
-/
import Mathlib.Data.List.Basic

set_option autoImplicit false

namespace Buffer

variable {α : Type}

/-- The `n` elements from `start` on. -/
def read (buf : List α) (start n : Nat) : List α := (buf.drop start).take n

/-- Slice assignment of equal lengths: `buf[start : start + len(data)] = data`. -/
def write (buf : List α) (start : Nat) (data : List α) : List α :=
  buf.take start ++ data ++ buf.drop (start + data.length)

variable {buf data : List α} {start pos n : Nat}

theorem length_write (h : start + data.length ≤ buf.length) :
    (write buf start data).length = buf.length := by
  rw [write, List.length_append, List.length_append, List.length_take, List.length_drop]
  omega

theorem read_write (h : start + data.length ≤ buf.length) :
    read (write buf start data) start data.length = data := by
  have htake : (buf.take start).length = start := List.length_take_of_le (by omega)
  rw [read, write, List.append_assoc, List.drop_left' htake, List.take_left' rfl]

/-- A read that ends before the write. -/
theorem read_write_before (hread : pos + n ≤ start) (h : start + data.length ≤ buf.length) :
    read (write buf start data) pos n = read buf pos n := by
  have htake : (buf.take start).length = start := List.length_take_of_le (by omega)
  rw [read, write, List.append_assoc, List.drop_append_of_le_length (by omega),
    List.take_append_of_le_length (by rw [List.length_drop]; omega), List.drop_take, List.take_take,
    Nat.min_eq_left (by omega), read]

/-- A read that starts behind the write. -/
theorem read_write_behind (hread : start + data.length ≤ pos) (h : start + data.length ≤ buf.length) :
    read (write buf start data) pos n = read buf pos n := by
  have hfront : (buf.take start ++ data).length = start + data.length := by
    rw [List.length_append, List.length_take_of_le (by omega)]
  rw [read, write, List.drop_append, List.drop_eq_nil_of_le (by omega), List.nil_append, hfront,
    List.drop_drop, Nat.add_sub_cancel' hread, read]

end Buffer
