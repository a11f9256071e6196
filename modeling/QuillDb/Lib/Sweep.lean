/-
  Lib/Sweep.lean --- going through a list from either end.

  One direction is the mirror image of the other; what holds of a sweep is stated for
  both at once.
-/
import Mathlib.Data.List.GetD

set_option autoImplicit false

namespace Sweep

variable {α β : Type}

/-- A list, or its mirror image. -/
def arrange (back : Bool) (xs : List α) : List α := if back then xs.reverse else xs

/-- The indices of a list in the order of a sweep. -/
def order (back : Bool) (n : Nat) : List Nat := arrange back (List.range n)

/-- Where a sweep starts. -/
def start (back : Bool) (n : Nat) : Nat := if back then n - 1 else 0

/-- The index after one, if there is one. -/
def next (back : Bool) (n i : Nat) : Option Nat :=
  if back then (if 0 < i then some (i - 1) else none)
  else if i + 1 < n then some (i + 1) else none

variable {back : Bool} {n i : Nat}

end Sweep
