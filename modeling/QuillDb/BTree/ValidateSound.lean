/-
  BTree/ValidateSound.lean --- what the validator promises the readers.

  A tree that passes has its keys in order and its leaves at one depth, which is what a
  search needs.  A cursor needs more: `_descend_to_leaf` takes an empty leaf for the end
  of an empty tree, wherever it is, and the whole path has to be pinned at once.
-/
import QuillDb.BTree.RawScan
import QuillDb.BTree.Validate

set_option autoImplicit false

namespace QuillDb

open Prog Machine Spans

namespace Slotted

open Slotted.TableCursor

/-! ## What the readers are to find -/

section Conditions

variable {s : Machine} {root H : Nat}

end Conditions

/-! ## A sweep from the root -/

section Root

variable {s s' : Machine} {c : TableCursor} {root H : Nat} {back : Bool}

end Root

/-! ## Soundness -/

section Soundness

variable {s : Machine} {root H : Nat}

end Soundness

/-! ## A leaf below a root without cells -/

section RootAbove

end RootAbove

end Slotted

end QuillDb
