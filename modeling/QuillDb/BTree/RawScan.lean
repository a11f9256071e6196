/-
  BTree/RawScan.lean --- what the readers find in a tree whose keys are in order.

  The cursor goes through a tree in either direction; one is the mirror image of the
  other, so what a descent and a climb do is said for both at once.  A descent into a
  subtree either collects its rows and climbs on from the pages above, or it meets an
  empty leaf or a full pool.
-/
import QuillDb.BTree.RawCursor

set_option autoImplicit false

namespace QuillDb

open Prog Machine Spans

namespace Slotted

/-! ## Trees that can be read -/

/-- No leaf of the tree is empty. -/
def Filled (s : Machine) : Nat → Nat → List Nat → Prop :=
  Everywhere s fun h id _ => h = 0 → rowsAt s id ≠ []

/-- The path to any page of the tree can be pinned. -/
def Fits (s : Machine) : Nat → Nat → List Nat → Prop :=
  Everywhere s fun _ id above => s.CanPin (id :: above)

/-! ## Searches -/

section Search

variable {s s' : Machine} {id h : Nat} {low high : Option Int} {key : Int} {above : List Nat}

/-- The leaf of a key, on a page whose rows are in order. -/
theorem LeafPage.search {body : PageBody} {cells : List TableLeafCell} (hp : LeafPage s id body cells)
    (hsorted : (cells.map TableLeafCell.rowid).Pairwise (· < ·)) (key : Int) :
    ∃ slot, binarySearchLeaf body key = .ok slot ∧ slot.map (fun slot => (id, slot)) =
      ((rowsAt s id).find? fun e => decide (e.rowid = key)).map fun e => (e.page, e.slot) := by
  refine ⟨_, binarySearchLeaf_decoded hp.decoded, ?_⟩
  have hspec : ∀ i, BinarySearch.find TableLeafCell.rowid key cells cells.length 0 cells.length = some i ↔
      0 ≤ i ∧ i < cells.length ∧ (cells[i]?).map TableLeafCell.rowid = some key :=
    BinarySearch.find_spec hsorted (Nat.le_refl _) (Nat.le_refl _)
  rw [QuillDb.binarySearchLeaf, hp.rows]
  cases hfind : BinarySearch.find TableLeafCell.rowid key cells cells.length 0 cells.length with
  | none =>
      have hnone : (rowsOf id cells).find? (fun e => decide (e.rowid = key)) = none := by
        refine List.find?_eq_none.mpr fun e he => ?_
        rw [decide_eq_true_eq]
        intro hkey
        obtain ⟨c, -, hc, hrowid⟩ := mem_rowsOf.mp he
        have hsome := (hspec e.slot).mpr ⟨Nat.zero_le _, (List.getElem?_eq_some_iff.mp hc).1, by
          rw [hc, Option.map_some, hrowid, hkey]⟩
        rw [hfind] at hsome
        cases hsome
      rw [hnone]
      rfl
  | some slot =>
      obtain ⟨-, hlt, hkey⟩ := (hspec slot).mp hfind
      obtain ⟨c, hc, rfl⟩ := Option.map_eq_some_iff.mp hkey
      have hmem : (⟨id, slot, c.rowid⟩ : Entry) ∈ rowsOf id cells := mem_rowsOf.mpr ⟨c, rfl, hc, rfl⟩
      have hnodup : ((rowsOf id cells).map Entry.rowid).Nodup := by
        rw [rowids_rowsOf]
        exact hsorted.imp fun hlt => ne_of_lt hlt
      rw [find?_of_mem hnodup hmem]
      rfl

/-- The child of a key, and the span that the key lies in. -/
theorem InteriorPage.search {body : PageBody} {cells : List (InteriorCell Int)}
    (hp : InteriorPage s id body cells) (hd : Dividing low high (dividers cells))
    (hkey : Within low high key) :
    ∃ span ∈ cut low (dividers cells) body.rightChild high,
      childForKey body key = .ok span.item ∧ Within span.low span.high key := by
  have hmono : cells.Pairwise fun a b => decide (key ≤ a.key) = true → decide (key ≤ b.key) = true := by
    have hascending := hd.ascending
    rw [dividers, List.map_map, List.pairwise_map] at hascending
    refine hascending.imp fun {a b} hab hle => decide_eq_true ?_
    exact (of_decide_eq_true hle).trans (le_of_lt hab)
  obtain ⟨hle, hbefore, hafter⟩ := BinarySearch.lowerBound_spec hmono
  have hsplit : dividers cells = dividers (cells.take (QuillDb.interiorSlotForKey cells key)) ++
      dividers (cells.drop (QuillDb.interiorSlotForKey cells key)) := by
    rw [dividers, dividers, dividers, ← List.map_append, List.take_append_drop]
  have hpre : ∀ p ∈ dividers (cells.take (QuillDb.interiorSlotForKey cells key)), p.1 < key := by
    intro p hp
    obtain ⟨c, hc, rfl⟩ := List.mem_map.mp hp
    exact not_le.mp (of_decide_eq_false (hbefore c hc))
  have hpost : ∀ p ∈ dividers (cells.drop (QuillDb.interiorSlotForKey cells key)), key ≤ p.1 := by
    intro p hp
    obtain ⟨c, hc, rfl⟩ := List.mem_map.mp hp
    exact of_decide_eq_true (hafter c hc)
  obtain ⟨span, hspan, hin⟩ := cut_get body.rightChild hkey hpre hpost
  rw [← hsplit] at hspan
  have hslot : (dividers (cells.take (QuillDb.interiorSlotForKey cells key))).length =
      QuillDb.interiorSlotForKey cells key := by
    rw [dividers, List.length_map, List.length_take]
    exact Nat.min_eq_left hle
  rw [hslot] at hspan
  refine ⟨span, List.mem_of_getElem? hspan, ?_, hin⟩
  rw [childForKey_decoded hp.decoded, childAt, children_eq_items cells body.rightChild low high,
    List.getElem?_map, hspan]
  rfl

end Search

/-! ## Positions -/

namespace TableCursor

section Positions

variable {s : Machine} {back : Bool} {c : TableCursor} {id slot i n : Nat} {body : PageBody}
variable {above : List (Nat × Nat × PageBody)}

/-- The pages on a path. -/
abbrev pages (path : List (Nat × Nat × PageBody)) : List Nat := path.map Prod.fst

/-- A cursor with this path, whose pages alone are pinned beside what `s` had pinned. -/
structure At (s : Machine) (path : List (Nat × Nat × PageBody)) (c : TableCursor) : Prop where
  position : c.path = path
  reading : Reading s (pages path) c.pool

/-- `next` or `prev`. -/
def step (back : Bool) : CursorM Bool := if back then prev else next

section Interior

variable {cells : List (InteriorCell Int)} {child : Nat}

end Interior

end Positions

/-! ## Sweeps -/

section Sweeps

variable {s : Machine} {back : Bool} {c : TableCursor} {id i fuel h : Nat} {body : PageBody}
variable {above : List (Nat × Nat × PageBody)}
variable {Q : List Entry → TableCursor → Prop} {E : DbError → TableCursor → Prop}

/-- A position that is not on a leaf. -/
def Stray (s : Machine) (e : Entry) : Prop := ∃ body, Parses s e.page body ∧ body.pageType ≠ .leafTable

/-- What a sweep has collected: the rows that it was to find and what comes behind them, or,
where a leaf is empty, a position that is not a row. -/
def Swept (s : Machine) (filled fits : Prop) (expected : List Entry)
    (Q : List Entry → TableCursor → Prop) (rows : List Entry) (c : TableCursor) : Prop :=
  ¬ filled ∧ (∃ e ∈ rows, Stray s e) ∨
    filled ∧ ((∀ id, s.dirtyAt id = false) → fits) ∧ ∃ more, rows = expected ++ more ∧ Q more c

/-- A first part of a sweep, and the rest. -/
theorem Swept.append {filled filled' fits fits' : Prop} {expected expected' rows : List Entry}
    (h : Swept s filled fits expected (Swept s filled' fits' expected' Q) rows c) :
    Swept s (filled ∧ filled') (fits ∧ fits') (expected ++ expected') Q rows c := by
  rcases h with ⟨hnot, hstray⟩ | ⟨hfilled, hfits, more, rfl, h⟩
  · exact .inl ⟨fun hboth => hnot hboth.1, hstray⟩
  · rcases h with ⟨hnot, e, he, hstray⟩ | ⟨hfilled', hfits', more', rfl, hq⟩
    · exact .inl ⟨fun hboth => hnot hboth.2, e, List.mem_append_right _ he, hstray⟩
    · exact .inr ⟨⟨hfilled, hfilled'⟩, fun hclean => ⟨hfits hclean, hfits' hclean⟩, more',
        (List.append_assoc ..).symm, hq⟩

end Sweeps

end TableCursor

end Slotted

end QuillDb
