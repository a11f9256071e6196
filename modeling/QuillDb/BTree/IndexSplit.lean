/-
  BTree/IndexSplit.lean --- where a full leaf of an index is cut.

  Source: the cut of `IndexBTree._split_leaf` in `quilldb/btree/index.py`, with
  `split_cells` of `quilldb/btree/split.py`.

  No index cell takes more than a quarter of a page, so the cut closest to half has
  two cells on its left, of which the last may go up.  The append cut peels off the
  last cell, which must be the new one: what is left is then what was there.
-/
import QuillDb.BTree.IndexTree

set_option autoImplicit false

namespace QuillDb

open Fallible

/-- The bytes of a leaf page that cells may take. -/
def leafRoom : Nat := pageSize - leafHeaderSize

/-- No leaf cell of an index takes more than this, its pointer included. -/
def indexLeafCap : Nat := 1017

/-- A cut closest to half leaves two cells on the left, and sides that fit. -/
theorem closest_halves_fit {sizes : List Nat} (hcap : ∀ x ∈ sizes, x ≤ indexLeafCap)
    (hover : leafRoom < sizes.sum) (hsum : sizes.sum ≤ leafRoom + indexLeafCap) :
    2 ≤ closestToHalfByBytes sizes ∧ closestToHalfByBytes sizes < sizes.length ∧
      (sizes.take (closestToHalfByBytes sizes)).sum ≤ leafRoom ∧
        (sizes.drop (closestToHalfByBytes sizes)).sum ≤ leafRoom := by
  have hroom : leafRoom = 4088 := rfl
  have hcapval : indexLeafCap = 1017 := rfl
  have hlen : 5 ≤ sizes.length := by
    have hbound := List.sum_le_card_nsmul _ _ hcap
    rw [nsmul_eq_mul, Nat.cast_id, hcapval] at hbound
    omega
  obtain ⟨hpos, hlt⟩ := @closestToHalfByBytes_bounds sizes (by omega)
  have hclose := closestToHalfByBytes_close (by omega) hcap (by omega)
  have hfirst := @sum_take_succ sizes 0 (by omega)
  have hcapFirst := hcap _ (List.getElem_mem (show 0 < sizes.length by omega))
  rw [List.take_zero, List.sum_nil, Nat.zero_add, Nat.zero_add] at hfirst
  generalize closestToHalfByBytes sizes = n at hpos hlt hclose
  have hparts := List.sum_take_add_sum_drop sizes n
  unfold absDiff at hclose
  refine ⟨?_, hlt, by omega, by omega⟩
  by_contra hone
  obtain rfl : n = 1 := by omega
  omega

namespace IndexBTree

/-- `use_append_split`: the leaf is the last of its parent and the key above its last. -/
def useAppendSplit (keys : List (List Value)) (key : List Value) (isRightmost : Bool) : Bool :=
  isRightmost && keys.getLast?.all fun last => compareKeys key last = .gt

/-- Where the append cut is made, the new entry is the last. -/
def AppendsAtEnd (keys : List (List Value)) (slot : Nat) (key : List Value) (isRightmost : Bool) :
    Prop :=
  useAppendSplit keys key isRightmost = true → slot = keys.length

/-- The leaf is cut: one cell goes up, and both halves have cells and fit a page. -/
def CutsWell (cells : List Payload) (keys : List (List Value)) (slot : Nat) (newCell : Payload)
    (key : List Value) (isRightmost : Bool) : Prop :=
  ∃ left promoted right,
    chooseSplit cells keys slot newCell key isRightmost = .ok (left, promoted, right) ∧
      left ≠ [] ∧ right ≠ [] ∧ fitsOneLeafIndexPage left ∧ fitsOneLeafIndexPage right

end IndexBTree

section Cut

variable {cells : List Payload} {keys : List (List Value)} {slot : Nat} {newCell : Payload}
  {key : List Value} {b : Bool}

/-- What cells take of a leaf. -/
def leafFootprint (p : Payload) : Nat := p.size + 2

theorem usedBytes_footprints (ps : List Payload) :
    (PageBody.indexLeaf ps).usedBytes = leafHeaderSize + (ps.map leafFootprint).sum := by
  have hsum : (ps.map leafFootprint).sum = 2 * ps.length + (ps.map Payload.size).sum := by
    induction ps with
    | nil => rfl
    | cons p ps ih =>
        rw [List.map_cons, List.map_cons, List.sum_cons, List.sum_cons, ih, List.length_cons,
          leafFootprint]
        omega
  rw [hsum, PageBody.usedBytes, PageBody.headerSize, PageBody.cellSizes, List.length_map]
  omega

theorem fits_footprints {ps : List Payload} (h : (ps.map leafFootprint).sum ≤ leafRoom) :
    IndexBTree.fitsOneLeafIndexPage ps = true := by
  have hroom : leafRoom = pageSize - leafHeaderSize := rfl
  have hheader : leafHeaderSize ≤ pageSize := by decide
  rw [IndexBTree.fitsOneLeafIndexPage, decide_eq_true_eq, usedBytes_footprints]
  omega

theorem sum_dropLast_le (ps : List Payload) :
    (ps.dropLast.map leafFootprint).sum ≤ (ps.map leafFootprint).sum :=
  ((List.dropLast_sublist ps).map leafFootprint).sum_le_sum fun _ _ => Nat.zero_le _

/-- The last cell of the left side goes up. -/
theorem chooseSplit_of_split {left right : List Payload} {sep : List Value} (hne : left ≠ [])
    (hcut : splitCells Payload.size (BTree.insertAt cells slot newCell)
      (BTree.insertAt keys slot key) (IndexBTree.useAppendSplit keys key b) = .ok (left, right, sep)) :
    IndexBTree.chooseSplit cells keys slot newCell key b =
      .ok (left.dropLast, left.getLast hne, right) := by
  rw [IndexBTree.useAppendSplit] at hcut
  simp only [IndexBTree.chooseSplit, hcut, bind, Except.bind, List.getLast?_eq_some_getLast hne]
  rfl

/-- What a cut leaves once the last cell of its left side is taken out. -/
theorem chooseSplit_of_cut {n : Nat} {sep : List Value} (htwo : 2 ≤ n)
    (hlt : n < (BTree.insertAt cells slot newCell).length)
    (hcut : splitCells Payload.size (BTree.insertAt cells slot newCell)
      (BTree.insertAt keys slot key) (IndexBTree.useAppendSplit keys key b) =
        .ok ((BTree.insertAt cells slot newCell).take n, (BTree.insertAt cells slot newCell).drop n,
          sep))
    (hleft : (((BTree.insertAt cells slot newCell).take n).dropLast.map leafFootprint).sum ≤ leafRoom)
    (hright : (((BTree.insertAt cells slot newCell).drop n).map leafFootprint).sum ≤ leafRoom) :
    IndexBTree.CutsWell cells keys slot newCell key b := by
  have hlength : ((BTree.insertAt cells slot newCell).take n).length = n := by
    rw [List.length_take]
    omega
  have hne : (BTree.insertAt cells slot newCell).take n ≠ [] := fun hnil => by
    rw [hnil, List.length_nil] at hlength
    omega
  have hchoose : IndexBTree.chooseSplit cells keys slot newCell key b =
      .ok (((BTree.insertAt cells slot newCell).take n).dropLast,
        ((BTree.insertAt cells slot newCell).take n).getLast hne,
        (BTree.insertAt cells slot newCell).drop n) := chooseSplit_of_split hne hcut
  refine ⟨_, _, _, hchoose, fun hnil => ?_, fun hnil => ?_, fits_footprints hleft,
    fits_footprints hright⟩
  · have hdrop := congrArg List.length hnil
    rw [List.length_dropLast, hlength, List.length_nil] at hdrop
    omega
  · have hdrop := List.drop_eq_nil_iff.mp hnil
    omega

/-- Two cells can be cut. -/
theorem chooseSplit_ok (hkeys : keys.length = cells.length) (hne : cells ≠ []) :
    ∃ left promoted right,
      IndexBTree.chooseSplit cells keys slot newCell key b = .ok (left, promoted, right) := by
  have hlen := length_insertAt cells slot newCell
  have hpos := List.length_pos_iff.mpr hne
  obtain ⟨n, sep, hone, hlt, -, -, -, hcut⟩ := @splitCells_spec _ _ Payload.size
    (BTree.insertAt cells slot newCell) (BTree.insertAt keys slot key)
    (IndexBTree.useAppendSplit keys key b) (by omega) (by rw [length_insertAt, hlen, hkeys])
  have hleft : (BTree.insertAt cells slot newCell).take n ≠ [] := fun hnil => by
    rcases List.take_eq_nil_iff.mp hnil with hzero | hnil
    · omega
    · rw [hnil, List.length_nil] at hlt
      omega
  exact ⟨_, _, _, chooseSplit_of_split hleft hcut⟩

/-- A leaf without cells is not full. -/
theorem ne_nil_of_full (hcap : leafFootprint newCell ≤ indexLeafCap)
    (hfull : (PageBody.indexLeaf cells).fits newCell.size = false) : cells ≠ [] := by
  rintro rfl
  have hempty : (PageBody.indexLeaf []).usedBytes = leafHeaderSize := rfl
  have hpage : leafHeaderSize + indexLeafCap ≤ pageSize := by decide
  rw [leafFootprint] at hcap
  rw [PageBody.fits, decide_eq_false_iff_not, hempty] at hfull
  omega

/-- A full leaf is cut well, unless the append cut is made around an entry that is not the
last. -/
theorem cutsWell (hkeys : keys.length = cells.length)
    (hcap : ∀ p ∈ BTree.insertAt cells slot newCell, leafFootprint p ≤ indexLeafCap)
    (hold : (PageBody.indexLeaf cells).usedBytes ≤ pageSize)
    (hfull : (PageBody.indexLeaf cells).fits newCell.size = false)
    (hend : IndexBTree.AppendsAtEnd keys slot key b) :
    IndexBTree.CutsWell cells keys slot newCell key b := by
  have hroom : leafRoom = 4088 := rfl
  have hcapval : indexLeafCap = 1017 := rfl
  have hpage : pageSize = leafHeaderSize + leafRoom := by decide
  have hlen := length_insertAt cells slot newCell
  have htotal : ((BTree.insertAt cells slot newCell).map leafFootprint).sum =
      (cells.map leafFootprint).sum + leafFootprint newCell := by
    rw [← insertAt_map, sum_insertAt, Nat.add_comm]
  have hsizes : ∀ x ∈ (BTree.insertAt cells slot newCell).map leafFootprint, x ≤ indexLeafCap := by
    intro x hx
    obtain ⟨p, hp, rfl⟩ := List.mem_map.mp hx
    exact hcap p hp
  have hnew : leafFootprint newCell ≤ indexLeafCap :=
    hcap _ (List.mem_append_right _ (List.mem_cons_self ..))
  have hfoot : leafFootprint newCell = newCell.size + 2 := rfl
  rw [usedBytes_footprints] at hold
  rw [PageBody.fits, decide_eq_false_iff_not, usedBytes_footprints] at hfull
  have hbound := List.sum_le_card_nsmul _ _ hsizes
  rw [List.length_map, nsmul_eq_mul, Nat.cast_id, hcapval] at hbound
  obtain ⟨n, sep, -, hlt, -, happend, hclosest, hcut⟩ := @splitCells_spec _ _ Payload.size
    (BTree.insertAt cells slot newCell) (BTree.insertAt keys slot key)
    (IndexBTree.useAppendSplit keys key b) (by omega) (by rw [length_insertAt, hlen, hkeys])
  cases hcase : IndexBTree.useAppendSplit keys key b with
  | true =>
      obtain rfl : slot = cells.length := hkeys ▸ hend hcase
      obtain rfl : n = cells.length := by
        have := happend hcase
        omega
      have happended : BTree.insertAt cells cells.length newCell = cells ++ [newCell] := by
        rw [BTree.insertAt, List.take_length, List.drop_length]
      refine chooseSplit_of_cut (by omega) hlt hcut ?_ ?_
      · rw [happended, List.take_left]
        exact (sum_dropLast_le cells).trans (by omega)
      · rw [happended, List.drop_left, List.map_singleton, List.sum_singleton]
        omega
  | false =>
      obtain ⟨htwo, -, hleft, hright⟩ := closest_halves_fit hsizes (by omega) (by omega)
      have hn : n = closestToHalfByBytes ((BTree.insertAt cells slot newCell).map leafFootprint) :=
        hclosest hcase
      rw [← hn] at htwo hleft hright
      rw [← List.map_take] at hleft
      rw [← List.map_drop] at hright
      exact chooseSplit_of_cut htwo hlt hcut ((sum_dropLast_le _).trans hleft) hright

end Cut

end QuillDb
