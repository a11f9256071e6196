/-
  BTree/Split.lean --- where a full page is cut.

  Source: `quilldb/btree/split.py`.

  A leaf is cut in two; an interior page loses one cell to its parent.  Both cuts
  go by bytes (a cell's length and its 2-byte pointer), the last of the best cuts
  winning.  An interior page that overflowed by one cell always has a cut whose
  halves fit, because its cells are small.
-/
import QuillDb.BTree.Cells
import Mathlib.Algebra.Order.BigOperators.Group.List
import Mathlib.Tactic.Linarith

set_option autoImplicit false

namespace QuillDb

/-! ## The closest candidate -/

/-- The loop `if best_diff is None or diff <= best_diff`: the last candidate with
the least difference. -/
def lastClosest : List (Nat × Nat) → Nat → Option Nat → Nat
  | [], best, _ => best
  | (c, d) :: rest, best, bestDiff =>
      if bestDiff.all fun b => d ≤ b then lastClosest rest c (some d)
      else lastClosest rest best bestDiff

/-- `abs(a - b)`. -/
def absDiff (a b : Nat) : Nat := (a - b) + (b - a)

/-- `_closest_to_half_by_bytes` of the footprints (twice the difference from
half the total, to stay with integers). -/
def closestToHalfByBytes (sizes : List Nat) : Nat :=
  lastClosest ((List.range' 1 (sizes.length - 1)).map fun leftSize =>
    (leftSize, absDiff (2 * (sizes.take leftSize).sum) sizes.sum)) 1 none

/-- `_consume_closest_to_half_by_bytes` of the footprints. -/
def consumeClosestToHalfByBytes (sizes : List Nat) : Nat :=
  lastClosest ((List.range sizes.length).map fun m =>
    (m, absDiff ((sizes.take m).sum + (sizes.take (m + 1)).sum) sizes.sum)) 0 none

/-- `split_cells`. -/
def splitCells {α κ : Type} (size : α → Nat) (cells : List α) (keys : List κ)
    (isRightmost : Bool) : Except DbError (List α × List α × κ) :=
  if cells.length < 2 then .error (.valueError "Cannot split a leaf with only 1 cell")
  else
    let leftSize := if isRightmost then cells.length - 1
      else closestToHalfByBytes (cells.map fun c => size c + 2)
    match keys[leftSize - 1]? with
    | some separator => .ok (cells.take leftSize, cells.drop leftSize, separator)
    | none => .error (.indexError "list index out of range")

/-- What `split_interior_cells` returns. -/
structure InteriorSplit (κ : Type) where
  leftCells : List (InteriorCell κ)
  leftRightChild : Nat
  rightCells : List (InteriorCell κ)
  rightRightChild : Nat
  separator : κ

/-- `split_interior_cells`; the keys and children are those of the cells. -/
def splitInteriorCells {κ : Type} (keySize : κ → Nat) (cells : List (InteriorCell κ))
    (rightChild : Nat) (isRightmost : Bool) : Except DbError (InteriorSplit κ) :=
  if cells.length < 3 then .error (.valueError "not enough cells to split an interior page")
  else
    let m := if isRightmost then cells.length - 2
      else min (max (consumeClosestToHalfByBytes (cells.map fun c => c.size keySize + 2)) 1)
        (cells.length - 2)
    match cells[m]? with
    | some c => .ok ⟨cells.take m, c.child, cells.drop (m + 1), rightChild, c.key⟩
    | none => .error (.indexError "list index out of range")

/-! ## Least differences -/

theorem lastClosest_spec (cs : List (Nat × Nat)) (best : Nat) (bestDiff : Option Nat)
    (h : cs ≠ [] ∨ bestDiff ≠ none) :
    ∃ d, ((lastClosest cs best bestDiff, d) ∈ cs ∨
        lastClosest cs best bestDiff = best ∧ bestDiff = some d) ∧
      (∀ c ∈ cs, d ≤ c.2) ∧ ∀ b, bestDiff = some b → d ≤ b := by
  induction cs generalizing best bestDiff with
  | nil =>
      obtain ⟨d, hd⟩ := Option.ne_none_iff_exists'.mp (h.resolve_left fun hne => hne rfl)
      refine ⟨d, .inr ⟨rfl, hd⟩, fun c hc => ?_, fun b hb => ?_⟩
      · cases hc
      · rw [hd] at hb
        exact (Option.some.inj hb).le
  | cons c cs ih =>
      obtain ⟨c, d⟩ := c
      rw [lastClosest]
      split
      · rename_i hle
        obtain ⟨d', hmem, hmin, hbest⟩ := @ih c (some d)
          (.inr (Option.some_ne_none d))
        have hd := hbest d rfl
        refine ⟨d', .inl ?_, fun x hx => ?_, fun b hb => ?_⟩
        · rcases hmem with hmem | ⟨heq, hd'⟩
          · exact List.mem_cons_of_mem _ hmem
          · rw [heq, Option.some.inj hd']
            exact List.mem_cons_self ..
        · rcases List.mem_cons.mp hx with rfl | hx
          · exact hd
          · exact hmin x hx
        · rw [hb] at hle
          have : d ≤ b := of_decide_eq_true hle
          omega
      · rename_i hlt
        have hsome : bestDiff ≠ none := by
          rintro rfl
          exact hlt rfl
        obtain ⟨b, hb⟩ := Option.ne_none_iff_exists'.mp hsome
        obtain ⟨d', hmem, hmin, hbest⟩ := @ih best bestDiff (.inr hsome)
        have hd := hbest b hb
        refine ⟨d', ?_, fun x hx => ?_, hbest⟩
        · rcases hmem with hmem | hmem
          · exact .inl (List.mem_cons_of_mem _ hmem)
          · exact .inr hmem
        · rcases List.mem_cons.mp hx with rfl | hx
          · rw [hb, Option.all_some, decide_eq_true_eq] at hlt
            simp only
            omega
          · exact hmin x hx

theorem closestToHalfByBytes_bounds {sizes : List Nat} (h : 2 ≤ sizes.length) :
    1 ≤ closestToHalfByBytes sizes ∧ closestToHalfByBytes sizes < sizes.length := by
  obtain ⟨d, hmem, -, -⟩ := lastClosest_spec
    ((List.range' 1 (sizes.length - 1)).map fun leftSize =>
      (leftSize, absDiff (2 * (sizes.take leftSize).sum) sizes.sum)) 1 none (.inl (by
        rw [Ne, List.map_eq_nil_iff, List.range'_eq_nil_iff]
        omega))
  rcases hmem with hmem | ⟨-, hnone⟩
  · obtain ⟨k, hk, heq⟩ := List.mem_map.mp hmem
    rw [closestToHalfByBytes, ← (Prod.mk.inj heq).1]
    have := List.mem_range'_1.mp hk
    omega
  · cases hnone

/-- The cut closest to half leaves both sides within `room` when any cut does:
its larger side is the smallest that there is. -/
theorem closestToHalfByBytes_fits {sizes : List Nat} {room n : Nat} (hlen : 2 ≤ sizes.length)
    (hleft : (sizes.take n).sum ≤ room) (hright : (sizes.drop n).sum ≤ room) :
    (sizes.take (closestToHalfByBytes sizes)).sum ≤ room ∧
      (sizes.drop (closestToHalfByBytes sizes)).sum ≤ room := by
  have hparts := List.sum_take_add_sum_drop sizes
  -- a cut that leaves one side empty may as well be made beside an end
  obtain ⟨m, hpos, hlt, hm, hm'⟩ : ∃ m, 1 ≤ m ∧ m < sizes.length ∧
      (sizes.take m).sum ≤ room ∧ (sizes.drop m).sum ≤ room := by
    have hsum := hparts n
    have hsum₁ := hparts 1
    by_cases hin : 1 ≤ n ∧ n < sizes.length
    · exact ⟨n, hin.1, hin.2, hleft, hright⟩
    · have htotal : sizes.sum ≤ room := by
        rcases Nat.eq_zero_or_pos n with rfl | hn
        · rwa [List.drop_zero] at hright
        · rwa [List.take_of_length_le (by omega)] at hleft
      exact ⟨1, Nat.le_refl 1, by omega, by omega, by omega⟩
  obtain ⟨d, hmem, hmin, -⟩ := lastClosest_spec
    ((List.range' 1 (sizes.length - 1)).map fun leftSize =>
      (leftSize, absDiff (2 * (sizes.take leftSize).sum) sizes.sum)) 1 none (.inl (by
        rw [Ne, List.map_eq_nil_iff, List.range'_eq_nil_iff]
        omega))
  have hmem := hmem.resolve_right fun h => by cases h.2
  obtain ⟨k, -, heq⟩ := List.mem_map.mp hmem
  obtain ⟨hk, hd⟩ := Prod.mk.inj heq
  have hle : d ≤ absDiff (2 * (sizes.take m).sum) sizes.sum :=
    hmin _ (List.mem_map.mpr ⟨m, List.mem_range'_1.mpr ⟨hpos, by omega⟩, rfl⟩)
  have hsum := hparts k
  have hsum' := hparts m
  rw [closestToHalfByBytes, ← hk]
  unfold absDiff at hd hle
  omega

/-- Taking one more. -/
theorem sum_take_succ {sizes : List Nat} {m : Nat} (hm : m < sizes.length) :
    (sizes.take (m + 1)).sum = (sizes.take m).sum + sizes[m] := by
  rw [List.take_succ_eq_append_getElem hm, List.sum_append, List.sum_singleton]

/-- The cut closest to half leaves the sides within the largest footprint of each other. -/
theorem closestToHalfByBytes_close {sizes : List Nat} {cap : Nat} (hlen : 2 ≤ sizes.length)
    (hcap : ∀ x ∈ sizes, x ≤ cap) (hsum : 2 * cap ≤ sizes.sum) :
    absDiff (2 * (sizes.take (closestToHalfByBytes sizes)).sum) sizes.sum ≤ cap := by
  obtain ⟨d, hmem, hmin, -⟩ := lastClosest_spec
    ((List.range' 1 (sizes.length - 1)).map fun leftSize =>
      (leftSize, absDiff (2 * (sizes.take leftSize).sum) sizes.sum)) 1 none (.inl (by
        rw [Ne, List.map_eq_nil_iff, List.range'_eq_nil_iff]
        omega))
  have hmem := hmem.resolve_right fun h => by cases h.2
  obtain ⟨k, -, heq⟩ := List.mem_map.mp hmem
  obtain ⟨hk, hd⟩ := Prod.mk.inj heq
  rw [closestToHalfByBytes, ← hk, hd]
  have hle : ∀ m, 1 ≤ m → m < sizes.length → d ≤ absDiff (2 * (sizes.take m).sum) sizes.sum :=
    fun m hpos hm => hmin _ (List.mem_map.mpr ⟨m, List.mem_range'_1.mpr ⟨hpos, by omega⟩, rfl⟩)
  -- the first cut whose left side reaches half, and the one before it
  have hex : ∃ m, m ≤ sizes.length ∧ sizes.sum ≤ 2 * (sizes.take m).sum :=
    ⟨sizes.length, Nat.le_refl _, by rw [List.take_length]; omega⟩
  classical
  obtain ⟨hm, hge⟩ := Nat.find_spec hex
  have hbefore := fun j (hj : j < Nat.find hex) => Nat.find_min hex hj
  generalize Nat.find hex = m at hm hge hbefore
  have hfirst := @sum_take_succ sizes 0 (by omega)
  have hcapFirst := hcap _ (List.getElem_mem (show 0 < sizes.length by omega))
  have hdFirst := hle 1 (Nat.le_refl 1) (by omega)
  rw [List.take_zero, List.sum_nil, Nat.zero_add, Nat.zero_add] at hfirst
  rcases Nat.lt_or_ge m 2 with hsmall | hlarge
  · rcases Nat.lt_or_ge m 1 with hzero | hone
    · obtain rfl : m = 0 := by omega
      rw [List.take_zero, List.sum_nil] at hge
      unfold absDiff at hdFirst
      omega
    · obtain rfl : m = 1 := by omega
      unfold absDiff at hdFirst
      omega
  · obtain ⟨j, rfl⟩ : ∃ j, m = j + 1 := ⟨m - 1, by omega⟩
    have hlt : 2 * (sizes.take j).sum < sizes.sum := by
      by_contra hnot
      exact hbefore j (Nat.lt_succ_self j) ⟨by omega, by omega⟩
    have hsucc := @sum_take_succ sizes j (by omega)
    have hcapj := hcap _ (List.getElem_mem (show j < sizes.length by omega))
    have hdj := hle j (by omega) (by omega)
    unfold absDiff at hdj
    rcases Nat.lt_or_ge (j + 1) sizes.length with hin | hend
    · have hdm := hle (j + 1) (by omega) hin
      unfold absDiff at hdm
      omega
    · rw [List.take_of_length_le (by omega)] at hsucc
      omega

/-- The cut of a leaf: both sides are nonempty and the separator is the last key
of the left one. -/
theorem splitCells_spec {α κ : Type} {size : α → Nat} {cells : List α} {keys : List κ}
    {isRightmost : Bool} (hlen : 2 ≤ cells.length) (hkeys : keys.length = cells.length) :
    ∃ n separator, 1 ≤ n ∧ n < cells.length ∧ keys[n - 1]? = some separator ∧
      (isRightmost = true → n = cells.length - 1) ∧
      (isRightmost = false → n = closestToHalfByBytes (cells.map fun c => size c + 2)) ∧
      splitCells size cells keys isRightmost = .ok (cells.take n, cells.drop n, separator) := by
  unfold splitCells
  rw [if_neg (by omega)]
  simp only
  generalize hn : (if isRightmost = true then cells.length - 1
    else closestToHalfByBytes (cells.map fun c => size c + 2)) = n
  have hbounds : 1 ≤ n ∧ n < cells.length := by
    split at hn
    · omega
    · have := @closestToHalfByBytes_bounds (cells.map fun c => size c + 2)
        (by rwa [List.length_map])
      rw [List.length_map] at this
      omega
  have hlt : n - 1 < keys.length := by omega
  have hkey : keys[n - 1]? = some keys[n - 1] := List.getElem?_eq_getElem hlt
  refine ⟨n, keys[n - 1], hbounds.1, hbounds.2, hkey, fun hright => ?_, fun hright => ?_, ?_⟩
  · rw [if_pos hright] at hn
    exact hn.symm
  · rw [hright, if_neg Bool.false_ne_true] at hn
    exact hn.symm
  · rw [hkey]

/-! ## Interior cuts -/

/-- The cell whose removal leaves the halves closest leaves them within the
largest footprint of each other. -/
theorem consumeClosest_spec {sizes : List Nat} {cap : Nat} (hcap : ∀ x ∈ sizes, x ≤ cap)
    (hne : sizes ≠ []) :
    consumeClosestToHalfByBytes sizes < sizes.length ∧
      absDiff ((sizes.take (consumeClosestToHalfByBytes sizes)).sum +
        (sizes.take (consumeClosestToHalfByBytes sizes + 1)).sum) sizes.sum ≤ cap := by
  have hlen : 0 < sizes.length := List.length_pos_iff.mpr hne
  obtain ⟨d, hmem, hmin, -⟩ := lastClosest_spec
    ((List.range sizes.length).map fun m =>
      (m, absDiff ((sizes.take m).sum + (sizes.take (m + 1)).sum) sizes.sum)) 0 none (.inl (by
        rw [Ne, List.map_eq_nil_iff, List.range_eq_nil]
        omega))
  have hmem := hmem.resolve_right fun h => by cases h.2
  obtain ⟨k, hk, heq⟩ := List.mem_map.mp hmem
  obtain ⟨hk', hd⟩ := Prod.mk.inj heq
  rw [consumeClosestToHalfByBytes, ← hk', hd]
  refine ⟨List.mem_range.mp hk, ?_⟩
  -- the signed difference starts at most 0 and ends at least 0, in steps of 2 * cap
  have hle : ∀ m, m < sizes.length →
      d ≤ absDiff ((sizes.take m).sum + (sizes.take (m + 1)).sum) sizes.sum :=
    fun m hm => hmin _ (List.mem_map.mpr ⟨m, List.mem_range.mpr hm, rfl⟩)
  have hlast : sizes.sum ≤
      (sizes.take (sizes.length - 1)).sum + (sizes.take (sizes.length - 1 + 1)).sum := by
    rw [Nat.sub_add_cancel hlen, List.take_length]
    omega
  have hex : ∃ m, m < sizes.length ∧
      sizes.sum ≤ (sizes.take m).sum + (sizes.take (m + 1)).sum := ⟨_, by omega, hlast⟩
  classical
  obtain ⟨hm, hge⟩ := Nat.find_spec hex
  have hbefore := fun j (hj : j < Nat.find hex) => Nat.find_min hex hj
  generalize Nat.find hex = m at hm hge hbefore
  have hcapm := hcap _ (List.getElem_mem hm)
  have hsucc := sum_take_succ hm
  have hdm := hle m hm
  rcases Nat.eq_zero_or_pos m with rfl | hpos
  · rw [List.take_zero, List.sum_nil] at hsucc hge hdm
    have htotal : (sizes.take 1).sum ≤ sizes.sum :=
      (List.take_sublist 1 sizes).sum_le_sum fun _ _ => Nat.zero_le _
    unfold absDiff at hdm
    omega
  · obtain ⟨j, rfl⟩ : ∃ j, m = j + 1 := ⟨m - 1, by omega⟩
    have hj := hbefore j (Nat.lt_succ_self j)
    have hdj := hle j (by omega)
    have hsuccj := @sum_take_succ sizes j (by omega)
    have hcapj := hcap _ (List.getElem_mem (show j < sizes.length by omega))
    have hlt : (sizes.take j).sum + (sizes.take (j + 1)).sum < sizes.sum := by
      by_contra hnot
      exact hj ⟨by omega, by omega⟩
    unfold absDiff at hdm hdj
    omega

/-- What a cell takes of an interior page: its bytes and its pointer. -/
def InteriorCell.footprint {κ : Type} (keySize : κ → Nat) (c : InteriorCell κ) : Nat :=
  c.size keySize + 2

/-- The bytes of an interior page that cells may take. -/
def interiorRoom : Nat := pageSize - interiorHeaderSize

/-- No interior cell takes more than this: an index cell with a spilled key. -/
def interiorCap : Nat := 1021

/-- The middle that `split_interior_cells` picks leaves halves that fit. -/
theorem consumed_halves_fit {sizes : List Nat} {m : Nat} (hcap : ∀ x ∈ sizes, x ≤ interiorCap)
    (hlen : 3 ≤ sizes.length) (hsum : sizes.sum ≤ interiorRoom + interiorCap)
    (hm : m = min (max (consumeClosestToHalfByBytes sizes) 1) (sizes.length - 2)) :
    (sizes.take m).sum ≤ interiorRoom ∧ (sizes.drop (m + 1)).sum ≤ interiorRoom := by
  have hroom : interiorRoom = 4084 := rfl
  have hcapval : interiorCap = 1021 := rfl
  have hne : sizes ≠ [] := fun heq => by
    rw [heq] at hlen
    exact absurd hlen (by decide)
  obtain ⟨hlt, hclose⟩ := consumeClosest_spec hcap hne
  generalize consumeClosestToHalfByBytes sizes = c at hlt hclose hm
  have hsplit := List.sum_take_add_sum_drop sizes
  have hcells : ∀ i (hi : i < sizes.length), sizes[i] ≤ 1021 :=
    fun i hi => hcap _ (List.getElem_mem hi)
  rw [hroom]
  rw [hroom, hcapval] at hsum
  rw [hcapval] at hclose
  unfold absDiff at hclose
  rcases Nat.eq_zero_or_pos c with rfl | hpos
  · -- the cut would leave nothing on the left
    obtain rfl : m = 1 := by omega
    have h₁ := @sum_take_succ sizes 0 (by omega)
    have h₂ := @sum_take_succ sizes 1 (by omega)
    have hfirst := hcells 0 (by omega)
    have hsplit₁ := hsplit 1
    have hsplit₂ := hsplit 2
    simp only [List.take_zero, List.sum_nil, Nat.zero_add, Nat.reduceAdd] at h₁ h₂ hclose ⊢
    constructor <;> omega
  · by_cases hend : c ≤ sizes.length - 2
    · obtain rfl : m = c := by omega
      have := hsplit (m + 1)
      have := @sum_take_succ sizes m (by omega)
      constructor <;> omega
    · -- the cut would leave nothing on the right
      obtain ⟨n, hn⟩ : ∃ n, sizes.length = n + 2 := ⟨sizes.length - 2, by omega⟩
      obtain rfl : m = n := by omega
      obtain rfl : c = m + 1 := by omega
      have h₁ := @sum_take_succ sizes m (by omega)
      have h₂ := @sum_take_succ sizes (m + 1) (by omega)
      have hlast := hcells (m + 1) (by omega)
      have hfull : (sizes.take (m + 1 + 1)).sum = sizes.sum := by
        rw [List.take_of_length_le (by omega)]
      have hsplit₁ := hsplit (m + 1)
      constructor <;> omega

/-- An interior page that overflowed by one cell splits into halves that fit,
neither of them empty. -/
theorem splitInteriorCells_spec {κ : Type} {keySize : κ → Nat} {cells : List (InteriorCell κ)}
    (rightChild : Nat) {isRightmost : Bool}
    (hcap : ∀ c ∈ cells, c.footprint keySize ≤ interiorCap)
    (hover : interiorRoom < (cells.map (InteriorCell.footprint keySize)).sum)
    (hsum : (cells.map (InteriorCell.footprint keySize)).sum ≤ interiorRoom + interiorCap)
    (happend : isRightmost = true →
      ((cells.map (InteriorCell.footprint keySize)).take (cells.length - 1)).sum ≤ interiorRoom) :
    ∃ left c right, cells = left ++ c :: right ∧ left ≠ [] ∧ right ≠ [] ∧
      (left.map (InteriorCell.footprint keySize)).sum ≤ interiorRoom ∧
      (right.map (InteriorCell.footprint keySize)).sum ≤ interiorRoom ∧
      splitInteriorCells keySize cells rightChild isRightmost =
        .ok ⟨left, c.child, right, rightChild, c.key⟩ := by
  have hroom : interiorRoom = 4084 := rfl
  have hcapval : interiorCap = 1021 := rfl
  have hcap' : ∀ x ∈ cells.map (InteriorCell.footprint keySize), x ≤ interiorCap := by
    intro x hx
    obtain ⟨c, hc, rfl⟩ := List.mem_map.mp hx
    exact hcap c hc
  have hlen : 5 ≤ cells.length := by
    have hbound := List.sum_le_card_nsmul _ _ hcap'
    rw [List.length_map, nsmul_eq_mul, Nat.cast_id, hcapval] at hbound
    rw [hroom] at hover
    omega
  have hfun : (cells.map fun c => c.size keySize + 2) =
      cells.map (InteriorCell.footprint keySize) := rfl
  unfold splitInteriorCells
  rw [if_neg (by omega), hfun]
  simp only
  generalize hm : (if isRightmost = true then cells.length - 2
    else min (max (consumeClosestToHalfByBytes (cells.map (InteriorCell.footprint keySize))) 1)
      (cells.length - 2)) = m
  have hbounds : 1 ≤ m ∧ m + 1 < cells.length := by
    split at hm <;> omega
  have hfits : ((cells.map (InteriorCell.footprint keySize)).take m).sum ≤ interiorRoom ∧
      ((cells.map (InteriorCell.footprint keySize)).drop (m + 1)).sum ≤ interiorRoom := by
    split at hm
    · -- the append cut peels the new cell alone
      rename_i hright
      have hpeel := happend hright
      obtain ⟨n, hn⟩ : ∃ n, cells.length = n + 2 := ⟨cells.length - 2, by omega⟩
      obtain rfl : m = n := by omega
      have hsplit := List.sum_take_add_sum_drop (cells.map (InteriorCell.footprint keySize)) (m + 1)
      have hsucc := @sum_take_succ (cells.map (InteriorCell.footprint keySize)) m (by
        rw [List.length_map]
        omega)
      have hsucc' := @sum_take_succ (cells.map (InteriorCell.footprint keySize)) (m + 1) (by
        rw [List.length_map]
        omega)
      have hlast := hcap' _ (List.getElem_mem (show m + 1 <
        (cells.map (InteriorCell.footprint keySize)).length by rw [List.length_map]; omega))
      have hfull : ((cells.map (InteriorCell.footprint keySize)).take (m + 1 + 1)).sum =
          (cells.map (InteriorCell.footprint keySize)).sum := by
        rw [List.take_of_length_le (by rw [List.length_map]; omega)]
      rw [show cells.length - 1 = m + 1 by omega] at hpeel
      rw [hcapval] at hlast
      rw [hroom] at hpeel ⊢
      constructor <;> omega
    · refine consumed_halves_fit hcap' (by rw [List.length_map]; omega) hsum ?_
      rw [List.length_map]
      exact hm.symm
  rw [← List.map_take, ← List.map_drop] at hfits
  have hlt : m < cells.length := by omega
  have hget : cells[m]? = some cells[m] := List.getElem?_eq_getElem hlt
  refine ⟨cells.take m, cells[m], cells.drop (m + 1), ?_, ?_, ?_, hfits.1, hfits.2, ?_⟩
  · rw [List.getElem_cons_drop, List.take_append_drop]
  · rw [Ne, List.take_eq_nil_iff]
    rintro (h | h)
    · omega
    · rw [h, List.length_nil] at hlen
      omega
  · rw [Ne, List.drop_eq_nil_iff]
    omega
  · rw [hget]

end QuillDb
