/-
  BTree/InsertRoom.lean --- when an insertion finds no room.

  Source: `BTree.insert` and `BTree._split_leaf` of `quilldb/btree/btree.py`,
  `split_cells` of `quilldb/btree/split.py`.

  A leaf takes a row, or it splits, or it raises before anything is written.  It
  raises exactly when no cut of its cells fits two pages: the cut closest to half
  the bytes has the smallest larger side, and the one that peels the new row off
  the end always fits.
-/
import QuillDb.BTree.TableRun

set_option autoImplicit false

namespace QuillDb

open Prog PageStore PageTree

/-! ## What is raised -/

/-- The exceptions of an insertion into a leaf, and the store they leave. -/
inductive InsertRaises (s : PageStore) (k : Int) (payload : Bytes) (rows : List Row) :
    DbError → PageStore → Prop
  | fileFull (s' : PageStore) : InsertRaises s k payload rows tooBig s'
  | tooLong (e : DbError) (h : checkUvarint payload.length = .error e) :
      InsertRaises s k payload rows e s
  | duplicate (h : ¬ Absent k rows) :
      InsertRaises s k payload rows (.duplicateRowId "Duplicate row id") s
  | full (message : String) (habsent : Absent k rows)
      (hcheck : checkUvarint payload.length = .ok ()) (h : ¬ Cuttable (combinedCells k payload rows)) :
      InsertRaises s k payload rows (.pageFull message) s

section Raises

variable {s s' : PageStore} {root : Nat} {others : Image} {H : Nat} {T : TableTree H} {k : Int}
variable {c : Ctx Row Int 0} {l : Leaf Row} {payload : Bytes} {rows : List Row} {e : DbError}

theorem checkUvarint_error {n : Nat} (h : checkUvarint n = .error e) :
    ∃ message, e = .valueError message := by
  unfold checkUvarint at h
  split at h
  · cases h
  · exact ⟨_, (Except.error.inj h).symm⟩

theorem insertErrors_insertRaises (s : PageStore) (root : Nat) (others : Image) (T : TableTree H)
    (k : Int) (payload : Bytes) (rows : List Row) :
    InsertErrors (InsertRaises s k payload rows) s root others T k payload rows :=
  ⟨.inr fun _ _ _ => .fileFull _, .tooLong, .duplicate, .full⟩

/-- What an insertion that raised did raise. -/
theorem insert_raises (ht : TableAt s root others T) (hr : Reached k T c l)
    (hfind : BTree.findLeaf root k s = (.ok ((l.id, leafSlot k l.items) :: c.path), s))
    (h : BTree.insert root k payload s = (.error e, s')) :
    InsertRaises s k payload l.items e s' := by
  have hpost := insert_post_of ht hr hfind
    (insertErrors_insertRaises s root others T k payload l.items)
  unfold Post at hpost
  rwa [h] at hpost

/-- With room in the leaf there is a cut: nothing on the right. -/
theorem cuttable_of_fits {cells : List TableLeafCell} (h : FitLeaf cells) : Cuttable cells :=
  ⟨cells, [], (List.append_nil _).symm, h, Nat.le_of_ble_eq_true rfl⟩

/-- The leaf that has no cut raises. -/
theorem insert_full (ht : TableAt s root others T) (hr : Reached k T c l)
    (hfind : BTree.findLeaf root k s = (.ok ((l.id, leafSlot k l.items) :: c.path), s))
    (habsent : Absent k l.items) (hcheck : checkUvarint payload.length = .ok ())
    (hcut : ¬ Cuttable (combinedCells k payload l.items)) :
    Post (BTree.insert root k payload) s (fun _ _ => False)
      fun e _ => ∃ message, e = .pageFull message := by
  have hleaf := leafCells_live ht.live fun p hp => List.mem_append_left _ (hr.leaf_subset hp)
  have hparent := readParent_live ht.live fun p hp => List.mem_append_left _ (hr.ctx_subset hp)
  have hfull : ¬ FitLeaf (combinedCells k payload l.items) := fun h => hcut (cuttable_of_fits h)
  have hencode : ∀ {Q : TableLeafCell → PageStore → Prop}
      {E : DbError → PageStore → Prop}, Q ⟨k, placeholder .leafTable payload⟩ s →
      Post (lift (encodeLeafTableCell k (placeholder .leafTable payload))) s Q E :=
    fun hQ => post_encodeCandidate (fun e he => by rw [hcheck] at he; cases he) fun _ => hQ
  rw [BTree.insert, post_bind]
  refine Post.of_eq hfind ?_
  simp only
  rw [post_bind]
  refine Post.of_eq hleaf ?_
  rw [post_bind, post_raiseIf]
  refine ⟨fun hfound => absurd hfound (absent_iff.mp habsent), fun _ => ?_⟩
  rw [post_bind]
  refine hencode ?_
  rw [if_neg fun hfits => hfull ((fits_candidate k payload l.items).mp hfits), BTree.splitLeaf,
    post_bind]
  refine Post.of_eq hparent ?_
  rw [post_bind]
  refine Post.of_eq hleaf ?_
  rw [post_bind]
  refine hencode ?_
  obtain ⟨n, sep, -, -, -, -, hchoose⟩ := hr.chooseSplit ht habsent payload hfull
    ((parentOf c l.id).all BTree.Parent.isRightmost)
  rw [hchoose, post_bind, post_lift_ok]
  simp only
  rw [post_bind, post_raiseIf]
  refine ⟨fun _ => ⟨_, rfl⟩, fun hfit => ?_⟩
  obtain ⟨hleft, hright⟩ := not_not.mp hfit
  have hleft := of_decide_eq_true hleft
  have hright := of_decide_eq_true hright
  exact absurd ⟨_, _, (List.take_append_drop n _).symm, hleft, hright⟩ hcut

end Raises

/-! ## The refusals of a reachable tree -/

/-- `insert` raises `PageFullError`. -/
def RaisesPageFull (root : Nat) (k : Int) (payload : Bytes) (s : PageStore) : Prop :=
  ∃ message s', BTree.insert root k payload s = (.error (.pageFull message), s')

/-- `PageFullError` or `DuplicateRowIDError`. -/
def DbError.IsRefusal (e : DbError) : Prop :=
  (∃ message, e = .pageFull message) ∨ ∃ message, e = .duplicateRowId message

/-- How an insertion into the leaf of `cells` is refused: for want of a cut, with the
store as it was, and never at an end of the leaf. -/
structure InsertRefusals (s : PageStore) (root : Nat) {h : Nat} (t : TableTree h) (slot : Nat)
    (cells : List TableLeafCell) (k : Int) (payload : Bytes) : Prop where
  pageFull : (∀ row ∈ t.items, row.rowid ≠ k) → (RaisesPageFull root k payload s ↔
    ∃ cell, encodeLeafTableCell k (placeholder .leafTable payload) = .ok cell ∧
      ¬ (PageBody.tableLeaf cells).fits cell.size ∧ ¬ Cuttable (BTree.insertAt cells slot cell))
  unchanged : ∀ e s', BTree.insert root k payload s = (.error e, s') → e.IsRefusal → s' = s
  ends : (∀ c ∈ cells, k < c.rowid) ∨ (∀ c ∈ cells, c.rowid < k) →
    ∀ e s', BTree.insert root k payload s = (.error e, s') →
      e = tooBig ∨ checkUvarint payload.length = .error e
  cut : ∀ cell, (∀ row ∈ t.items, row.rowid ≠ k) →
    encodeLeafTableCell k (placeholder .leafTable payload) = .ok cell →
    ¬ (PageBody.tableLeaf cells).fits cell.size → Cuttable (BTree.insertAt cells slot cell) →
    ∀ isRightmost, ∃ left right sep,
      BTree.chooseSplit cells slot cell isRightmost = .ok (left, right, sep) ∧
        BTree.fitsOneLeafPage left ∧ BTree.fitsOneLeafPage right

section Refusals

variable {s : PageStore} {root : Nat} {others : Image} {H : Nat} {T : TableTree H} {k : Int}
variable {c : Ctx Row Int 0} {l : Leaf Row}

theorem encoded_placeholder {payload : Bytes} {cell : TableLeafCell} :
    encodeLeafTableCell k (placeholder .leafTable payload) = .ok cell ↔
      checkUvarint payload.length = .ok () ∧ cell = ⟨k, placeholder .leafTable payload⟩ := by
  rw [encodeLeafTableCell_placeholder]
  cases checkUvarint payload.length with
  | error e => exact iff_of_false nofun nofun
  | ok u => exact ⟨fun h => ⟨rfl, (Except.ok.inj h).symm⟩, fun h => congrArg Except.ok h.2.symm⟩

/-- A row that goes before or behind the others leaves a cut beside it. -/
theorem Reached.cuttable_end (hr : Reached k T c l) (ht : TableAt s root others T)
    (habsent : Absent k l.items) (payload : Bytes)
    (hend : (∀ row ∈ l.items, k < row.rowid) ∨ ∀ row ∈ l.items, row.rowid < k) :
    Cuttable (combinedCells k payload l.items) := by
  obtain ⟨-, htake, -⟩ := hr.slot ht.ascending
  have hdrop := hr.lt_drop ht.ascending habsent
  have hcells := hr.fitLeaf ht
  have hnew := fitLeaf_single k payload
  have hwhole := List.take_append_drop (leafSlot k l.items) l.items
  rw [combinedCells, BTree.insertAt, ← List.map_take, ← List.map_drop]
  rcases hend with hend | hend
  · have hnil : l.items.take (leafSlot k l.items) = [] := by
      refine List.eq_nil_iff_forall_not_mem.mpr fun row hrow => ?_
      have := htake row hrow
      have := hend row (List.mem_of_mem_take hrow)
      omega
    rw [hnil, List.nil_append] at hwhole
    rw [hnil, hwhole]
    exact ⟨[_], l.items.map Row.cell, rfl, hnew, hcells⟩
  · have hnil : l.items.drop (leafSlot k l.items) = [] := by
      refine List.eq_nil_iff_forall_not_mem.mpr fun row hrow => ?_
      have := hdrop row hrow
      have := hend row (List.mem_of_mem_drop hrow)
      omega
    rw [hnil, List.append_nil] at hwhole
    rw [hnil, hwhole]
    exact ⟨l.items.map Row.cell, [_], rfl, hcells, hnew⟩

theorem Reached.absent (hr : Reached k T c l) (h : ∀ row ∈ T.items, row.rowid ≠ k) :
    Absent k l.items := by
  intro row hrow
  refine h row ?_
  rw [hr.items]
  exact List.mem_append_left _ (List.mem_append_right _ (List.mem_of_getElem? hrow))

/-- The refusals at the leaf that a descent finds. -/
theorem insertRefusals (ht : TableAt s root others T) (hr : Reached k T c l)
    (hfind : BTree.findLeaf root k s = (.ok ((l.id, leafSlot k l.items) :: c.path), s))
    (payload : Bytes) :
    InsertRefusals s root T (leafSlot k l.items) (l.items.map Row.cell) k payload where
  pageFull := by
    intro hnone
    have habsent := hr.absent hnone
    constructor
    · rintro ⟨message, s', hraise⟩
      cases insert_raises ht hr hfind hraise with
      | tooLong _ hlong =>
          obtain ⟨_, heq⟩ := checkUvarint_error hlong
          cases heq
      | full _ _ hcheck hcut =>
          exact ⟨_, encoded_placeholder.mpr ⟨hcheck, rfl⟩, fun hfits => hcut (cuttable_of_fits
            ((fits_candidate k payload l.items).mp hfits)), hcut⟩
    · rintro ⟨cell, hencode, -, hcut⟩
      obtain ⟨hcheck, rfl⟩ := encoded_placeholder.mp hencode
      have hpost := insert_full ht hr hfind habsent hcheck hcut
      unfold Post at hpost
      split at hpost
      · cases hpost
      · rename_i heq
        obtain ⟨message, rfl⟩ := hpost
        exact ⟨message, _, heq⟩
  unchanged := by
    intro e s' hraise hrefusal
    cases insert_raises ht hr hfind hraise with
    | fileFull => rcases hrefusal with ⟨_, h⟩ | ⟨_, h⟩ <;> cases h
    | tooLong => rfl
    | duplicate => rfl
    | full => rfl
  ends := by
    intro hend e s' hraise
    have hend : (∀ row ∈ l.items, k < row.rowid) ∨ ∀ row ∈ l.items, row.rowid < k :=
      hend.imp (fun h row hrow => h _ (List.mem_map_of_mem hrow))
        fun h row hrow => h _ (List.mem_map_of_mem hrow)
    have habsent : Absent k l.items := by
      intro row hrow heq
      have hrow := List.mem_of_getElem? hrow
      rcases hend with hend | hend
      · exact absurd heq (Int.ne_of_gt (hend row hrow))
      · exact absurd heq (Int.ne_of_lt (hend row hrow))
    cases insert_raises ht hr hfind hraise with
    | fileFull => exact .inl rfl
    | tooLong _ h => exact .inr h
    | duplicate h => exact absurd habsent h
    | full _ _ _ h => exact absurd (hr.cuttable_end ht habsent payload hend) h
  cut := by
    intro cell hnone hencode hfits hcut b
    obtain ⟨-, rfl⟩ := encoded_placeholder.mp hencode
    obtain ⟨n, sep, -, -, -, hboth, hchoose⟩ := hr.chooseSplit ht (hr.absent hnone) payload
      (fun h => hfits ((fits_candidate k payload l.items).mpr h)) b
    obtain ⟨hleft, hright⟩ := hboth hcut
    exact ⟨_, _, sep, hchoose, decide_eq_true hleft, decide_eq_true hright⟩

/-- `split_cells` leaves halves that fit whenever some cut of the cells does. -/
theorem splitCells_fits {cells : List TableLeafCell} (hlen : 2 ≤ cells.length)
    (hcut : Cuttable cells) :
    ∃ left right sep, splitCells TableLeafCell.size cells (cells.map TableLeafCell.rowid) false =
      .ok (left, right, sep) ∧ BTree.fitsOneLeafPage left ∧ BTree.fitsOneLeafPage right := by
  obtain ⟨n, sep, -, -, -, -, hclosest, hsplit⟩ := @splitCells_spec _ _ TableLeafCell.size cells
    (cells.map TableLeafCell.rowid) false hlen (List.length_map _)
  obtain ⟨hleft, hright⟩ := hcut.closest hlen
  rw [← hclosest rfl] at hleft hright
  exact ⟨_, _, sep, hsplit, decide_eq_true hleft, decide_eq_true hright⟩

end Refusals

/-- Whatever has been called on a table tree that starts as an empty leaf, with rowids in
the int64 range, an insertion raises `PageFullError` exactly when the leaf it descends to
has neither room for the row nor a cut around it, and then leaves the store as it was; and
`split_cells` finds a cut that fits when there is one. -/
theorem table_insert_refusals (s : PageStore) (root : Nat) (others : Image) (hroot : root < 2 ^ 32)
    (hlive : Live s ((root, .body (.tableLeaf [])) :: others)) (calls : List TableCall)
    (hcalls : ∀ call ∈ calls, call.InRange) (k : Int) (payload : Bytes) :
    (∃ (H : Nat) (T : TableTree H), WellFormed (runCalls root calls s) root T ∧
      ∃ id slot path cells,
        BTree.findLeaf root k (runCalls root calls s) =
          (.ok ((id, slot) :: path), runCalls root calls s) ∧
        leafCells id (runCalls root calls s) = (.ok cells, runCalls root calls s) ∧
        InsertRefusals (runCalls root calls s) root T slot cells k payload) ∧
    ∀ cells : List TableLeafCell, 2 ≤ cells.length → Cuttable cells →
      ∃ left right sep, splitCells TableLeafCell.size cells (cells.map TableLeafCell.rowid) false =
        .ok (left, right, sep) ∧ BTree.fitsOneLeafPage left ∧ BTree.fitsOneLeafPage right := by
  obtain ⟨others', H, T, hranged⟩ := (rangedAt_empty hroot hlive).runCalls hcalls
  have ht := hranged.toTableAt
  obtain ⟨c, l, hr, hfind⟩ := findLeaf_spec ht k
  exact ⟨⟨H, T, hranged.wellFormed, l.id, leafSlot k l.items, c.path, l.items.map Row.cell, hfind,
    leafCells_live ht.live fun p hp => List.mem_append_left _ (hr.leaf_subset hp),
    insertRefusals ht hr hfind payload⟩, fun _ => splitCells_fits⟩

/-- The message of a leaf without a cut. -/
def noCutMessage : String :=
  "cannot split this leaf: a cell is too large to fit on either side of a two-way split next to its " ++
    "neighbors -- this needs three-way rebalancing, which isn't implemented"

theorem raisesPageFull_of {root : Nat} {k : Int} {payload : Bytes} {s : PageStore}
    (h : (BTree.insert root k payload s).1 = .error (.pageFull noCutMessage)) :
    RaisesPageFull root k payload s :=
  ⟨_, _, apply_eq h⟩

/-- Two leaves, and a row between the rows of the first that neither has room nor a cut. -/
def crampedCalls : List TableCall :=
  [.insert 10 (List.replicate 2000 1), .insert 20 (List.replicate 2000 2), .insert 30 (List.replicate 2000 3),
    .insert 40 [4], .delete 40]

theorem table_insert_refusals_cramped :
    RaisesPageFull 2 15 (List.replicate 4000 9) (runCalls 2 crampedCalls emptyTable) ∧
    (∃ (H : Nat) (T : TableTree H), WellFormed (runCalls 2 crampedCalls emptyTable) 2 T ∧
      ∃ id slot path cells,
        BTree.findLeaf 2 15 (runCalls 2 crampedCalls emptyTable) =
          (.ok ((id, slot) :: path), runCalls 2 crampedCalls emptyTable) ∧
        leafCells id (runCalls 2 crampedCalls emptyTable) = (.ok cells, runCalls 2 crampedCalls emptyTable) ∧
        InsertRefusals (runCalls 2 crampedCalls emptyTable) 2 T slot cells 15 (List.replicate 4000 9)) ∧
    ∀ cells : List TableLeafCell, 2 ≤ cells.length → Cuttable cells →
      ∃ left right sep, splitCells TableLeafCell.size cells (cells.map TableLeafCell.rowid) false =
        .ok (left, right, sep) ∧ BTree.fitsOneLeafPage left ∧ BTree.fitsOneLeafPage right := by
  refine ⟨raisesPageFull_of (by decide +kernel), ?_⟩
  exact table_insert_refusals emptyTable 2 [] (by decide) emptyTable_live crampedCalls (by decide) 15 _

/-- The rowid behind the greatest one is stored as the least one. -/
def disorderingCalls : List TableCall :=
  [.insert 1 (List.replicate 2000 1), .insert (2 ^ 63 - 1) (List.replicate 2000 2), .insert (2 ^ 63) [3]]

/-- The leaf is then split as for a row at its end, which does not fit, though it has
another cut. -/
theorem insert_refuses_cuttable :
    (BTree.findLeaf 2 2 (runCalls 2 disorderingCalls emptyTable)).1 = .ok [(2, 1)] ∧
    ∃ cells, (leafCells 2 (runCalls 2 disorderingCalls emptyTable)).1 = .ok cells ∧
      (∀ cell ∈ cells, cell.rowid ≠ 2) ∧
      RaisesPageFull 2 2 (List.replicate 2000 4) (runCalls 2 disorderingCalls emptyTable) ∧
      Cuttable (BTree.insertAt cells 1 ⟨2, placeholder .leafTable (List.replicate 2000 4)⟩) := by
  refine ⟨by decide +kernel, [⟨1, placeholder .leafTable (List.replicate 2000 1)⟩,
    ⟨2 ^ 63 - 1, placeholder .leafTable (List.replicate 2000 2)⟩, ⟨-2 ^ 63, placeholder .leafTable [3]⟩],
    by decide +kernel, by decide +kernel, raisesPageFull_of (by decide +kernel), ?_⟩
  refine ⟨_, _, (List.take_append_drop 2 _).symm, ?_, ?_⟩
  · unfold FitLeaf
    decide +kernel
  · unfold FitLeaf
    decide +kernel

end QuillDb
