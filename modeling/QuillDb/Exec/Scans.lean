/-
  Exec/Scans.lean --- the rows that a scan returns.

  Source: `SeqScan` and `IndexScan` of `quilldb/exec/operators.py`, `TableCursor.seek` of
  `quilldb/btree/cursor.py`.

  A sequential scan returns the rows of a table in the order of their rowids.  An index
  scan looks up the rowids that it has drained; where the index is in step, each of them is
  there, and the rows come in the order of their keys.
-/
import QuillDb.BTree.Lookup
import QuillDb.Exec.Indexed
import QuillDb.Exec.Pulls

set_option autoImplicit false

namespace QuillDb

open Prog PageStore PageTree Fallible

/-- What only reads leaves the pages. -/
theorem Reads.same {α : Type} {m : StoreM α} {a : α} {s s' : PageStore} (h : Reads m) (hm : m s = (.ok a, s')) :
    s = s' := by
  have hsame := h s
  rwa [hm] at hsame

/-! ## A row by its rowid -/

section Seek

variable {s : PageStore} {root H : Nat} {others : Image} {T : TableTree H}

/-- `seek` ends in the leaf where `_find_leaf` ends. -/
theorem seekFrom_of_findLeafFrom (cursor : CursorPath) {k : Int} {fuel id leaf slot : Nat}
    {path above : List (Nat × Nat)} (hfind : BTree.findLeafFrom k fuel id path s = (.ok ((leaf, slot) :: above), s))
    {cells : List TableLeafCell} (hleaf : readBody leaf s = (.ok (.tableLeaf cells), s)) {cell : TableLeafCell}
    (hcell : cells[slot]? = some cell) : ∃ up, TableCursor.seekFrom k fuel cursor id s =
      (.ok (decide (cell.rowid = k), (leaf, slot, .tableLeaf cells) :: up), s) := by
  induction fuel generalizing id path cursor with
  | zero => cases hfind
  | succ fuel ih =>
      rw [BTree.findLeafFrom] at hfind
      rw [TableCursor.seekFrom]
      obtain ⟨body, s₁, hbody, hfind⟩ := exists_of_bind_ok hfind
      obtain rfl := Reads.same (readBody_reads id) hbody
      rw [bind_of_ok hbody]
      cases body with
      | tableLeaf own =>
          cases hfind
          rw [hbody] at hleaf
          cases hleaf
          simp only [hcell]
          exact ⟨cursor, rfl⟩
      | tableInterior own rightChild =>
          obtain ⟨child, s₂, hchild, hfind⟩ := exists_of_bind_ok hfind
          obtain rfl := Reads.same (Moves.lift _) hchild
          simp only
          rw [bind_of_ok hchild]
          exact ih _ hfind
      | indexLeaf own => cases hfind
      | indexInterior own rightChild => cases hfind

/-- The row of a rowid that the table has. -/
theorem lookUp_live (ht : TableAt s root others T) {r : Row} (hr : r ∈ T.items) {row : List Value}
    (hrow : decodeRecord r.stored.data 0 = .ok row) : lookUp root r.rowid s = (.ok (some row), s) := by
  obtain ⟨c, l, hreached, hfind⟩ := findLeaf_spec ht r.rowid
  have hread := readBody_leaf (s := s) ht.live fun p hp => List.mem_append_left _ (hreached.leaf_subset hp)
  have hpresent : ¬ Absent r.rowid l.items := fun habsent => hreached.not_mem ht.ascending habsent r hr rfl
  obtain ⟨found, hslot, hfound⟩ := exists_of_not_absent hpresent
  -- rowids are distinct
  obtain rfl : found = r := by
    have hrows := hreached.rows_ascending ht.ascending
    have hmem := hreached.mem_leaf ht.ascending hr rfl
    have hnodup : (l.items.map Row.rowid).Nodup := List.pairwise_map.mpr (hrows.imp fun hlt => hlt.ne)
    exact List.inj_on_of_nodup_map hnodup (List.mem_of_getElem? hslot) hmem hfound
  have hcell : (l.items.map Row.cell)[leafSlot found.rowid l.items]? = some found.cell := by
    rw [List.getElem?_map, hslot, Option.map_some]
  rw [BTree.findLeaf, bind_of_ok (state_apply s)] at hfind
  obtain ⟨up, hseek⟩ := seekFrom_of_findLeafFrom [] hfind hread hcell
  have hrowid : decide (found.cell.rowid = found.rowid) = true := decide_eq_true rfl
  rw [hrowid] at hseek
  have hrecord : TableCursor.record ((l.id, leafSlot found.rowid l.items, .tableLeaf (l.items.map Row.cell)) :: up) s =
      (.ok found.stored.data, s) := by
    rw [TableCursor.record, TableCursor.cell, hcell]
    exact ht.readable hreached.plug (List.mem_of_getElem? hslot)
  have hfound : TableCursor.seek root found.rowid s = (.ok (true,
      (l.id, leafSlot found.rowid l.items, .tableLeaf (l.items.map Row.cell)) :: up), s) := by
    rw [TableCursor.seek, bind_of_ok (state_apply s)]
    exact hseek
  rw [lookUp, bind_of_ok hfound]
  dsimp only
  rw [if_pos rfl, bind_of_ok hrecord, hrow]
  rfl

end Seek

/-! ## Rows in the order of their rowids -/

section SeqScan

variable {s : PageStore}

/-- Calls of `next` give what a loop over a cursor meets. -/
theorem seqScanFrom_of_eachFrom {fuel : Nat} {path : CursorPath} {rows : List (List Value)}
    (h : TableCursor.eachFrom (fun _ payload => lift (decodeRecord payload 0)) fuel path s = (.ok rows, s)) :
    seqScanFrom s fuel path = rows.map .ok := by
  induction fuel generalizing path rows with
  | zero =>
      cases path with
      | nil =>
          cases h
          rfl
      | cons top above => cases h
  | succ fuel ih =>
      cases path with
      | nil =>
          cases h
          rfl
      | cons top above =>
          obtain ⟨payload, s₁, hrecord, h⟩ := exists_of_bind_ok h
          obtain rfl := Reads.same ((Moves.lift _).bind fun cell => readPayload_reads _) hrecord
          obtain ⟨rowid, s₁, hrowid, h⟩ := exists_of_bind_ok h
          obtain rfl := Reads.same (Moves.lift _) hrowid
          obtain ⟨row, s₁, hrow, h⟩ := exists_of_bind_ok h
          obtain rfl := Reads.same (Moves.lift _) hrow
          obtain ⟨path, s₁, hnext, h⟩ := exists_of_bind_ok h
          obtain rfl := Reads.same (TableCursor.next_reads _) hnext
          obtain ⟨rest, s₁, hrest, h⟩ := exists_of_bind_ok h
          cases h
          have hcall : seqScanNext (top :: above) s = (.ok (row, path), s) := by
            rw [seqScanNext, bind_of_ok hrecord, bind_of_ok hrow, bind_of_ok hnext]
            rfl
          simp only [seqScanFrom, hcall, List.map_cons, ih hrest]

variable {header : PageContent} {slots : List (TreeKind × Nat)} {content : Content}

/-- `SeqScan` returns the rows. -/
theorem Stores.seqScan (hs : Stores header slots content s) {table : TableSchema}
    (hslot : (.table, table.rootPage) ∈ slots) :
    seqScanPulls s table = (content.rows table.rootPage).map fun row => .ok row.2 := by
  let decode (_ : Int) (payload : Bytes) : StoreM (List Value) := lift (decodeRecord payload 0)
  have hdecode : ∀ (row : Int × List Value) (payload : Bytes), decodeRecord payload 0 = .ok row.2 →
      decode row.1 payload s = (.ok row.2, s) := by
    intro row payload hrow
    rw [← hrow]
    rfl
  have hloop := hs.each (fun row => .ok row.2) hslot hdecode
  have hnever : ∀ e s', ¬ (s' = s ∧ ∃ row ∈ content.rows table.rootPage,
      (Except.ok row.2 : Except DbError (List Value)) = .error e) := by
    rintro e s' ⟨-, row, -, hrow⟩
    cases hrow
  obtain ⟨rows, s', hrun, rfl, hrows⟩ := (hloop.mono (fun _ _ h => h) hnever).exists_ok
  obtain ⟨path, s₁, hfirst, hrun⟩ := exists_of_bind_ok hrun
  obtain rfl := Reads.same (TableCursor.descendToLeaf_reads _ _ _) hfirst
  obtain ⟨_, _, hstate, hrun⟩ := exists_of_bind_ok hrun
  cases hstate
  simp only [seqScanPulls, hfirst, seqScanFrom_of_eachFrom hrun]
  have heq : rows = (content.rows table.rootPage).map Prod.snd := by
    have hmap := List.forall₂_map_left_iff.mpr (hrows.imp fun _ _ h => Except.ok.inj h)
    exact (List.forall₂_eq_eq_eq ▸ hmap).symm
  rw [heq, List.map_map]
  rfl

/-- The row of a rowid that is there. -/
theorem Stores.lookUp (hs : Stores header slots content s) {root : Nat} (hslot : (.table, root) ∈ slots)
    {row : Int × List Value} (hrow : row ∈ content.rows root) :
    QuillDb.lookUp root row.1 s = (.ok (some row.2), s) := by
  obtain ⟨H, T, rest, rfl, hf, -, hrows, -⟩ := hs.exists_table hslot
  obtain ⟨r, hr, hrowid, hdecode⟩ := exists_left hrows hrow
  rw [← hrowid]
  exact lookUp_live hf.tableAt.toTableAt hr hdecode

end SeqScan

/-! ## Values that compare alike -/

/-- Values at one place of the order, neither a NaN. -/
def Value.Alike (a b : Value) : Prop := ¬ a.isNan ∧ ¬ b.isNan ∧ a.place = b.place

section Alike

variable {a b : Value}

theorem Value.Alike.rank_eq (h : a.Alike b) : a.rank = b.rank :=
  Nat.le_antisymm (Value.rank_le_of_place_le h.2.2.le) (Value.rank_le_of_place_le h.2.2.ge)

/-- A value compares with both alike. -/
theorem Value.Alike.compare (h : a.Alike b) (v : Value) : compareKeys [v] [a] = compareKeys [v] [b] := by
  have hrank := h.rank_eq
  obtain ⟨ha, hb, hplace⟩ := h
  have heq : compareKeys [v] [a] = .eq ↔ compareKeys [v] [b] = .eq := by
    simp only [Value.compare_eq_iff, ha, hb, hplace]
  have hlt : compareKeys [v] [a] = .lt ↔ compareKeys [v] [b] = .lt := by
    simp only [Value.compare_lt_iff, ha, hb, hplace, hrank]
  cases hva : compareKeys [v] [a] with
  | eq => exact (heq.mp hva).symm
  | lt => exact (hlt.mp hva).symm
  | gt =>
      cases hvb : compareKeys [v] [b] with
      | eq => exact absurd (heq.mpr hvb) (by rw [hva]; decide)
      | lt => exact absurd (hlt.mpr hvb) (by rw [hva]; decide)
      | gt => rfl

theorem compareKeys_alike {as bs : List Value} (h : List.Forall₂ Value.Alike as bs) (probe : List Value) :
    compareKeys probe as = compareKeys probe bs := by
  induction h generalizing probe with
  | nil => rfl
  | @cons a b as bs hab _ ih =>
      cases probe with
      | nil => simp only [compareKeys]
      | cons v probe => rw [compareKeys_cons v a, compareKeys_cons v b, hab.compare, ih]

/-- Keys at one place. -/
theorem alike_of_keyPlace {n : Nat} {as bs : List Value} (ha : Comparable n as) (hb : Comparable n bs)
    (h : keyPlace as = keyPlace bs) : List.Forall₂ Value.Alike as bs := by
  have hplaces : List.Forall₂ (fun a b => a.place = b.place) as bs := by
    rw [keyPlace, keyPlace] at h
    rw [← List.forall₂_eq_eq_eq, List.forall₂_map_left_iff, List.forall₂_map_right_iff] at h
    exact h
  refine List.forall₂_iff_get.mpr ⟨hplaces.length_eq, fun i hi hj => ⟨?_, ?_, ?_⟩⟩
  · exact ha.2 _ (List.get_mem ..)
  · exact hb.2 _ (List.get_mem ..)
  · exact (List.forall₂_iff_get.mp hplaces).2 i hi hj

variable {ops : FloatOps} {eqs ranges : List SeekTerm} {positions positions' : List Nat}
  {row row' : Int × List Value}

/-- The column behind the prefix is one of the indexed. -/
theorem boundCell_eq (hcolumn : eqs.length < positions.length) :
    boundCell positions eqs row = (positions.map fun i => row.2.getD i .null).getD eqs.length .null := by
  simp [boundCell, hcolumn]

/-- A scan yields both of two rows with keys that compare alike, or neither. -/
theorem rowYielded_alike (hshape : SeekShape positions eqs ranges)
    (hvoid : (eqs ++ ranges).any SeekTerm.isVoid = false)
    (hcells : List.Forall₂ Value.Alike (positions.map fun i => row.2.getD i .null)
      (positions'.map fun i => row'.2.getD i .null)) :
    rowYielded ops eqs ranges positions row = rowYielded ops eqs ranges positions' row' := by
  have hlen : positions.length = positions'.length := by simpa using hcells.length_eq
  have hcols := hshape.columns
  rw [List.any_append, Bool.or_eq_false_iff] at hvoid
  have hprefix : prefixPasses ops eqs (positions.map fun i => row.2.getD i .null) =
      prefixPasses ops eqs (positions'.map fun i => row'.2.getD i .null) := by
    rw [Bool.eq_iff_iff, ← compareKeys_prefix hshape.equalities hvoid.1 (by simp; omega),
      ← compareKeys_prefix hshape.equalities hvoid.1 (by simp; omega), compareKeys_alike hcells]
  rw [rowYielded, rowYielded, hprefix]
  by_cases hranges : ranges = []
  · simp [hranges]
  · rw [if_neg hranges] at hcols
    have hcell : List.Forall₂ Value.Alike [boundCell positions eqs row] [boundCell positions' eqs row'] := by
      rw [boundCell_eq (by omega), boundCell_eq (by omega)]
      have hget := (List.forall₂_iff_get.mp hcells).2 eqs.length (by simp; omega) (by simp; omega)
      refine .cons ?_ .nil
      simpa [List.getD_eq_getElem?_getD, show eqs.length < positions.length by omega,
        show eqs.length < positions'.length by omega] using hget
    simp only [SeekBounds.admitsLow, SeekBounds.admitsHigh, aboveLow, belowHigh, compareKeys_alike hcell]

end Alike

/-! ## Rows in the order of an index -/

section IndexScan

variable {ops : FloatOps} {eqs ranges : List SeekTerm} {positions : List Nat} {rows : List (Int × List Value)}
  {keys : List (List Value)}

/-- The rows in the order of the keys of an index that is in step. -/
structure InKeyOrder (positions : List Nat) (rows : List (Int × List Value)) (keys : List (List Value))
    (ordered : List (Int × List Value)) : Prop where
  perm : ordered.Perm rows
  aligned : List.Forall₂ (fun key row => ∃ values, key = values ++ [.int row.1] ∧
    List.Forall₂ Value.Alike values (keyAt positions row.2)) keys ordered

theorem Indexed.inKeyOrder (h : Indexed positions rows keys) :
    ∃ ordered, InKeyOrder positions rows keys ordered := by
  have hmapped : List.Forall₂ (fun place row => place = keyPlace (indexKey positions row))
      (rows.map fun row => keyPlace (indexKey positions row)) rows :=
    List.forall₂_map_left_iff.mpr (List.forall₂_same.mpr fun _ _ => rfl)
  obtain ⟨ordered, hordered, hperm⟩ := List.perm_comp_forall₂ h.matched hmapped
  rw [List.forall₂_map_left_iff] at hordered
  refine ⟨ordered, hperm, ?_⟩
  have haligned := List.forall₂_iff_get.mp hordered
  refine List.forall₂_iff_get.mpr ⟨haligned.1, fun i hi hj => ?_⟩
  have hplace := haligned.2 i hi hj
  have hkey := List.get_mem keys ⟨i, hi⟩
  have hrow := hperm.mem_iff.mp (List.get_mem ordered ⟨i, hj⟩)
  generalize keys.get ⟨i, hi⟩ = key at hplace hkey
  generalize ordered.get ⟨i, hj⟩ = row at hplace hrow
  obtain ⟨values, rowid, rfl⟩ := h.rowids key hkey
  have hcomparable := h.sorted.comparable _ hkey
  rw [indexKey_eq, keyPlace_concat] at hplace
  obtain ⟨hvalues, rfl⟩ := hplace
  have hlen : values.length = positions.length := by simpa using hcomparable.1
  exact ⟨values, rfl, alike_of_keyPlace ⟨hlen, fun v hv => hcomparable.2 v (List.mem_append_left _ hv)⟩
    (h.comparable_keyAt hrow) hvalues⟩

/-- What is left of two lists side by side. -/
theorem filter_map_eq {α β γ : Type} {R : α → β → Prop} {p : α → Bool} {q : β → Bool} {f : α → γ} {g : β → γ}
    {xs : List α} {ys : List β} (h : List.Forall₂ R xs ys) (hpq : ∀ x y, R x y → p x = q y ∧ f x = g y) :
    (xs.filter p).map f = (ys.filter q).map g := by
  induction h with
  | nil => rfl
  | cons hxy _ ih =>
      obtain ⟨hp, hf⟩ := hpq _ _ hxy
      rw [List.filter_cons, List.filter_cons, hp]
      split
      · rw [List.map_cons, List.map_cons, hf, ih]
      · exact ih

/-- The order in which a path walks. -/
def AccessPath.walk {α : Type} (path : AccessPath) (xs : List α) : List α :=
  if path.seekTerms = [] ∧ path.reverse then xs.reverse else xs

theorem walkOrder_map (path : AccessPath) (rows : List (Int × List Value)) :
    walkOrder path (rows.map Prod.fst) = (path.walk rows).map Prod.fst := by
  unfold walkOrder AccessPath.walk
  split
  · rw [List.map_reverse]
  · rfl

theorem AccessPath.walk_perm {α : Type} (path : AccessPath) (xs : List α) : (path.walk xs).Perm xs := by
  unfold walk
  split
  · exact List.reverse_perm xs
  · exact List.Perm.refl xs

/-- No row is let through by the bounds that a range is not TRUE of. -/
def Tight (ops : FloatOps) (eqs ranges : List SeekTerm) (positions : List Nat) (rows : List (Int × List Value)) :
    Prop :=
  ranges ≠ [] → ∀ row ∈ rows, ¬ SlipsThrough ops ranges (boundCell positions eqs row)

variable {header : PageContent} {slots : List (TreeKind × Nat)} {content : Content} {s : PageStore}
  {path : AccessPath} {index : IndexSchema} {outer : List Value} {ordered : List (Int × List Value)}

/-- The rowids of a scan over an index that is in step. -/
theorem Stores.indexScanOpen (hs : Stores header slots content s) (hslot : (.index, index.rootPage) ∈ slots)
    (hindexed : Indexed positions rows (content.keys index.rootPage))
    (hordered : InKeyOrder positions rows (content.keys index.rootPage) ordered) (hindex : path.index = some index)
    (hterms : HasTerms ops outer path (eqs ++ ranges)) (hshape : SeekShape positions eqs ranges)
    (htight : Tight ops eqs ranges positions rows) :
    QuillDb.indexScanOpen ops path outer s =
      (.ok ((path.walk (ordered.filter (rowPasses ops eqs ranges positions))).map Prod.fst), s) := by
  by_cases hvoid : (eqs ++ ranges).any SeekTerm.isVoid = true
  · rw [indexScanOpen_void hindex hterms hvoid,
      List.filter_eq_nil_iff.mpr fun row _ => Bool.not_eq_true _ ▸ not_rowPasses hshape hvoid row]
    unfold AccessPath.walk
    split <;> rfl
  · rw [Bool.not_eq_true] at hvoid
    obtain ⟨H, T, rest, hid, hf, -, hkeys, -⟩ := hs.exists_index hslot
    -- the keys, as rows with a column for each column of the index
    let columns := List.range positions.length
    let asRow (key : List Value) : Int × List Value := (rowidOf key, key.dropLast)
    have hcells : ∀ values : List Value, values.length = positions.length →
        (columns.map fun i => values.getD i .null) = values := by
      intro values hlen
      apply List.ext_getElem
      · simp [columns, hlen]
      · intro i hi hi'
        simp [columns, List.getD_eq_getElem?_getD, hi']
    have hasRow : ∀ values rowid, asRow (values ++ [.int rowid]) = (rowid, values) := by
      intro values rowid
      simp [asRow, rowidOf]
    have hkey : ∀ key ∈ content.keys index.rootPage, indexKey columns (asRow key) = key := by
      intro key hkey
      obtain ⟨values, rowid, rfl⟩ := hindexed.rowids key hkey
      have hlen : values.length = positions.length := by simpa using (hindexed.sorted.comparable _ hkey).1
      rw [hasRow, indexKey, hcells values hlen]
    obtain ⟨others, hstored⟩ : ∃ others, IndexStored s index.rootPage others T := ⟨_, hid ▸ hf.indexStored⟩
    have hcontent : IndexContent s index.rootPage columns ((content.keys index.rootPage).map asRow) others T := by
      refine ⟨hstored, ?_, ?_⟩
      · rw [hkeys]
        exact hindexed.sorted.keysOrdered
      · rw [hkeys, List.map_map]
        exact (List.map_id _).symm.trans (List.map_congr_left fun key hmem => (hkey key hmem).symm)
    have hcolumns : SeekShape columns eqs ranges := by
      refine ⟨hshape.equalities, hshape.bounds, ?_⟩
      rw [List.length_range]
      exact hshape.columns
    -- a key is yielded with its row
    have hyielded : (((content.keys index.rootPage).map asRow).filter (rowYielded ops eqs ranges columns)).map Prod.fst =
        (ordered.filter (rowYielded ops eqs ranges positions)).map Prod.fst := by
      rw [List.filter_map, List.map_map]
      apply filter_map_eq hordered.aligned
      rintro _ row ⟨values, rfl, halike⟩
      have hlen : values.length = positions.length := halike.length_eq.trans (length_keyAt ..)
      rw [Function.comp_apply, Function.comp_apply, hasRow]
      refine ⟨rowYielded_alike hcolumns hvoid ?_, rfl⟩
      rw [hcells values hlen]
      exact halike
    -- a row that is yielded passes
    have hpasses : ordered.filter (rowYielded ops eqs ranges positions) =
        ordered.filter (rowPasses ops eqs ranges positions) := by
      apply List.filter_congr
      intro row hrow
      rw [Bool.eq_iff_iff, rowYielded_iff hshape.bounds (proper_of_not_void hshape.bounds hvoid)]
      exact or_iff_left fun h => htight h.1 row (hordered.perm.mem_iff.mp hrow) h.2.2
    rw [indexScanOpen_live hindex hcontent hterms hcolumns hvoid, hyielded, hpasses, walkOrder_map]

/-- `IndexScan` returns the rows that its seek terms are TRUE of, in the order of the index. -/
theorem Stores.indexScan (hs : Stores header slots content s) {table : TableSchema}
    (htable : (.table, table.rootPage) ∈ slots) (hslot : (.index, index.rootPage) ∈ slots)
    (hindexed : Indexed positions (content.rows table.rootPage) (content.keys index.rootPage))
    (hordered : InKeyOrder positions (content.rows table.rootPage) (content.keys index.rootPage) ordered)
    (hindex : path.index = some index) (hterms : HasTerms ops outer path (eqs ++ ranges))
    (hshape : SeekShape positions eqs ranges) (htight : Tight ops eqs ranges positions (content.rows table.rootPage)) :
    indexScanPulls ops s table path outer =
      (path.walk (ordered.filter (rowPasses ops eqs ranges positions))).map fun row => .ok row.2 := by
  have hopen := hs.indexScanOpen hslot hindexed hordered hindex hterms hshape htight
  have hrows : ∀ row ∈ path.walk (ordered.filter (rowPasses ops eqs ranges positions)),
      row ∈ content.rows table.rootPage := by
    intro row hrow
    have hmem := (path.walk_perm _).mem_iff.mp hrow
    exact hordered.perm.mem_iff.mp (List.mem_of_mem_filter hmem)
  simp only [indexScanPulls, hopen]
  rw [List.flatMap_map]
  generalize path.walk (ordered.filter (rowPasses ops eqs ranges positions)) = found at hrows
  induction found with
  | nil => rfl
  | cons row found ih =>
      have hrow := hs.lookUp htable (hrows row (List.mem_cons_self ..))
      rw [List.flatMap_cons, List.map_cons, ih fun other hother => hrows other (List.mem_cons_of_mem _ hother)]
      simp only [hrow]
      rfl

end IndexScan

end QuillDb
