/-
  Catalog/UniqueIndex.lean --- CREATE UNIQUE INDEX on rows that are there.

  Source: `create_index`, `_reject_existing_duplicate` and `_first_duplicate_key` of
  `quilldb/catalog/catalog.py`, `find_conflict` of `quilldb/btree/index.py`.

  The keys are sorted and only neighbours are looked at.  `compare_keys` orders keys of
  one length without NaN like their places, so keys that are equal stand side by side.
-/
import QuillDb.BTree.Raises
import QuillDb.Catalog.Catalog

set_option autoImplicit false

namespace QuillDb

open Prog PageStore Fallible

/-! ## Duplicates -/

/-- Two keys that a UNIQUE index does not take both: NULL is no one's duplicate. -/
def Clash (a b : List Value) : Prop := Value.null ∉ a ∧ Value.null ∉ b ∧ compareKeys a b = .eq

/-- Two different rows with keys that clash. -/
def HasDuplicate (keyedRows : List (List Value × Int)) : Prop :=
  ∃ a ∈ keyedRows, ∃ b ∈ keyedRows, a.2 ≠ b.2 ∧ Clash a.1 b.1

/-- The values at the columns of an index. -/
def keyAt (columnIndices : List Nat) (row : List Value) : List Value :=
  columnIndices.map fun i => row.getD i .null

/-- The keys that the rows of a table have in an index. -/
def keyedBy (columnIndices : List Nat) (rows : List (Int × List Value)) : List (List Value × Int) :=
  rows.map fun row => (keyAt columnIndices row.2, row.1)

section Neighbours

variable {n : Nat} {rows : List (List Value × Int)}

/-- In the order of the keys a duplicate has a neighbour that is one. -/
theorem adjacentDuplicate_isSome (hcomparable : ∀ row ∈ rows, Comparable n row.1)
    (hsorted : rows.Pairwise fun a b => keyPlace a.1 ≤ keyPlace b.1) :
    (adjacentDuplicate rows).isSome ↔
      ∃ a ∈ rows, ∃ b ∈ rows, a.2 ≠ b.2 ∧ keyPlace a.1 = keyPlace b.1 := by
  induction rows with
  | nil => simp [adjacentDuplicate]
  | cons p rest ih =>
      cases rest with
      | nil =>
          refine iff_of_false (by simp [adjacentDuplicate]) ?_
          rintro ⟨a, ha, b, hb, hne, -⟩
          rw [List.mem_singleton.mp ha, List.mem_singleton.mp hb] at hne
          exact hne rfl
      | cons q rest =>
          obtain ⟨hp, hrest⟩ := List.pairwise_cons.mp hsorted
          obtain ⟨hcp, hcrest⟩ := List.forall_mem_cons.mp hcomparable
          have heq := compareKeys_eq hcp (hcrest q (List.mem_cons_self ..))
          rw [adjacentDuplicate]
          split
          · rename_i hdup
            rw [heq] at hdup
            refine iff_of_true rfl ⟨p, List.mem_cons_self .., q, ?_, hdup⟩
            exact List.mem_cons_of_mem _ (List.mem_cons_self ..)
          · rename_i hdup
            rw [heq] at hdup
            rw [ih hcrest hrest]
            -- a duplicate of the first row is one of the second
            have hsecond : ∀ b ∈ q :: rest, p.2 ≠ b.2 → keyPlace p.1 = keyPlace b.1 →
                q.2 ≠ b.2 ∧ keyPlace q.1 = keyPlace b.1 := by
              intro b hb hne hplace
              have hpq := hp q (List.mem_cons_self ..)
              have hqb : keyPlace q.1 ≤ keyPlace b.1 := by
                rcases List.mem_cons.mp hb with rfl | hb
                · exact le_refl _
                · exact (List.pairwise_cons.mp hrest).1 b hb
              have hplace' : keyPlace p.1 = keyPlace q.1 := le_antisymm hpq (hplace ▸ hqb)
              have hrowid : p.2 = q.2 := not_not.mp fun h => hdup ⟨h, hplace'⟩
              exact ⟨hrowid ▸ hne, hplace'.symm.trans hplace⟩
            constructor
            · rintro ⟨a, ha, b, hb, hab⟩
              exact ⟨a, List.mem_cons_of_mem _ ha, b, List.mem_cons_of_mem _ hb, hab⟩
            · rintro ⟨a, ha, b, hb, hne, hplace⟩
              rcases List.mem_cons.mp ha with rfl | ha' <;> rcases List.mem_cons.mp hb with rfl | hb'
              · exact absurd rfl hne
              · exact ⟨q, List.mem_cons_self .., b, hb', hsecond b hb' hne hplace⟩
              · obtain ⟨hne', hplace'⟩ := hsecond a ha' hne.symm hplace.symm
                exact ⟨a, ha', q, List.mem_cons_self .., hne'.symm, hplace'.symm⟩
              · exact ⟨a, ha', b, hb', hne, hplace⟩

/-- `_first_duplicate_key` finds a duplicate if there is one. -/
theorem firstDuplicateKey_isSome (hcomparable : ∀ row ∈ rows, Comparable n row.1) :
    (firstDuplicateKey rows).isSome ↔ HasDuplicate rows := by
  unfold firstDuplicateKey
  generalize hkept : rows.filter (fun row => Value.null ∉ row.1) = kept
  have hmem : ∀ row, row ∈ kept ↔ row ∈ rows ∧ Value.null ∉ row.1 := by
    intro row
    rw [← hkept, List.mem_filter, decide_eq_true_eq]
  have hkeptComparable : ∀ row ∈ kept, Comparable n row.1 := fun row h => hcomparable row ((hmem row).mp h).1
  -- among these keys the order is that of their places
  have hsort := List.map_insertionSort (r := fun a b : List Value × Int => compareKeys a.1 b.1 ≠ .gt)
    (s := fun a b => keyPlace a.1 ≤ keyPlace b.1) id kept
    fun a ha b hb => compareKeys_le (hkeptComparable a ha) (hkeptComparable b hb)
  rw [List.map_id, List.map_id] at hsort
  have hperm := List.perm_insertionSort (fun a b : List Value × Int => keyPlace a.1 ≤ keyPlace b.1) kept
  have hsorted : (kept.insertionSort fun a b => keyPlace a.1 ≤ keyPlace b.1).Pairwise
      fun a b => keyPlace a.1 ≤ keyPlace b.1 := by
    have : Std.Total fun a b : List Value × Int => keyPlace a.1 ≤ keyPlace b.1 := ⟨fun a b => le_total _ _⟩
    have : IsTrans (List Value × Int) fun a b => keyPlace a.1 ≤ keyPlace b.1 := ⟨fun a b c => le_trans⟩
    exact List.pairwise_insertionSort _ kept
  rw [hsort, adjacentDuplicate_isSome (fun row h => hkeptComparable row (hperm.mem_iff.mp h)) hsorted]
  constructor
  · rintro ⟨a, ha, b, hb, hne, hplace⟩
    have ha := hperm.mem_iff.mp ha
    have hb := hperm.mem_iff.mp hb
    refine ⟨a, ((hmem a).mp ha).1, b, ((hmem b).mp hb).1, hne, ((hmem a).mp ha).2, ((hmem b).mp hb).2, ?_⟩
    exact (compareKeys_eq (hkeptComparable a ha) (hkeptComparable b hb)).mpr hplace
  · rintro ⟨a, ha, b, hb, hne, hnullA, hnullB, hcmp⟩
    refine ⟨a, hperm.mem_iff.mpr ((hmem a).mpr ⟨ha, hnullA⟩), b, hperm.mem_iff.mpr ((hmem b).mpr ⟨hb, hnullB⟩),
      hne, ?_⟩
    exact (compareKeys_eq (hcomparable a ha) (hcomparable b hb)).mp hcmp

end Neighbours

/-! ## The rows of a table -/

/-- The table holds these rows, in the order of their rowids. -/
def TableRows (s : PageStore) (table : TableSchema) (rows : List (Int × List Value)) : Prop :=
  ∃ (H : Nat) (T : TableTree H) (others : Image), TableAt s table.rootPage others T ∧
    List.Forall₂ (fun r row => r.rowid = row.1 ∧ decodeRecord r.stored.data 0 = .ok row.2 ∧
      row.2.length = table.columns.length) T.items rows

theorem pickColumns_eq {row : List Value} {columnIndices : List Nat} (h : ∀ i ∈ columnIndices, i < row.length) :
    pickColumns row columnIndices = .ok (keyAt columnIndices row) := by
  refine mapM_eq_ok_iff.mpr (List.forall₂_map_right_iff.mpr (List.forall₂_same.mpr fun i hi => ?_))
  rw [List.getD_eq_getElem?_getD, List.getElem?_eq_getElem (h i hi)]
  rfl

theorem keyAt_comparable {row : List Value} (h : ∀ v ∈ row, ¬ v.isNan) (columnIndices : List Nat) :
    Comparable columnIndices.length (keyAt columnIndices row) := by
  refine ⟨List.length_map _, fun v hv => ?_⟩
  obtain ⟨i, -, rfl⟩ := List.mem_map.mp hv
  rw [List.getD_eq_getElem?_getD]
  cases hi : row[i]? with
  | none => simp [Value.isNan, Value.number]
  | some v => exact h v (List.mem_of_getElem? hi)

/-- `_reject_existing_duplicate` reads the table and raises for a duplicate. -/
theorem rejectExistingDuplicate_eq {s : PageStore} {table : TableSchema} {rows : List (Int × List Value)}
    (hrows : TableRows s table rows) {columnIndices : List Nat}
    (hcolumns : ∀ i ∈ columnIndices, i < table.columns.length) (hnan : ∀ row ∈ rows, ∀ v ∈ row.2, ¬ v.isNan)
    (indexName : String) :
    Post (rejectExistingDuplicate indexName table columnIndices) s
      (fun _ s' => s' = s ∧ ¬ HasDuplicate (keyedBy columnIndices rows))
      fun e s' => s' = s ∧ (∃ key, e = .uniqueViolation indexName key) ∧ HasDuplicate (keyedBy columnIndices rows) := by
  obtain ⟨H, T, others, ht, hitems⟩ := hrows
  rw [rejectExistingDuplicate, post_bind]
  -- what the loop has read of the rows seen so far
  let I (seen : List Row) (keyed : List (List Value × Int)) (s' : PageStore) : Prop :=
    s' = s ∧ List.Forall₂ (fun r key => ∀ row : Int × List Value, r.rowid = row.1 →
      decodeRecord r.stored.data 0 = .ok row.2 → row.2.length = table.columns.length →
        key = (keyAt columnIndices row.2, row.1)) seen keyed
  have hloop := @each_post s table.rootPage others H T (List Value × Int)
    (fun rowid payload => do
      let row ← lift (decodeRecord payload 0)
      let key ← lift (pickColumns row columnIndices)
      return (key, rowid))
    (fun _ _ => False) I (fun seen keyed s' hI => ⟨_, _, hI.1.symm ▸ ht⟩)
    (fun seen r rest keyed s' hcut hI => ?_) ht ⟨rfl, .nil⟩
  · refine hloop.mono (fun keyed s' hs' => ?_) fun _ _ he => he.elim
    obtain ⟨rfl, hkeyed⟩ := hs'
    have hread : keyed = keyedBy columnIndices rows := by
      clear hloop ht hnan
      generalize T.items = items at hitems hkeyed
      induction hitems generalizing keyed with
      | nil =>
          cases hkeyed
          rfl
      | cons hrow _ ih =>
          obtain ⟨key, keys, hkey, hkeys, rfl⟩ := List.forall₂_cons_left_iff.mp hkeyed
          rw [ih keys hkeys, hkey _ hrow.1 hrow.2.1 hrow.2.2]
          rfl
    have hcomparable : ∀ row ∈ keyedBy columnIndices rows, Comparable columnIndices.length row.1 := by
      intro key hkey
      obtain ⟨row, hrow, rfl⟩ := List.mem_map.mp hkey
      exact keyAt_comparable (hnan row hrow) columnIndices
    have hduplicate := firstDuplicateKey_isSome hcomparable
    rw [hread]
    cases hfirst : firstDuplicateKey (keyedBy columnIndices rows) with
    | none => exact ⟨rfl, fun h => by simpa [hfirst] using hduplicate.mpr h⟩
    | some key => exact ⟨rfl, ⟨key, rfl⟩, hduplicate.mp (by rw [hfirst]; rfl)⟩
  · obtain ⟨rfl, hseen⟩ := hI
    obtain ⟨row, -, hrowid, hdecode, hlen⟩ := exists_right hitems (hcut ▸ by simp : r ∈ T.items)
    have hpick : pickColumns row.2 columnIndices = .ok (keyAt columnIndices row.2) :=
      pickColumns_eq fun i hi => hlen ▸ hcolumns i hi
    rw [hdecode, post_bind, post_lift_ok, hpick, post_bind, post_lift_ok, post_pure]
    refine ⟨rfl, List.rel_append hseen (.cons ?_ .nil)⟩
    intro row' hrowid' hdecode' _
    rw [hdecode] at hdecode'
    rw [← hrowid', ← Except.ok.inj hdecode']

/-! ## A conflict in an index -/

/-- Enter one row into an index, then look for a conflict with another. -/
def conflictAfter (root : Nat) (first second : List Value × Int) : StoreM (Option Int) := do
  IndexBTree.insert root first.1 first.2
  IndexBTree.findConflict root second.1

theorem compareKeys_symm {n : Nat} {a b : List Value} (ha : Comparable n a) (hb : Comparable n b) :
    compareKeys a b = .eq ↔ compareKeys b a = .eq := by
  rw [compareKeys_eq ha hb, compareKeys_eq hb ha, eq_comm]

/-- Only NULL equals NULL. -/
theorem null_mem_of_compareKeys {n : Nat} {a b : List Value} (ha : Comparable n a) (hb : Comparable n b)
    (h : compareKeys a b = .eq) (hnull : Value.null ∈ a) : Value.null ∈ b := by
  have hplace : Value.null.place ∈ keyPlace b := (compareKeys_eq ha hb).mp h ▸ List.mem_map_of_mem hnull
  obtain ⟨v, hv, hvplace⟩ := List.mem_map.mp hplace
  obtain rfl : v = .null := by
    obtain ⟨rest, hrest⟩ := v.exists_place
    have hrank : (v.rank : Int) = 0 := by
      rw [hrest] at hvplace
      exact (List.cons.inj hvplace).1
    cases v <;> simp [Value.rank] at hrank ⊢
  exact hv

/-- `find_conflict` in an index of one entry. -/
theorem conflictAfter_post {s : PageStore} {root n : Nat} {others : Image}
    (ht : IndexStored s root others (.leaf ⟨root, []⟩ : IndexTree 0)) {first second : List Value × Int}
    (hfirst : Comparable n first.1) (hsecond : Comparable n second.1) :
    Post (conflictAfter root first second) s (fun found _ => found.isSome ↔ Clash first.1 second.1)
      fun _ _ => True := by
  rw [conflictAfter, post_bind]
  refine (insert_index ht first.1 first.2).mono (fun _ s' hs' => ?_) fun _ _ _ => trivial
  obtain ⟨H, U, e, xs, ys, hU, hkey, hold, hnew, -⟩ := hs'
  obtain ⟨rfl, rfl⟩ := List.append_eq_nil_iff.mp hold.symm
  have hkeys : U.entries.map Entry.key = [first.1 ++ [.int first.2]] := by simp [hnew, hkey]
  rw [IndexBTree.findConflict]
  split
  · rename_i hnull
    exact iff_of_false (by simp) fun h => h.2.1 hnull
  · rename_i hnull
    have hlen : second.1.length = first.1.length := hsecond.1.trans hfirst.1.symm
    have hcovers : Covers (U.entries.map Entry.key) second.1 := by
      intro key hmem
      rw [hkeys, List.mem_singleton] at hmem
      simp [hmem, hlen]
    have hseek := seekEq_live hU (hkeys ▸ List.pairwise_singleton _ _) hcovers
    have hprobe : compareKeys second.1 (first.1 ++ [.int first.2]) = compareKeys second.1 first.1 := by
      have happend := compareKeys_append hlen [] [.int first.2]
      rw [List.append_nil] at happend
      rw [happend]
      cases compareKeys second.1 first.1 <;> rfl
    rw [post_bind]
    refine Post.of_eq hseek ?_
    rw [post_pure, hkeys, List.filter_singleton, hprobe]
    have hsymm := compareKeys_symm hfirst hsecond
    by_cases hcmp : compareKeys second.1 first.1 = .eq
    · refine iff_of_true (by simp [hcmp]) ⟨fun h => hnull ?_, hnull, hsymm.mpr hcmp⟩
      exact null_mem_of_compareKeys hfirst hsecond (hsymm.mpr hcmp) h
    · exact iff_of_false (by simp [hcmp]) fun h => hcmp (hsymm.mp h.2.2)

/-! ## CREATE UNIQUE INDEX -/

section CreateIndex

variable {casefold : String → String}

theorem schemaPage_raises : Raises DbError.Ordinary schemaPage := by
  apply (readBody_raises _).bind
  intro body
  cases body with
  | tableLeaf cells => exact Raises.pure _
  | tableInterior cells rightChild => exact Raises.raise trivial
  | indexLeaf cells => exact Raises.raise trivial
  | indexInterior cells rightChild => exact Raises.raise trivial

theorem appendCatalogRow_raises (rowid : Int) (payload : Bytes) :
    Raises DbError.Ordinary (appendCatalogRow rowid payload) := by
  apply (Raises.lift (encodeLeafTableCell_fails _ _)).bind
  intro cell
  apply schemaPage_raises.bind
  intro cells
  exact (Raises.raiseIf _ (by trivial)).bind fun _ => Raises.update _

theorem pickColumns_fails (row : List Value) (indices : List Nat) :
    Fails DbError.Ordinary (pickColumns row indices) := by
  refine Fails.mapM (fun i => ?_) indices
  split
  · exact Fails.ok _
  · exact Fails.error trivial

theorem backfill_raises (rootPage : Nat) (table : TableSchema) (columnIndices : List Nat) :
    Raises DbError.Ordinary (backfill rootPage table columnIndices) := by
  refine (TableCursor.each_raises (fun rowid payload => ?_) _).bind fun _ => Raises.pure _
  apply (Raises.lift (decodeRecord_fails _ _)).bind
  intro row
  exact (Raises.lift (pickColumns_fails _ _)).bind fun values => IndexBTree.insert_raises _ _ _

/-- What the statement names is there, and its own name is free. -/
structure CanIndex (casefold : String → String) (catalog : Catalog) (statement : Ast.CreateIndex)
    (table : TableSchema) (columnIndices : List Nat) : Prop where
  unreserved : isReserved (casefold statement.name) = false
  fresh : catalog.indexes.lookup (casefold statement.name) = none ∧
    catalog.tables.lookup (casefold statement.name) = none
  found : catalog.getTable casefold statement.table = .ok table
  columns : statement.columns.mapM (table.columnIndex casefold) = .ok columnIndices

variable {db : Database} {statement : Ast.CreateIndex} {table : TableSchema} {columnIndices : List Nat}
variable {rows : List (Int × List Value)}

theorem CanIndex.columns_lt (h : CanIndex casefold db.catalog statement table columnIndices) :
    ∀ i ∈ columnIndices, i < table.columns.length := by
  intro i hi
  obtain ⟨name, -, hname⟩ := exists_left (mapM_ok h.columns) hi
  exact TableSchema.columnIndex_lt hname

/-- `create_index` raises for a duplicate before it writes; behind the check no one speaks
of duplicates. -/
theorem createIndex_post (hcan : CanIndex casefold db.catalog statement table columnIndices)
    (hunique : statement.unique = true) (hrows : TableRows db.store table rows)
    (hnan : ∀ row ∈ rows, ∀ v ∈ row.2, ¬ v.isNan) (sql : String) :
    Post (createIndex casefold statement sql) db (fun _ _ => ¬ HasDuplicate (keyedBy columnIndices rows))
      fun e db' => (HasDuplicate (keyedBy columnIndices rows) ∧ (∃ key, e = .uniqueViolation statement.name key) ∧ db' = db) ∨
        (¬ HasDuplicate (keyedBy columnIndices rows) ∧ e.Ordinary) := by
  rw [createIndex, post_bind, post_state, post_bind, post_raiseIf]
  refine ⟨fun h => absurd h (by simp [hcan.unreserved]), fun _ => ?_⟩
  rw [post_bind, post_raiseIf]
  refine ⟨fun h => absurd h (by rw [hcan.fresh.1, hcan.fresh.2]; simp), fun _ => ?_⟩
  rw [hcan.found, post_bind, post_lift_ok, hcan.columns, post_bind, post_lift_ok, if_pos hunique, post_bind,
    onStore, post_zoom]
  refine (rejectExistingDuplicate_eq hrows hcan.columns_lt hnan statement.name).mono (fun _ s' hs' => ?_)
    fun e s' hs' => ?_
  · obtain ⟨rfl, hnone⟩ := hs'
    refine (Raises.post ?_).mono (fun _ _ _ => hnone) fun e _ he => .inr ⟨hnone, he⟩
    apply (Raises.zoom allocatePage_raises).bind
    intro rootPage
    apply (Raises.zoom schemaPage_raises).bind
    intro cells
    apply (Raises.lift (encodeRecord_fails _)).bind
    intro payload
    apply (Raises.lift (encodeLeafTableCell_fails _ _)).bind
    intro cell
    refine Raises.ite ?_ ?_
    · apply (Raises.zoom (initBody_raises _ _)).bind
      intro _
      refine (Raises.zoom (Raises.handle (backfill_raises _ _ _) fun e he => ?_)).bind fun _ => ?_
      · cases e with
        | pageFull message => exact (freePage_raises _).bind fun _ => Raises.raise trivial
        | _ => exact Raises.raise he
      · apply (Raises.zoom (appendCatalogRow_raises _ _)).bind
        intro _
        exact (Raises.update _).bind fun _ => (Raises.update _).bind fun _ => Raises.pure _
    · exact (Raises.zoom (freePage_raises _)).bind fun _ => Raises.raise trivial
  · obtain ⟨rfl, he, hdup⟩ := hs'
    exact .inl ⟨hdup, he, rfl⟩

/-- CREATE UNIQUE INDEX raises `UniqueViolationError` if and only if two rows clash, having
written nothing, and two rows clash if and only if one is rejected behind the other. -/
theorem createUniqueIndex_iff (hcan : CanIndex casefold db.catalog statement table columnIndices)
    (hunique : statement.unique = true) (hrows : TableRows db.store table rows)
    (hnan : ∀ row ∈ rows, ∀ v ∈ row.2, ¬ v.isNan) (sql : String) :
    ((∃ index key, (createIndex casefold statement sql db).1 = .error (.uniqueViolation index key)) ↔
        HasDuplicate (keyedBy columnIndices rows)) ∧
      (∀ index key, (createIndex casefold statement sql db).1 = .error (.uniqueViolation index key) →
        (createIndex casefold statement sql db).2 = db) ∧
      ∀ (s : PageStore) (root : Nat) (others : Image), IndexStored s root others (.leaf ⟨root, []⟩ : IndexTree 0) →
        ∀ a ∈ keyedBy columnIndices rows, ∀ b ∈ keyedBy columnIndices rows,
          Post (conflictAfter root a b) s (fun found _ => found.isSome ↔ Clash a.1 b.1) fun _ _ => True := by
  have hpost := createIndex_post hcan hunique hrows hnan sql
  refine ⟨⟨?_, fun hdup => ?_⟩, fun index key herror => ?_, fun s root others ht a ha b hb => ?_⟩
  · rintro ⟨index, key, herror⟩
    rcases hpost.error (apply_eq herror) with ⟨hdup, -⟩ | ⟨-, hordinary⟩
    · exact hdup
    · exact hordinary.elim
  · rcases hrun : createIndex casefold statement sql db with ⟨e | schema, db'⟩
    · rcases hpost.error hrun with ⟨-, ⟨key, rfl⟩, -⟩ | ⟨hnone, -⟩
      · exact ⟨_, key, rfl⟩
      · exact absurd hdup hnone
    · exact absurd hdup (hpost.ok hrun)
  · rcases hpost.error (apply_eq herror) with ⟨-, -, hstate⟩ | ⟨-, hordinary⟩
    · exact hstate
    · exact hordinary.elim
  · have hcomparable : ∀ key ∈ keyedBy columnIndices rows, Comparable columnIndices.length key.1 := by
      intro key hkey
      obtain ⟨row, hrow, rfl⟩ := List.mem_map.mp hkey
      exact keyAt_comparable (hnan row hrow) columnIndices
    exact conflictAfter_post ht (hcomparable a ha) (hcomparable b hb)

end CreateIndex

/-! ## 5 and 5.0 -/

/-- Rows of 5 and 5.0 under the rowids 1 and 2. -/
def twoFives : List Row :=
  [⟨1, .unspilled [2, 1, 5] (by decide)⟩, ⟨2, .unspilled [2, 7, 0x40, 0x14, 0, 0, 0, 0, 0, 0] (by decide)⟩]

def fivesTable : TableSchema := ⟨"t", [⟨"a", .integer⟩], 2, "CREATE TABLE t (a INTEGER)"⟩

def fivesDatabase : Database where
  store := ⟨2, 0, 0, fun id => if id = 2 then .body (.tableLeaf (twoFives.map Row.cell)) else .link 0 []⟩
  schemaCookie := 0
  catalog := ⟨[("t", fivesTable)], []⟩

theorem fivesDatabase_rows : TableRows fivesDatabase.store fivesTable
    [(1, [.int 5]), (2, [.real 0x4014000000000000])] := by
  refine ⟨0, .leaf ⟨2, twoFives⟩, [], ⟨rfl, ?_, .inl rfl, ?_, ?_⟩, ?_⟩
  · have hplaces : [Sum.inl twoFives[0], Sum.inl twoFives[1]].Pairwise fun a b => place a < place b := by decide
    exact hplaces
  · intro i hi
    rw [List.mem_singleton.mp hi]
    decide
  · refine ⟨⟨[], [], rfl, Nat.two_pow_pos 32, List.Perm.refl _⟩, ?_, ?_⟩
    · intro p hp
      rw [List.mem_singleton.mp hp]
      rfl
    · intro p hp
      have hfits : (PageBody.tableLeaf (twoFives.map Row.cell)).usedBytes ≤ pageSize := by decide
      rw [List.mem_singleton.mp hp]
      exact hfits
  · exact .cons (by decide) (.cons (by decide) .nil)

theorem createUniqueIndex_iff_fives :
    (∃ index key, (createIndex id ⟨"i", "t", ["a"], true⟩ "CREATE UNIQUE INDEX i ON t (a)" fivesDatabase).1 =
      .error (.uniqueViolation index key)) := by
  have hcan : CanIndex id fivesDatabase.catalog ⟨"i", "t", ["a"], true⟩ fivesTable [0] :=
    ⟨by decide, by decide, by decide, by decide⟩
  apply (createUniqueIndex_iff hcan rfl fivesDatabase_rows (by decide) _).1.mpr
  exact ⟨_, List.mem_cons_self .., _, List.mem_cons_of_mem _ (List.mem_cons_self ..), by decide, by decide,
    by decide, by decide +kernel⟩

end QuillDb
