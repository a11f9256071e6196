/-
  BTree/Restore.lean --- a row that was deleted goes back in.

  Source: `BTree.delete` and `BTree.insert` of `quilldb/btree/btree.py`, the
  fallback of `Update._apply` in `quilldb/exec/operators.py`.

  A row that goes before or behind all rows of a leaf always finds a cut there.  So
  if the new row is refused, the leaf has rows on both sides of it: the leaf was not
  unlinked, it has the room that the old row left, and the pages of the old row's
  chain are free.
-/
import Mathlib.Data.List.Nodup
import QuillDb.BTree.InsertRoom
import QuillDb.BTree.Cursor

set_option autoImplicit false

namespace QuillDb

open Prog PageStore PageTree

section Restore

variable {lost : Residue} {s s₁ s₂ : PageStore} {root : Nat} {others : Image} {H : Nat}
variable {T : TableTree H} {k : Int} {c : Ctx Row Int 0} {l : Leaf Row} {row : Row} {x : List Row}

/-! ## The leaves without the row -/

/-- The leaves before the row's, what is left of it, and those behind. -/
theorem mem_leaves_removeRow {i : Nat} (hx : x ∈ (removeRow c l i).2.leaves) :
    x ⊆ c.itemsBefore ∨ x = l.items.eraseIdx i ∨ x ⊆ c.itemsAfter := by
  have hbefore (h : x ∈ c.before (fun rows => [rows]) fun _ => []) : x ⊆ c.itemsBefore := by
    rw [← c.flatten_leavesBefore]
    exact fun r hr => List.mem_flatten.mpr ⟨x, h, hr⟩
  have hafter (h : x ∈ c.after (fun rows => [rows]) fun _ => []) : x ⊆ c.itemsAfter := by
    rw [← c.flatten_leavesAfter]
    exact fun r hr => List.mem_flatten.mpr ⟨x, h, hr⟩
  rcases Classical.em (l.items.eraseIdx i ≠ [] ∨ c.path = []) with hkept | hempty
  · rw [removeRow_kept hkept, Ctx.leaves_plug] at hx
    rcases List.mem_append.mp hx with hx | hx
    · rcases List.mem_append.mp hx with hx | hx
      · exact .inl (hbefore hx)
      · exact .inr (.inl (List.mem_singleton.mp hx))
    · exact .inr (.inr (hafter hx))
  · obtain ⟨hnil, hpath⟩ := not_or.mp hempty
    have hnil := not_not.mp hnil
    rw [removeRow_unlinked hnil hpath, LevelTree.leaves] at hx
    cases unlinked_unlink c hpath l.id with
    | emptied height walk around =>
        rw [walk] at hx
        exact .inr (.inl ((List.mem_singleton.mp hx).trans hnil.symm))
    | closed walk =>
        rw [(walk _ _ _).2 fun _ => rfl] at hx
        exact (List.mem_append.mp hx).imp hbefore fun h => .inr (hafter h)

/-- Only the row's own leaf has rows on both sides of it. -/
theorem leaf_around (hr : Reached k T c l) (hasc : Ascending T.inorder) {i : Nat}
    (hx : x ∈ (removeRow c l i).2.leaves) (hlow : ¬ ∀ r ∈ x, k < r.rowid)
    (hhigh : ¬ ∀ r ∈ x, r.rowid < k) : x = l.items.eraseIdx i := by
  rcases mem_leaves_removeRow hx with hbefore | heq | hafter
  · exact absurd (fun r hr' => hr.itemsBefore_lt r (hbefore hr')) hhigh
  · exact heq
  · exact absurd (fun r hr' => hr.lt_itemsAfter hasc r (hafter hr')) hlow

/-- Putting a row back where it was taken from. -/
theorem insertAt_eraseIdx {α : Type} {xs : List α} {i : Nat} {a : α} (h : xs[i]? = some a) :
    BTree.insertAt (xs.eraseIdx i) i a = xs := by
  obtain ⟨hi, rfl⟩ := List.getElem?_eq_some_iff.mp h
  have htake : (xs.take i).length = i := List.length_take_of_le (Nat.le_of_lt hi)
  rw [BTree.insertAt, List.eraseIdx_eq_take_drop_succ, List.take_left' htake, List.drop_left' htake,
    List.getElem_cons_drop, List.take_append_drop]

/-- The leaf has the room that the row left. -/
theorem fitLeaf_restored {i : Nat} (hfits : FitLeaf (l.items.map Row.cell))
    (hfound : l.items[i]? = some row) (hrow : row.rowid = k) :
    FitLeaf (combinedCells k row.stored.data (l.items.eraseIdx i)) := by
  have hold := usedBytes_insertAt ((l.items.eraseIdx i).map Row.cell) i row.cell
  rw [insertAt_map, insertAt_eraseIdx hfound] at hold
  have hsize : TableLeafCell.size ⟨k, placeholder .leafTable row.stored.data⟩ = row.cell.size := by
    rw [← hrow]
    exact congrArg (uvarintSize (toTwosComplement row.rowid) + ·) row.stored.size_placeholder
  rw [FitLeaf, combinedCells, usedBytes_insertAt, hsize, ← hold]
  exact hfits

/-- The rowid is not among the rows that are left. -/
theorem absent_removeRow (hr : Reached k T c l) (hasc : Ascending T.inorder)
    (hfound : l.items[leafSlot k l.items]? = some row) (hrow : row.rowid = k) :
    ∀ r ∈ (removeRow c l (leafSlot k l.items)).2.items, r.rowid ≠ k := by
  obtain ⟨hcut, herase⟩ := eraseRow_spec hfound
  have hrows := hr.rows_ascending hasc
  rw [hcut] at hrows
  obtain ⟨-, hright, hcross⟩ := List.pairwise_append.mp hrows
  rw [items_removeRow, herase]
  intro r hmem
  rcases List.mem_append.mp hmem with hmem | hmem
  · rcases List.mem_append.mp hmem with hmem | hmem
    · exact Int.ne_of_lt (hr.itemsBefore_lt r hmem)
    · rcases List.mem_append.mp hmem with hmem | hmem
      · exact hrow ▸ Int.ne_of_lt (hcross r hmem row (List.mem_cons_self ..))
      · exact hrow ▸ Int.ne_of_gt ((List.pairwise_cons.mp hright).1 r hmem)
  · exact Int.ne_of_gt (hr.lt_itemsAfter hasc r hmem)

theorem Reached.total_lt (hr : Reached k T c l) (ht : TableAt s root others T) (hmem : row ∈ l.items) :
    row.stored.data.length < 2 ^ 64 := by
  have hsub : row.stored.image.Sublist (TableTree.image (.leaf l)) :=
    (sublist_flatMap (f := tableFormat.leafExtra) hmem).cons _
  have hnodup := (hr.image.map Prod.fst).nodup_iff.mp ht.live.forget_right.ids_nodup
  rw [List.map_append] at hnodup
  refine row.stored.total_lt ?_ (hr.chain_small ht row hmem)
  rw [← row.stored.image_ids]
  exact (List.nodup_append.mp hnodup).2.1.sublist (hsub.map Prod.fst)

/-- The refused row left the store as it was, and the old one goes back in. -/
theorem restore_post {others₁ : Image} (ht : TableAt s root others T) (hr : Reached k T c l)
    (hfound : l.items[leafSlot k l.items]? = some row) (hrow : row.rowid = k)
    (ht₁ : TableAt s₁ root others₁ (removeRow c l (leafSlot k l.items)).2)
    (hcount : l.items.eraseIdx (leafSlot k l.items) ≠ [] →
      s₁.freelistCount = s.freelistCount + row.stored.chain.length)
    {payload : Bytes} {message : String}
    (hraise : BTree.insert root k payload s₁ = (.error (.pageFull message), s₂)) :
    s₂ = s₁ ∧ Post (BTree.insert root k row.stored.data) s₁ (fun _ s₃ => Inserted root others₁
      (removeRow c l (leafSlot k l.items)).2 k row.stored.data s₃) fun _ _ => False := by
  obtain ⟨c₁, l₁, hr₁, hfind₁⟩ := findLeaf_spec ht₁ k
  have habsent := hr₁.absent (absent_removeRow hr ht.ascending hfound hrow)
  obtain ⟨rfl, hcut⟩ : s₂ = s₁ ∧ ¬ Cuttable (combinedCells k payload l₁.items) := by
    cases insert_raises ht₁ hr₁ hfind₁ hraise with
    | tooLong _ hlong =>
        obtain ⟨_, heq⟩ := checkUvarint_error hlong
        cases heq
    | full _ _ _ hcut => exact ⟨rfl, hcut⟩
  have hend := fun hend => hcut (hr₁.cuttable_end ht₁ habsent payload hend)
  have hleaf : l₁.items = l.items.eraseIdx (leafSlot k l.items) := by
    refine leaf_around hr ht.ascending ?_ (fun h => hend (.inl h)) fun h => hend (.inr h)
    rw [hr₁.leaves]
    exact List.mem_append_left _ (List.mem_append_right _ (List.mem_singleton_self _))
  have hne : l.items.eraseIdx (leafSlot k l.items) ≠ [] := fun hnil => hend (.inl fun r hmem => by
    rw [hleaf, hnil] at hmem
    cases hmem)
  have hfits : FitLeaf (combinedCells k row.stored.data l₁.items) :=
    hleaf ▸ fitLeaf_restored (hr.fitLeaf ht) hfound hrow
  have hfree : FreeFor .leafTable row.stored.data s₂ := by
    rw [FreeFor, ← row.stored.chain_length, hcount hne]
    exact Nat.le_add_left _ _
  have hcheck : checkUvarint row.stored.data.length = .ok () :=
    if_pos (hr.total_lt ht (List.mem_of_getElem? hfound))
  refine ⟨rfl, insert_post_of ht₁ hr₁ hfind₁ ⟨.inl ⟨hfits, hfree⟩, fun e he => ?_, fun h => h habsent,
    fun _ _ _ hcut => hcut (cuttable_of_fits hfits)⟩⟩
  rw [hcheck] at he
  cases he

/-! ## The rows of a table -/

/-- The rowids with their records, as a cursor lists them. -/
def tableRows (root : Nat) : StoreM (List (Int × Bytes)) :=
  TableCursor.each root fun rowid record => return (rowid, record)

def Row.record (r : Row) : Int × Bytes := (r.rowid, r.stored.data)

theorem tableRows_live (ht : TableAt s root others T) :
    tableRows root s = (.ok (T.items.map Row.record), s) := by
  let Seen (seen : List Row) (as : List (Int × Bytes)) (s' : PageStore) : Prop :=
    as = seen.map Row.record ∧ s' = s
  have hvisit (seen : List Row) (r : Row) (rest : List Row) (as : List (Int × Bytes)) (s' : PageStore)
      (_ : T.items = seen ++ r :: rest) (hI : Seen seen as s') :
      Post (return r.record : StoreM _) s' (fun a s'' => Seen (seen ++ [r]) (as ++ [a]) s'')
        fun _ _ => False := by
    obtain ⟨rfl, rfl⟩ := hI
    exact ⟨by rw [List.map_append, List.map_singleton], rfl⟩
  have hpost : Post (tableRows root) s (fun as s' => Seen T.items as s') fun _ _ => False :=
    each_post (fun seen as s' hI => ⟨root, others, hI.2 ▸ ht⟩) hvisit ht ⟨rfl, rfl⟩
  unfold Post at hpost
  split at hpost
  · rename_i heq
    rw [heq, hpost.1, hpost.2]
  · exact hpost.elim

/-- There is one cut between the smaller and the greater rowids. -/
theorem split_unique {xs ys xs' ys' : List Row} (h : xs ++ ys = xs' ++ ys')
    (hxs : ∀ r ∈ xs, r.rowid < k) (hys : ∀ r ∈ ys, k < r.rowid) (hxs' : ∀ r ∈ xs', r.rowid < k)
    (hys' : ∀ r ∈ ys', k < r.rowid) : xs = xs' ∧ ys = ys' := by
  have hbelow (as bs : List Row) (has : ∀ r ∈ as, r.rowid < k) (hbs : ∀ r ∈ bs, k < r.rowid) :
      (as ++ bs).filter (fun r => decide (r.rowid < k)) = as := by
    have hkeep := List.filter_eq_self.mpr fun r hr => decide_eq_true (has r hr)
    have hdrop := List.filter_eq_nil_iff.mpr fun r hr =>
      (Bool.not_eq_true _).mpr (decide_eq_false (Int.not_lt.mpr (Int.le_of_lt (hbs r hr))))
    rw [List.filter_append, hkeep, hdrop, List.append_nil]
  have heq : xs = xs' := by rw [← hbelow xs ys hxs hys, h, hbelow xs' ys' hxs' hys']
  exact ⟨heq, List.append_cancel_left (heq ▸ h)⟩

/-- Deleting a row and putting it back. -/
theorem items_restored {others₁ : Image} (hr : Reached k T c l) (hasc : Ascending T.inorder)
    (hfound : l.items[leafSlot k l.items]? = some row) (hrow : row.rowid = k) {s₃ : PageStore}
    (h : Inserted root others₁ (removeRow c l (leafSlot k l.items)).2 k row.stored.data s₃) :
    ∃ (H' : Nat) (T' : TableTree H'), TableAt s₃ root others₁ T' ∧
      T'.items.map Row.record = T.items.map Row.record := by
  obtain ⟨H', T', st, xs, ys, hT', -, hdata, hold, hnew, hxs, hys⟩ := h
  obtain ⟨hcut, herase⟩ := eraseRow_spec hfound
  have hrows := hr.rows_ascending hasc
  rw [hcut] at hrows
  obtain ⟨-, hright, hcross⟩ := List.pairwise_append.mp hrows
  have hitems : T.items = (c.itemsBefore ++ l.items.take (leafSlot k l.items)) ++
      row :: (l.items.drop (leafSlot k l.items + 1) ++ c.itemsAfter) := by
    rw [hr.items]
    nth_rewrite 1 [hcut]
    simp only [List.append_assoc, List.cons_append]
  rw [items_removeRow, herase] at hold
  simp only [List.append_assoc] at hold
  rw [← List.append_assoc] at hold
  obtain ⟨rfl, rfl⟩ := split_unique hold (List.forall_mem_append.mpr ⟨hr.itemsBefore_lt, fun r hmem =>
      hrow ▸ hcross r hmem row (List.mem_cons_self ..)⟩)
    (List.forall_mem_append.mpr ⟨fun r hmem => hrow ▸ (List.pairwise_cons.mp hright).1 r hmem,
      hr.lt_itemsAfter hasc⟩) hxs hys
  refine ⟨H', T', hT', ?_⟩
  have hrecord : Row.record ⟨k, st⟩ = row.record := Prod.ext hrow.symm hdata
  simp only [hnew, hitems, List.map_append, List.map_cons, hrecord]

end Restore

/-- The deletion of a row returns; and if a new payload is then refused for want of
room, the old one goes back in, and the table is what it was. Each call finds the pages
as the bytes before it are read. -/
def Restores (root : Nat) (rows : List (Int × Bytes)) (k : Int) (old : Bytes) (s : PageStore) : Prop :=
  ∃ s₁, BTree.delete root k s = (.ok true, s₁) ∧
    ∀ new message s₂, BTree.insert root k new s₁.reread = (.error (.pageFull message), s₂) →
      ∃ s₃, BTree.insert root k old s₂.reread = (.ok (), s₃) ∧ (tableRows root s₃.reread).1 = .ok rows

theorem restores {s : PageStore} {root : Nat} {others : Image} {H : Nat} {T : TableTree H}
    (hranged : RangedAt s root others T) {row : Row} (hmem : row ∈ T.items) :
    Restores root (T.items.map Row.record) row.rowid row.stored.data s := by
  have ht := hranged.toTableAt
  obtain ⟨c, l, hr, hfind⟩ := findLeaf_spec ht row.rowid
  have hpresent : ¬ Absent row.rowid l.items := fun habsent => hr.not_mem ht.ascending habsent row hmem rfl
  obtain ⟨row', hfound, hrow⟩ := exists_of_not_absent hpresent
  obtain rfl : row' = row := by
    have hrowids : (T.items.map Row.rowid).Nodup :=
      List.pairwise_map.mpr (ht.items_ascending.imp Int.ne_of_lt)
    refine List.inj_on_of_nodup_map hrowids ?_ hmem hrow
    rw [hr.items]
    exact List.mem_append_left _ (List.mem_append_right _ (List.mem_of_getElem? hfound))
  obtain ⟨lost, hlost⟩ := ht.exists_lost
  have hdelete := delete_found (E := fun _ _ => False) hlost hr hfind hfound hrow
  unfold Post at hdelete
  split at hdelete
  · rename_i found s₁ hrun
    obtain ⟨rfl, ht₁, hcount⟩ := hdelete
    refine ⟨s₁, hrun, fun new message s₂ hraise => ?_⟩
    have ht₁ := ht₁.toTableAt.reread fun r hmem => hranged.int64 r (mem_items_removeRow hr hmem)
    obtain ⟨rfl, hrestore⟩ := restore_post ht hr hfound hrow ht₁ hcount hraise
    rw [reread_twice]
    unfold Post at hrestore
    split at hrestore
    · rename_i s₃ hinsert
      obtain ⟨H', T', ht', hitems⟩ := items_restored hr ht.ascending hfound hrow hrestore
      have hint64 : ∀ r ∈ T'.items, InInt64 r.rowid := by
        intro r hmem
        have hrecord : r.record ∈ T.items.map Row.record := hitems ▸ List.mem_map_of_mem hmem
        obtain ⟨q, hq, heq⟩ := List.mem_map.mp hrecord
        have hrowid : q.rowid = r.rowid := congrArg Prod.fst heq
        exact hrowid ▸ hranged.int64 q hq
      exact ⟨s₃, hinsert, by rw [tableRows_live (ht'.reread hint64), hitems]⟩
    · exact hrestore.elim
  · exact hdelete.elim

/-- Whatever has been called on a table tree that starts as an empty leaf, with rowids in
the int64 range, the row that `Update` deletes is never lost: if the new one does not fit,
the old one does. -/
theorem update_fallback_restores (s : PageStore) (root : Nat) (others : Image) (hroot : root < 2 ^ 32)
    (hlive : Live s ((root, .body (.tableLeaf [])) :: others)) (calls : List TableCall)
    (hcalls : ∀ call ∈ calls, call.InRange) :
    ∃ rows, tableRows root (runCalls root calls s) = (.ok rows, runCalls root calls s) ∧
      ∀ row ∈ rows, Restores root rows row.1 row.2 (runCalls root calls s) := by
  obtain ⟨others', H, T, ht⟩ := (rangedAt_empty hroot hlive).runCalls hcalls
  refine ⟨T.items.map Row.record, tableRows_live ht.toTableAt, fun row hmem => ?_⟩
  obtain ⟨r, hr, rfl⟩ := List.mem_map.mp hmem
  exact restores ht hr

/-- A short row between two long ones. -/
def tightRows : List TableCall :=
  [.insert 1 (List.replicate 2000 1), .insert 2 [7], .insert 3 (List.replicate 2000 3)]

/-- A long row in the place of the short one has no cut around it. -/
theorem update_fallback_restores_tight :
    RaisesPageFull 2 2 (List.replicate 4000 2) ((BTree.delete 2 2).exec (runCalls 2 tightRows emptyTable)).reread ∧
    ∃ rows, tableRows 2 (runCalls 2 tightRows emptyTable) = (.ok rows, runCalls 2 tightRows emptyTable) ∧
      ∀ row ∈ rows, Restores 2 rows row.1 row.2 (runCalls 2 tightRows emptyTable) :=
  ⟨raisesPageFull_of (by decide +kernel),
    update_fallback_restores emptyTable 2 [] (by decide) emptyTable_live tightRows (by decide)⟩

/-- Two long rows, and a third whose rowid is stored as one between theirs. -/
def misplacedRows : List TableCall :=
  [.insert (1 - 2 ^ 63) (List.replicate 2000 1), .insert (2 ^ 63 - 1) (List.replicate 2000 2),
    .insert (2 ^ 63 + 5) (List.replicate 3000 3)]

/-- The third row is behind a separator that it is smaller than: it is not deleted, and where
it would go in again there is no room for it either. -/
theorem update_fallback_misses :
    (tableRows 2 (runCalls 2 misplacedRows emptyTable)).1 = .ok [(1 - 2 ^ 63, List.replicate 2000 1),
      (2 ^ 63 - 1, List.replicate 2000 2), (5 - 2 ^ 63, List.replicate 3000 3)] ∧
    ∃ s₁, BTree.delete 2 (5 - 2 ^ 63) (runCalls 2 misplacedRows emptyTable) = (.ok false, s₁) ∧
    ∃ s₂, BTree.insert 2 (5 - 2 ^ 63) (List.replicate 4000 4) s₁.reread =
        (.error (.pageFull noCutMessage), s₂) ∧
      RaisesPageFull 2 (5 - 2 ^ 63) (List.replicate 3000 3) s₂.reread :=
  ⟨by decide +kernel, _, apply_eq (by decide +kernel), _, apply_eq (by decide +kernel),
    raisesPageFull_of (by decide +kernel)⟩

end QuillDb
