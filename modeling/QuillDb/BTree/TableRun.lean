/-
  BTree/TableRun.lean --- runs of calls on a table tree.

  Source: `quilldb/btree/btree.py`, `quilldb/btree/validate.py`.

  A call that raises is a step of the run like any other: the next one starts
  from whatever it left on the pages, as they read back from their bytes.
-/
import QuillDb.BTree.PageBytes
import QuillDb.BTree.TableDelete

set_option autoImplicit false

namespace QuillDb

open Prog PageStore PageTree

/-- A call on a table tree. -/
inductive TableCall where
  | insert (rowid : Int) (payload : Bytes)
  | delete (rowid : Int)

def TableCall.run (root : Nat) : TableCall → StoreM Unit
  | insert rowid payload => BTree.insert root rowid payload
  | delete rowid => do
      let _ ← BTree.delete root rowid
      return ()

/-- The rowid is one that `encode_leaf_table_cell` asks for; `delete` encodes none. -/
def TableCall.InRange : TableCall → Prop
  | insert rowid _ => InInt64 rowid
  | delete _ => True

instance : (call : TableCall) → Decidable call.InRange
  | .insert rowid _ => inferInstanceAs (Decidable (InInt64 rowid))
  | .delete _ => .isTrue trivial

/-- The store after some calls, whether they returned or raised: each finds the pages as
the bytes that the calls before it wrote are read. -/
def runCalls (root : Nat) (calls : List TableCall) (s : PageStore) : PageStore :=
  calls.foldl (fun s call => ((call.run root).exec s).reread) s

/-- What `validate_btree` checks, and that no leaf below the root is empty: the
pages of `t` are those of the store, each is reached once, rowids and separators
ascend, and a separator bounds the rows on both sides; and the bytes of the pages
are read as the pages. -/
structure WellFormed (s : PageStore) (root : Nat) {h : Nat} (t : TableTree h) : Prop where
  root : t.id = root
  stored : ∀ p ∈ t.image, s.pages p.1 = p.2
  once : (t.image.map Prod.fst).Nodup
  rows_ascend : t.items.Pairwise fun a b => a.rowid < b.rowid
  separators_ascend : (t.inorder.filterMap Sum.getRight?).Pairwise (· < ·)
  separated : ∀ xs sep ys, t.inorder = xs ++ .inr sep :: ys →
    (∀ r, .inl r ∈ xs → r.rowid ≤ sep) ∧ ∀ r, .inl r ∈ ys → sep < r.rowid
  filled : h = 0 ∨ ∀ rows ∈ t.leaves, rows ≠ []
  bytes : ∀ id b, (id, .body b) ∈ t.image → b.ReadsAs b

/-- The table tree at `root`, of rowids in the int64 range. -/
structure RangedAt (s : PageStore) (root : Nat) (others : Image) {h : Nat} (t : TableTree h) : Prop
    extends TableAt s root others t where
  int64 : ∀ r ∈ t.items, InInt64 r.rowid

variable {s : PageStore} {root : Nat} {others : Image} {H : Nat} {T : TableTree H}

theorem RangedAt.wellFormed (ht : RangedAt s root others T) : WellFormed s root T where
  root := ht.root
  stored := fun p hp => ht.live.holds p (List.mem_append_left _ hp)
  once := ht.live.forget_right.ids_nodup
  rows_ascend := ht.items_ascending
  separators_ascend := by
    refine List.Pairwise.filterMap _ (fun a b hab r hr q hq => ?_) ht.ascending
    rw [Sum.getRight?_eq_some_iff] at hr hq
    rw [hr, hq] at hab
    have hab : 2 * r + 1 < 2 * q + 1 := hab
    omega
  separated := by
    intro xs sep ys hsplit
    have hasc := ht.ascending
    rw [hsplit] at hasc
    obtain ⟨-, hright, hcross⟩ := List.pairwise_append.mp hasc
    refine ⟨fun r hr => ?_, fun r hr => ?_⟩
    · have : 2 * r.rowid < 2 * sep + 1 := hcross _ hr _ (List.mem_cons_self ..)
      omega
    · have : 2 * sep + 1 < 2 * r.rowid := (List.pairwise_cons.mp hright).1 _ hr
      omega
  filled := ht.filled
  bytes := fun _ _ hb => ht.readsAs ht.int64 hb

theorem RangedAt.reread (ht : RangedAt s root others T) : RangedAt s.reread root (rereadImage others) T :=
  ⟨ht.toTableAt.reread ht.int64, ht.int64⟩

/-- What holds of the state that a program returns or raises in holds after it. -/
theorem exec_of_post {α : Type} {m : StoreM α} {P : PageStore → Prop} {Q : α → PageStore → Prop}
    {E : DbError → PageStore → Prop} (h : Post m s Q E) (hQ : ∀ a s', Q a s' → P s')
    (hE : ∀ e s', E e s' → P s') : P (m.exec s) := by
  unfold Post at h
  unfold Prog.exec
  split at h
  · rename_i heq
    rw [heq]
    exact hQ _ _ h
  · rename_i heq
    rw [heq]
    exact hE _ _ h

/-- The rows stay in the range when one of the range is added. -/
theorem RangedAt.of_rows {s' : PageStore} {others' : Image} {H' : Nat} {T' : TableTree H'} {k : Int}
    (ht : RangedAt s root others T) (hk : InInt64 k) (ht' : TableAt s' root others' T')
    (hrows : ∀ r ∈ T'.items, r ∈ T.items ∨ r.rowid = k) : RangedAt s' root others' T' := by
  refine ⟨ht', fun r hr => ?_⟩
  rcases hrows r hr with hold | hnew
  · exact ht.int64 r hold
  · rw [hnew]
    exact hk

theorem Inserted.mem_items {k : Int} {payload : Bytes} {s' : PageStore}
    (h : Inserted root others T k payload s') : ∃ (H' : Nat) (T' : TableTree H'), TableAt s' root others T' ∧
      (Branching T → Branching T') ∧ ∀ r ∈ T'.items, r ∈ T.items ∨ r.rowid = k := by
  obtain ⟨H', T', st, xs, ys, hT', hbranching, -, hold, hnew, -⟩ := h
  refine ⟨H', T', hT', hbranching, fun r hr => ?_⟩
  rw [hnew] at hr
  rw [hold]
  rcases List.mem_append.mp hr with hr | hr
  · exact .inl (List.mem_append_left _ hr)
  · rcases List.mem_cons.mp hr with rfl | hr
    · exact .inr rfl
    · exact .inl (List.mem_append_right _ hr)

/-- An insertion, whether it returned or raised. -/
theorem RangedAt.insert (ht : RangedAt s root others T) {k : Int} (hk : InInt64 k) (payload : Bytes) :
    ∃ (H' : Nat) (T' : TableTree H'), RangedAt ((BTree.insert root k payload).exec s) root others T' ∧
      (Branching T → Branching T') := by
  let P : PageStore → Prop := fun s' => ∃ (H' : Nat) (T' : TableTree H'), RangedAt s' root others T' ∧
    (Branching T → Branching T')
  refine exec_of_post (P := P) (insert_post ht.toTableAt k payload) (fun _ s' hs' => ?_) fun e s' hs' => ?_
  · obtain ⟨H', T', hT', hbranching, hrows⟩ := hs'.mem_items
    exact ⟨H', T', ht.of_rows hk hT' hrows, hbranching⟩
  · rcases hs' with rfl | ⟨-, H', T', hT', hbranching, hrows⟩
    · exact ⟨H, T, ht, id⟩
    · exact ⟨H', T', ht.of_rows hk hT' hrows, hbranching⟩

/-- One call. -/
theorem RangedAt.run (ht : RangedAt s root others T) {call : TableCall} (hcall : call.InRange) :
    ∃ (H' : Nat) (T' : TableTree H'), RangedAt ((call.run root).exec s) root others T' := by
  cases call with
  | insert k payload =>
      obtain ⟨H', T', hT', -⟩ := ht.insert hcall payload
      exact ⟨H', T', hT'⟩
  | delete k =>
      let P : PageStore → Prop := fun s' => ∃ (H' : Nat) (T' : TableTree H'), RangedAt s' root others T'
      have hdelete : Post (TableCall.run root (.delete k)) s
          (fun _ s' => ∃ found, Deleted s root others T k found s') fun _ _ => False :=
        (delete_post ht.toTableAt k).bind (fun found s' hs' => ⟨found, hs'⟩) fun _ _ he => he
      refine exec_of_post (P := P) hdelete (fun _ s' hs' => ?_) fun e s' hs' => hs'.elim
      obtain ⟨found, ⟨-, rfl, -⟩ | ⟨-, H', T', xs, ys, r, hT', hold, -, hnew⟩⟩ := hs'
      · exact ⟨H, T, ht⟩
      · refine ⟨H', T', hT', fun q hq => ht.int64 q ?_⟩
        rw [hnew] at hq
        rw [hold]
        exact (List.mem_append.mp hq).elim (List.mem_append_left _) fun hq =>
          List.mem_append_right _ (List.mem_cons_of_mem _ hq)

theorem RangedAt.runCalls (ht : RangedAt s root others T) {calls : List TableCall}
    (hcalls : ∀ call ∈ calls, call.InRange) :
    ∃ (others' : Image) (H' : Nat) (T' : TableTree H'), RangedAt (runCalls root calls s) root others' T' := by
  induction calls generalizing s others H T with
  | nil => exact ⟨others, H, T, ht⟩
  | cons call calls ih =>
      obtain ⟨H', T', hT'⟩ := ht.run (hcalls call (List.mem_cons_self ..))
      exact ih hT'.reread fun other hother => hcalls other (List.mem_cons_of_mem _ hother)

/-- An empty leaf. -/
theorem tableAt_empty (hroot : root < 2 ^ 32)
    (hlive : Live s ((root, .body (.tableLeaf [])) :: others)) :
    TableAt s root others (.leaf ⟨root, []⟩) :=
  ⟨rfl, List.Pairwise.nil, .inl rfl, fun _ hi => List.mem_singleton.mp hi ▸ hroot, hlive⟩

theorem rangedAt_empty (hroot : root < 2 ^ 32)
    (hlive : Live s ((root, .body (.tableLeaf [])) :: others)) :
    RangedAt s root others (.leaf ⟨root, []⟩) :=
  ⟨tableAt_empty hroot hlive, fun _ hr => absurd hr List.not_mem_nil⟩

/-- Whatever is called on a table tree that starts as an empty leaf, with rowids in the
int64 range, and whether or not it raises, the pages below the root store a well-formed
tree. -/
theorem table_tree_wellFormed (s : PageStore) (root : Nat) (others : Image) (hroot : root < 2 ^ 32)
    (hlive : Live s ((root, .body (.tableLeaf [])) :: others)) (calls : List TableCall)
    (hcalls : ∀ call ∈ calls, call.InRange) :
    ∃ (H : Nat) (T : TableTree H), WellFormed (runCalls root calls s) root T := by
  obtain ⟨others', H, T, hT⟩ := (rangedAt_empty hroot hlive).runCalls hcalls
  exact ⟨H, T, hT.wellFormed⟩

/-- A database of two pages, the second of them an empty table. -/
def emptyTable : PageStore where
  pageCount := 2
  freelistTrunk := 0
  freelistCount := 0
  pages id := if id = 2 then .body (.tableLeaf []) else .link 0 []

theorem emptyTable_live : Live emptyTable [(2, .body (.tableLeaf []))] where
  free := ⟨[], [], rfl, Nat.two_pow_pos 32, List.Perm.refl _⟩
  holds := by
    intro p hp
    rw [List.mem_singleton.mp hp]
    rfl
  fits := by
    intro p hp
    have hempty : (PageBody.tableLeaf []).usedBytes ≤ pageSize := by decide
    rw [List.mem_singleton.mp hp]
    exact hempty

/-- The root splits, one row is inserted twice, a leaf is emptied and unlinked. -/
def splittingCalls : List TableCall :=
  [.insert 7 (List.replicate 2000 1), .insert 3 (List.replicate 2000 2), .insert (-5) (List.replicate 2000 3),
    .insert 3 [4], .insert 9 (List.replicate 5000 5), .insert (2 ^ 63 - 1) [6], .delete 9, .delete (-5)]

theorem table_tree_wellFormed_splits :
    (runCalls 2 (splittingCalls.take 6) emptyTable).pages 2 =
      .body (.tableInterior [⟨4, -5⟩, ⟨3, 7⟩] 6) ∧
    ∃ (H : Nat) (T : TableTree H), WellFormed (runCalls 2 splittingCalls emptyTable) 2 T :=
  ⟨by decide +kernel, table_tree_wellFormed emptyTable 2 [] (by decide) emptyTable_live _ (by decide)⟩

/-- The rowid behind the greatest one is stored as the least one, behind the others. -/
theorem insert_disorders_leaf : ¬ ∃ (H : Nat) (T : TableTree H), WellFormed
    (runCalls 2 [.insert (2 ^ 63 - 1) [1], .insert (2 ^ 63) [2]] emptyTable) 2 T := by
  have hpage : (runCalls 2 [.insert (2 ^ 63 - 1) [1], .insert (2 ^ 63) [2]] emptyTable).pages 2 =
      .body (.tableLeaf [⟨2 ^ 63 - 1, ⟨1, [1], 0⟩⟩, ⟨-2 ^ 63, ⟨1, [2], 0⟩⟩]) := by
    decide +kernel
  rintro ⟨H, T, hT⟩
  cases H with
  | zero =>
      obtain ⟨l, hl⟩ := T.exists_leaf
      have hstored := hT.stored
      have hascend := hT.rows_ascend
      have hroot := hT.root
      rw [hl] at hstored hascend hroot
      have hid : l.id = 2 := hroot
      have hleaf := hstored (l.id, .body (.tableLeaf (l.items.map Row.cell))) (List.mem_cons_self ..)
      simp only [hid] at hleaf
      rw [hpage] at hleaf
      have hrows : l.items.map Row.rowid = [2 ^ 63 - 1, -2 ^ 63] := by
        have hcells := PageBody.tableLeaf.inj (PageContent.body.inj hleaf)
        have hrowids := congrArg (List.map TableLeafCell.rowid) hcells
        rw [List.map_map] at hrowids
        exact hrowids.symm
      have hsorted : (l.items.map Row.rowid).Pairwise (· < ·) := List.pairwise_map.mpr hascend
      rw [hrows] at hsorted
      revert hsorted
      decide
  | succ H =>
      obtain ⟨n, hn⟩ := T.exists_node
      have hstored := hT.stored
      have hroot := hT.root
      rw [hn] at hstored hroot
      have hid : n.id = 2 := hroot
      have hnode := hstored (n.id, .body (tableFormat.nodeBody (n.map LevelTree.id))) (List.mem_cons_self ..)
      simp only [hid] at hnode
      rw [hpage] at hnode
      cases PageContent.body.inj hnode

end QuillDb
