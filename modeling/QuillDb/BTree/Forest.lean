/-
  BTree/Forest.lean --- all trees of a database, side by side.

  Source: `quilldb/btree/btree.py`, `quilldb/btree/index.py`.

  The trees share the pages of one store, and an operation on one of them leaves
  the others as they are.  `Holds` keeps of the trees what the layers above look at:
  where they are, and what the rows of the tables satisfy.
-/
import Mathlib.Data.List.Nodup
import QuillDb.BTree.TableRun
import QuillDb.BTree.IndexRun
import QuillDb.BTree.Grows

set_option autoImplicit false

namespace QuillDb

open Prog PageStore PageTree

inductive TreeKind where
  | table
  | index
  deriving DecidableEq, Repr

/-- A tree of a database. -/
inductive StoredTree where
  | table {h : Nat} (t : TableTree h)
  | index {h : Nat} (t : IndexTree h)

namespace StoredTree

/-- What kind of tree it is, and where its root is. -/
def slot : StoredTree → TreeKind × Nat
  | table t => (.table, t.id)
  | index t => (.index, t.id)

/-- Its pages. -/
def image : StoredTree → Image
  | table t => TableTree.image t
  | index t => IndexTree.image t

/-- The rows of a table. -/
def rows : StoredTree → List Row
  | table t => t.items
  | index _ => []

/-- The root is one of its pages. -/
theorem root_mem_image (t : StoredTree) : t.slot.2 ∈ t.image.map Prod.fst := by
  cases t with
  | table T => exact T.id_mem_image tableFormat.layout
  | index T => exact T.id_mem_image indexFormat.layout

/-- What every operation keeps. -/
def Sound : StoredTree → Prop
  | @table h t => Ascending t.inorder ∧ (h = 0 ∨ ∀ l ∈ t.leaves, l ≠ []) ∧ Small (TableTree.image t)
  | @index h t => (h = 0 ∨ Celled (IndexTree.image t)) ∧ Small (IndexTree.image t)

end StoredTree

/-- The trees of a database, none of which shares a page with another. -/
structure Forest (lost : Residue) (s : PageStore) (trees : List StoredTree) : Prop where
  sound : ∀ t ∈ trees, t.Sound
  live : LiveBut lost s (trees.flatMap StoredTree.image)

variable {lost : Residue} {s : PageStore} {root : Nat} {trees rest : List StoredTree} {h : Nat}

namespace Forest

theorem perm {trees' : List StoredTree} (hf : Forest lost s trees) (hperm : trees.Perm trees') :
    Forest lost s trees' :=
  ⟨fun t ht => hf.sound t (hperm.mem_iff.mpr ht), hf.live.perm (hperm.flatMap_right _)⟩

theorem tableAt {T : TableTree h} (hf : Forest lost s (.table T :: rest)) :
    TableAtBut lost s T.id (rest.flatMap StoredTree.image) T := by
  obtain ⟨hascending, hfilled, hsmall⟩ := hf.sound _ (List.mem_cons_self ..)
  exact ⟨⟨rfl, hascending, hfilled, hsmall, hf.live.live⟩, hf.live⟩

theorem of_tableAt {T : TableTree h} (ht : TableAtBut lost s root (rest.flatMap StoredTree.image) T)
    (hrest : ∀ t ∈ rest, t.Sound) : Forest lost s (.table T :: rest) := by
  refine ⟨fun t hmem => ?_, ht.kept⟩
  rcases List.mem_cons.mp hmem with rfl | hmem
  · exact ⟨ht.ascending, ht.filled, ht.small⟩
  · exact hrest t hmem

theorem indexStored {T : IndexTree h} (hf : Forest lost s (.index T :: rest)) :
    IndexStored s T.id (rest.flatMap StoredTree.image) T := by
  obtain ⟨hfilled, hsmall⟩ := hf.sound _ (List.mem_cons_self ..)
  exact ⟨rfl, hfilled, hsmall, hf.live.live⟩

theorem of_indexStored {T : IndexTree h} (hfilled : h = 0 ∨ Celled T.image) (hsmall : Small T.image)
    (hlive : LiveBut lost s (T.image ++ rest.flatMap StoredTree.image)) (hrest : ∀ t ∈ rest, t.Sound) :
    Forest lost s (.index T :: rest) := by
  refine ⟨fun t hmem => ?_, hlive⟩
  rcases List.mem_cons.mp hmem with rfl | hmem
  · exact ⟨hfilled, hsmall⟩
  · exact hrest t hmem

/-- The pages of a tree with rowids in the int64 range read back as they are. -/
theorem steady {t : StoredTree} (hf : Forest lost s trees) (ht : t ∈ trees) (hint : ∀ r ∈ t.rows, InInt64 r.rowid) :
    Steady t.image := by
  cases t with
  | index X => exact indexImage_steady X
  | table X =>
      obtain ⟨xs, ys, rfl⟩ := List.append_of_mem ht
      exact tableImage_steady ((hf.perm List.perm_middle).tableAt.toTableAt.ranged hint)

theorem rest_sound {t : StoredTree} (hf : Forest lost s (t :: rest)) : ∀ u ∈ rest, u.Sound :=
  fun u hu => hf.sound u (List.mem_cons_of_mem _ hu)

/-! ## Operations on one tree -/

/-- `BTree.insert`. -/
theorem insert {T : TableTree h} (hf : Forest lost s (.table T :: rest)) (k : Int) (payload : Bytes) :
    Post (BTree.insert T.id k payload) s (fun _ s' => ∃ (H : Nat) (U : TableTree H) (r : Row),
      Forest lost s' (.table U :: rest) ∧ U.id = T.id ∧ r.rowid = k ∧ r.stored.data = payload ∧
        ∀ q ∈ U.items, q ∈ T.items ∨ q = r) fun _ _ => True := by
  have ht := hf.tableAt
  obtain ⟨c, l, hr, hfind⟩ := findLeaf_spec ht.toTableAt k
  have hE : InsertErrors (fun _ _ => True) s T.id (rest.flatMap StoredTree.image) T k payload l.items :=
    ⟨.inr fun _ _ _ => trivial, fun _ _ => trivial, fun _ => trivial, fun _ _ _ _ => trivial⟩
  refine (insert_post_but ht hr hfind hE).mono (fun _ s' hs' => ?_) fun _ _ he => he
  obtain ⟨H, U, st, xs, ys, hU, -, hdata, hold, hnew, -⟩ := hs'
  refine ⟨H, U, ⟨k, st⟩, of_tableAt hU hf.rest_sound, hU.root, rfl, hdata, fun q hq => ?_⟩
  rw [hnew] at hq
  rw [hold]
  rcases List.mem_append.mp hq with hq | hq
  · exact .inl (List.mem_append_left _ hq)
  · rcases List.mem_cons.mp hq with rfl | hq
    · exact .inr rfl
    · exact .inl (List.mem_append_right _ hq)

/-- `BTree.delete`. -/
theorem delete {T : TableTree h} (hf : Forest lost s (.table T :: rest)) (k : Int) :
    Post (BTree.delete T.id k) s (fun _ s' => ∃ (H : Nat) (U : TableTree H),
      Forest lost s' (.table U :: rest) ∧ U.id = T.id ∧ U.items ⊆ T.items) fun _ _ => True := by
  refine (delete_post_but hf.tableAt k).mono (fun found s' hs' => ?_) fun _ _ he => he
  rcases hs' with ⟨-, rfl, -⟩ | ⟨-, H, U, xs, ys, r, hU, hold, -, hnew⟩
  · exact ⟨h, T, hf, rfl, fun _ hq => hq⟩
  · refine ⟨H, U, of_tableAt hU hf.rest_sound, hU.root, ?_⟩
    rw [hnew, hold]
    exact ((List.sublist_cons_self r ys).append_left xs).subset

/-- `IndexBTree.insert`. -/
theorem insertKey {T : IndexTree h} (hf : Forest lost s (.index T :: rest)) (values : List Value)
    (rowid : Int) : Post (IndexBTree.insert T.id values rowid) s
      (fun _ s' => ∃ (H : Nat) (U : IndexTree H), Forest lost s' (.index U :: rest) ∧ U.id = T.id)
      fun _ _ => True := by
  refine (insert_index_but hf.indexStored hf.live values rowid).mono (fun _ s' hs' => ?_)
    fun _ _ he => he
  obtain ⟨H, U, e, xs, ys, hU, hlive, -⟩ := hs'
  exact ⟨H, U, of_indexStored hU.filled hU.small hlive hf.rest_sound, hU.root⟩

/-- `IndexBTree.delete`. -/
theorem deleteKey {T : IndexTree h} (hf : Forest lost s (.index T :: rest)) (values : List Value)
    (rowid : Int) : Post (IndexBTree.delete T.id values rowid) s
      (fun _ s' => ∃ (H : Nat) (U : IndexTree H), Forest lost s' (.index U :: rest) ∧ U.id = T.id)
      fun _ _ => True := by
  refine (delete_index_but hf.indexStored hf.live values rowid).mono (fun found s' hs' => ?_)
    fun _ _ _ => trivial
  rcases hs'.2 with ⟨-, rfl, -⟩ | ⟨-, xs, e, ys, -, -, H, U, hid, -, hfilled, hsmall, hlive⟩
  · exact ⟨h, T, hf, rfl⟩
  · exact ⟨H, U, of_indexStored hfilled hsmall hlive hf.rest_sound, hid⟩

end Forest

/-! ## What the layers above see -/

/-- The trees at `slots`, page 1, and nothing else; `ok` holds of the rows of each
table. -/
def Holds (header : PageContent) (slots : List (TreeKind × Nat)) (ok : Nat → Int → Bytes → Prop)
    (s : PageStore) : Prop :=
  ∃ trees : List StoredTree, Forest ⟨header, [], 0⟩ s trees ∧ (trees.map StoredTree.slot).Perm slots ∧
    ∀ t ∈ trees, ∀ r ∈ t.rows, ok t.slot.2 r.rowid r.stored.data

namespace Holds

variable {header : PageContent} {slots : List (TreeKind × Nat)} {ok : Nat → Int → Bytes → Prop}

/-- One tree and the others. -/
theorem exists_tree {slot : TreeKind × Nat} (hh : Holds header slots ok s) (hslot : slot ∈ slots) :
    ∃ t rest, t.slot = slot ∧ Forest ⟨header, [], 0⟩ s (t :: rest) ∧
      (slot :: rest.map StoredTree.slot).Perm slots ∧
        ∀ u ∈ t :: rest, ∀ r ∈ u.rows, ok u.slot.2 r.rowid r.stored.data := by
  obtain ⟨trees, hf, hslots, hok⟩ := hh
  obtain ⟨t, ht, rfl⟩ := List.mem_map.mp (hslots.mem_iff.mpr hslot)
  obtain ⟨xs, ys, rfl⟩ := List.append_of_mem ht
  have hperm : (xs ++ t :: ys).Perm (t :: (xs ++ ys)) := List.perm_middle
  exact ⟨t, xs ++ ys, rfl, hf.perm hperm, (hperm.map _).symm.trans hslots,
    fun u hu => hok u (hperm.mem_iff.mpr hu)⟩

/-- No two trees have the same root. -/
theorem nodup_roots (hh : Holds header slots ok s) : (slots.map Prod.snd).Nodup := by
  obtain ⟨trees, hf, hslots, -⟩ := hh
  rw [← (hslots.map Prod.snd).nodup_iff, List.map_map, List.Nodup, List.pairwise_map]
  have hids := hf.live.ids_nodup
  rw [List.map_flatMap] at hids
  refine (List.nodup_flatMap.mp hids).2.imp fun {t u} hdisjoint heq => ?_
  have hroot : t.slot.2 = u.slot.2 := heq
  exact hdisjoint t.root_mem_image (hroot ▸ u.root_mem_image)

theorem exists_table (hh : Holds header slots ok s) (hslot : (.table, root) ∈ slots) :
    ∃ (H : Nat) (T : TableTree H) (rest : List StoredTree), T.id = root ∧
      Forest ⟨header, [], 0⟩ s (.table T :: rest) ∧
      ((.table, root) :: rest.map StoredTree.slot).Perm slots ∧
        (∀ r ∈ T.items, ok root r.rowid r.stored.data) ∧ ∀ u ∈ rest, ∀ r ∈ u.rows, ok u.slot.2 r.rowid r.stored.data := by
  obtain ⟨t, rest, hslot, hf, hperm, hok⟩ := hh.exists_tree hslot
  cases t with
  | @table H T =>
      obtain rfl : T.id = root := congrArg Prod.snd hslot
      exact ⟨H, T, rest, rfl, hf, hperm, hok _ (List.mem_cons_self ..),
        fun u hu => hok u (List.mem_cons_of_mem _ hu)⟩
  | index T => cases congrArg Prod.fst hslot

theorem exists_index (hh : Holds header slots ok s) (hslot : (.index, root) ∈ slots) :
    ∃ (H : Nat) (T : IndexTree H) (rest : List StoredTree), T.id = root ∧
      Forest ⟨header, [], 0⟩ s (.index T :: rest) ∧
      ((.index, root) :: rest.map StoredTree.slot).Perm slots ∧
        ∀ u ∈ rest, ∀ r ∈ u.rows, ok u.slot.2 r.rowid r.stored.data := by
  obtain ⟨t, rest, hslot, hf, hperm, hok⟩ := hh.exists_tree hslot
  cases t with
  | table T => cases congrArg Prod.fst hslot
  | @index H T =>
      obtain rfl : T.id = root := congrArg Prod.snd hslot
      exact ⟨H, T, rest, rfl, hf, hperm, fun u hu => hok u (List.mem_cons_of_mem _ hu)⟩

theorem of_table {T : TableTree h} (hf : Forest ⟨header, [], 0⟩ s (.table T :: rest))
    (hslots : ((.table, T.id) :: rest.map StoredTree.slot).Perm slots)
    (hok : ∀ r ∈ T.items, ok T.id r.rowid r.stored.data)
    (hrest : ∀ u ∈ rest, ∀ r ∈ u.rows, ok u.slot.2 r.rowid r.stored.data) : Holds header slots ok s := by
  refine ⟨.table T :: rest, hf, hslots, fun u hu => ?_⟩
  rcases List.mem_cons.mp hu with rfl | hu
  · exact hok
  · exact hrest u hu

theorem of_index {T : IndexTree h} (hf : Forest ⟨header, [], 0⟩ s (.index T :: rest))
    (hslots : ((.index, T.id) :: rest.map StoredTree.slot).Perm slots)
    (hrest : ∀ u ∈ rest, ∀ r ∈ u.rows, ok u.slot.2 r.rowid r.stored.data) : Holds header slots ok s := by
  refine ⟨.index T :: rest, hf, hslots, fun u hu => ?_⟩
  rcases List.mem_cons.mp hu with rfl | hu
  · exact fun r hr => absurd hr List.not_mem_nil
  · exact hrest u hu

/-! ### Operations -/

theorem insert (hh : Holds header slots ok s) (hslot : (.table, root) ∈ slots) (k : Int) {payload : Bytes}
    (hok : ok root k payload) : Post (BTree.insert root k payload) s
      (fun _ s' => Holds header slots ok s') fun _ _ => True := by
  obtain ⟨H, T, rest, rfl, hf, hslots, hrows, hrest⟩ := hh.exists_table hslot
  refine (hf.insert k payload).mono (fun _ s' hs' => ?_) fun _ _ he => he
  obtain ⟨H', U, r, hU, hid, hrowid, hdata, hsub⟩ := hs'
  refine of_table hU (hid ▸ hslots) (fun q hq => ?_) hrest
  rw [hid]
  rcases hsub q hq with hq | rfl
  · exact hrows q hq
  · rwa [hrowid, hdata]

theorem delete (hh : Holds header slots ok s) (hslot : (.table, root) ∈ slots) (k : Int) :
    Post (BTree.delete root k) s (fun _ s' => Holds header slots ok s') fun _ _ => True := by
  obtain ⟨H, T, rest, rfl, hf, hslots, hrows, hrest⟩ := hh.exists_table hslot
  refine (hf.delete k).mono (fun _ s' hs' => ?_) fun _ _ he => he
  obtain ⟨H', U, hU, hid, hsub⟩ := hs'
  refine of_table hU (hid ▸ hslots) (fun q hq => ?_) hrest
  rw [hid]
  exact hrows q (hsub hq)

theorem insertKey (hh : Holds header slots ok s) (hslot : (.index, root) ∈ slots) (values : List Value)
    (rowid : Int) : Post (IndexBTree.insert root values rowid) s
      (fun _ s' => Holds header slots ok s') fun _ _ => True := by
  obtain ⟨H, T, rest, rfl, hf, hslots, hrest⟩ := hh.exists_index hslot
  refine (hf.insertKey values rowid).mono (fun _ s' hs' => ?_) fun _ _ he => he
  obtain ⟨H', U, hU, hid⟩ := hs'
  exact of_index hU (hid ▸ hslots) hrest

theorem deleteKey (hh : Holds header slots ok s) (hslot : (.index, root) ∈ slots) (values : List Value)
    (rowid : Int) : Post (IndexBTree.delete root values rowid) s
      (fun _ s' => Holds header slots ok s') fun _ _ => True := by
  obtain ⟨H, T, rest, rfl, hf, hslots, hrest⟩ := hh.exists_index hslot
  refine (hf.deleteKey values rowid).mono (fun _ s' hs' => ?_) fun _ _ he => he
  obtain ⟨H', U, hU, hid⟩ := hs'
  exact of_index hU (hid ▸ hslots) hrest

/-! ### Loops -/

/-- A loop that only looks meets rows that `ok` holds of. -/
theorem each {α : Type} {visit : Int → Bytes → StoreM α}
    (hvisit : ∀ rowid payload, Reads (visit rowid payload)) (hh : Holds header slots ok s)
    (hslot : (.table, root) ∈ slots) :
    Post (TableCursor.each root visit) s (fun as s' => s' = s ∧ ∃ rows : List Row,
      (∀ r ∈ rows, ok root r.rowid r.stored.data) ∧
        List.Forall₂ (fun r a => (visit r.rowid r.stored.data s).1 = .ok a) rows as) fun _ _ => True := by
  obtain ⟨H, T, rest, rfl, hf, -, hrows, -⟩ := hh.exists_table hslot
  have ht := hf.tableAt.toTableAt
  let I (seen : List Row) (as : List α) (s' : PageStore) : Prop :=
    s' = s ∧ List.Forall₂ (fun r a => (visit r.rowid r.stored.data s).1 = .ok a) seen as
  refine (each_post (I := I) (fun seen as s' hI => ⟨_, _, hI.1.symm ▸ ht⟩)
    (fun seen r rest as s' _ hI => ?_) ht ⟨rfl, .nil⟩).mono (fun as s' hs' => ?_) fun _ _ he => he
  · obtain ⟨rfl, hseen⟩ := hI
    refine (hvisit _ _).post.mono (fun a s'' hs'' => ⟨hs''.1, ?_⟩) fun _ _ _ => trivial
    exact List.rel_append hseen (.cons hs''.2 .nil)
  · exact ⟨hs'.1, T.items, hrows, hs'.2⟩

end Holds

end QuillDb
