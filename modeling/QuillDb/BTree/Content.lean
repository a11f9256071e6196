/-
  BTree/Content.lean --- what the trees of a database say.

  Source: `quilldb/btree/btree.py`, `quilldb/btree/index.py`.

  The rows of the tables and the keys of the indexes, by root page, without the pages
  that hold them.  An operation on a tree changes the list at its root and no other.
-/
import QuillDb.BTree.Lookup
import QuillDb.BTree.Raises

set_option autoImplicit false

namespace QuillDb

open Prog PageStore PageTree Fallible

/-- The rows of each table and the keys of each index, in the order of the tree. -/
structure Content where
  rows : Nat → List (Int × List Value)
  keys : Nat → List (List Value)

namespace Content

variable (content : Content) (root : Nat)

def setRows (rows : List (Int × List Value)) : Content :=
  { content with rows := Function.update content.rows root rows }

def setKeys (keys : List (List Value)) : Content :=
  { content with keys := Function.update content.keys root keys }

variable {content root} {rows : List (Int × List Value)} {keys : List (List Value)} {other : Nat}

@[simp] theorem setRows_rows : (content.setRows root rows).rows root = rows := by simp [setRows]

theorem setRows_rows_of_ne (h : other ≠ root) : (content.setRows root rows).rows other = content.rows other := by
  simp [setRows, h]

@[simp] theorem setRows_setRows {rows' : List (Int × List Value)} :
    (content.setRows root rows).setRows root rows' = content.setRows root rows' := by
  simp [setRows]

@[simp] theorem setRows_self : content.setRows root (content.rows root) = content := by simp [setRows]

@[simp] theorem setRows_keys : (content.setRows root rows).keys = content.keys := rfl

@[simp] theorem setKeys_keys : (content.setKeys root keys).keys root = keys := by simp [setKeys]

theorem setKeys_keys_of_ne (h : other ≠ root) : (content.setKeys root keys).keys other = content.keys other := by
  simp [setKeys, h]

@[simp] theorem setKeys_self : content.setKeys root (content.keys root) = content := by simp [setKeys]

@[simp] theorem setKeys_setKeys {keys' : List (List Value)} :
    (content.setKeys root keys).setKeys root keys' = content.setKeys root keys' := by
  simp [setKeys]

@[simp] theorem setKeys_rows : (content.setKeys root keys).rows = content.rows := rfl

end Content

/-- The row on the page holds these values. -/
def Row.Shows (r : Row) (row : Int × List Value) : Prop :=
  r.rowid = row.1 ∧ decodeRecord r.stored.data 0 = .ok row.2

theorem Row.Shows.unique {r : Row} {row row' : Int × List Value} (h : r.Shows row) (h' : r.Shows row') :
    row = row' := by
  apply Prod.ext
  · exact h.1.symm.trans h'.1
  · exact Except.ok.inj (h.2.symm.trans h'.2)

namespace StoredTree

/-- The tree says what the content has at its root. -/
def Shows (content : Content) : StoredTree → Prop
  | table T => List.Forall₂ Row.Shows T.items (content.rows T.id)
  | index T => T.entries.map Entry.key = content.keys T.id

variable {content : Content} {root : Nat} {rows : List (Int × List Value)} {keys : List (List Value)}

theorem Shows.setRows {t : StoredTree} (h : t.Shows content) (hne : t.slot.2 ≠ root) :
    t.Shows (content.setRows root rows) := by
  cases t with
  | table T =>
      have hrows : (content.setRows root rows).rows T.id = content.rows T.id := Content.setRows_rows_of_ne hne
      rw [Shows, hrows]
      exact h
  | index T => exact h

theorem Shows.setKeys {t : StoredTree} (h : t.Shows content) (hne : t.slot.2 ≠ root) :
    t.Shows (content.setKeys root keys) := by
  cases t with
  | table T => exact h
  | index T =>
      have hkeys : (content.setKeys root keys).keys T.id = content.keys T.id := Content.setKeys_keys_of_ne hne
      rw [Shows, hkeys]
      exact h

end StoredTree

/-- The pages hold trees at `slots` that say the content, page 1, and nothing else. -/
def Stores (header : PageContent) (slots : List (TreeKind × Nat)) (content : Content) (s : PageStore) : Prop :=
  ∃ trees : List StoredTree, Forest ⟨header, [], 0⟩ s trees ∧ (trees.map StoredTree.slot).Perm slots ∧
    ∀ t ∈ trees, t.Shows content

/-- Of rows that ascend, all but the one with a rowid. -/
theorem filter_ne_of_ascending {xs ys : List (Int × List Value)} {row : Int × List Value} {k : Int}
    (hasc : (xs ++ row :: ys).Pairwise fun a b => a.1 < b.1) (hrow : row.1 = k) :
    (xs ++ row :: ys).filter (fun row => row.1 ≠ k) = xs ++ ys := by
  obtain ⟨-, hright, hcross⟩ := List.pairwise_append.mp hasc
  have hxs : xs.filter (fun row => row.1 ≠ k) = xs := by
    apply List.filter_eq_self.mpr
    intro other hother
    have hlt := hcross other hother row (List.mem_cons_self ..)
    simp
    omega
  have hys : ys.filter (fun row => row.1 ≠ k) = ys := by
    apply List.filter_eq_self.mpr
    intro other hother
    have hlt := (List.pairwise_cons.mp hright).1 other hother
    simp
    omega
  rw [List.filter_append, List.filter_cons_of_neg (by simp [hrow]), hxs, hys]

/-- Two rows with one rowid are one row. -/
theorem row_unique {rows : List (Int × List Value)} (hasc : rows.Pairwise fun a b => a.1 < b.1) {a b : Int × List Value}
    (ha : a ∈ rows) (hb : b ∈ rows) (heq : a.1 = b.1) : a = b := by
  have hnodup : (rows.map Prod.fst).Nodup := List.pairwise_map.mpr (hasc.imp fun hlt => hlt.ne)
  exact List.inj_on_of_nodup_map hnodup ha hb heq

/-- Keys of `n` columns, none with a NaN, in order. -/
structure KeysSorted (n : Nat) (keys : List (List Value)) : Prop where
  comparable : ∀ key ∈ keys, Comparable n key
  ordered : keys.Pairwise fun a b => keyPlace a ≤ keyPlace b

theorem keysSorted_iff {n : Nat} {es : List Entry} : KeysSorted n (es.map Entry.key) ↔ Sorted n es := by
  have hordered : (es.map Entry.key).Pairwise (fun a b => keyPlace a ≤ keyPlace b) ↔ InOrder es :=
    List.pairwise_map
  constructor
  · intro h
    exact ⟨fun e he => h.comparable _ (List.mem_map_of_mem he), hordered.mp h.ordered⟩
  · intro h
    refine ⟨fun key hkey => ?_, hordered.mpr h.ordered⟩
    obtain ⟨e, he, rfl⟩ := List.mem_map.mp hkey
    exact h.comparable e he

theorem KeysSorted.keysOrdered {n : Nat} {keys : List (List Value)} (h : KeysSorted n keys) : KeysOrdered keys :=
  h.ordered.imp_of_mem fun ha hb hle => (compareKeys_le (h.comparable _ ha) (h.comparable _ hb)).mpr hle

/-- A key goes in; sorted keys stay sorted. -/
def Gains (key : List Value) (old new : List (List Value)) : Prop :=
  ∃ xs ys, old = xs ++ ys ∧ new = xs ++ key :: ys ∧
    ∀ n, Comparable n key → KeysSorted n old → KeysSorted n new

/-- An equal key goes, or there was none. -/
def Loses (key : List Value) (old new : List (List Value)) : Prop :=
  (∃ xs found ys, old = xs ++ found :: ys ∧ new = xs ++ ys ∧ compareKeys found key = .eq) ∨
    new = old ∧ ∀ n, Comparable n key → KeysSorted n old → ∀ other ∈ old, keyPlace other ≠ keyPlace key

/-- The rowid of the first key that begins with the values; NULL never conflicts. -/
def firstConflict (keys : List (List Value)) (values : List Value) : Option Int :=
  if Value.null ∈ values then none
  else ((keys.filter fun key => compareKeys values key = .eq).map rowidOf).head?

/-- One more than the last rowid, or 1. -/
def nextRowidOf (rows : List (Int × List Value)) : Int :=
  match rows.getLast? with
  | none => 1
  | some row => row.1 + 1

theorem lt_nextRowidOf {rows : List (Int × List Value)} (hasc : rows.Pairwise fun a b => a.1 < b.1) :
    ∀ row ∈ rows, row.1 < nextRowidOf rows := by
  intro row hrow
  rcases List.eq_nil_or_concat' rows with rfl | ⟨front, last, rfl⟩
  · cases hrow
  · obtain ⟨-, -, hcross⟩ := List.pairwise_append.mp hasc
    have hnext : nextRowidOf (front ++ [last]) = last.1 + 1 := by simp [nextRowidOf]
    rw [hnext]
    rcases List.mem_append.mp hrow with hrow | hrow
    · have hlt := hcross row hrow last (List.mem_singleton_self _)
      omega
    · rw [List.mem_singleton.mp hrow]
      omega

/-- `IndexBTree.insert` on a tree of a forest. -/
theorem Forest.insertKey_gains {header : PageContent} {s : PageStore} {rest : List StoredTree} {h : Nat}
    {T : IndexTree h} (hf : Forest ⟨header, [], 0⟩ s (.index T :: rest)) (values : List Value) (rowid : Int) :
    Post (IndexBTree.insert T.id values rowid) s (fun _ s' => ∃ (H : Nat) (U : IndexTree H),
      Forest ⟨header, [], 0⟩ s' (.index U :: rest) ∧ U.id = T.id ∧
        Gains (values ++ [.int rowid]) (T.entries.map Entry.key) (U.entries.map Entry.key)) fun e _ => e.Ordinary := by
  have hpost := insert_index_but hf.indexStored hf.live values rowid
  apply (hpost.and (IndexBTree.insert_raises T.id values rowid).post).mono ?_ fun _ _ he => he.2
  rintro - s' ⟨⟨H, U, e, xs, ys, hU, hlive, hkey, hold, hnew, hkeep⟩, -⟩
  refine ⟨H, U, Forest.of_indexStored hU.filled hU.small hlive hf.rest_sound, hU.root, xs.map Entry.key,
    ys.map Entry.key, ?_, ?_, fun n hn hsorted => ?_⟩
  · rw [hold, List.map_append]
  · rw [hnew, List.map_append, List.map_cons, hkey]
  · rw [keysSorted_iff] at hsorted
    exact keysSorted_iff.mpr (hkeep n hn hsorted)

namespace Stores

variable {header : PageContent} {slots : List (TreeKind × Nat)} {content : Content} {s : PageStore}
  {root h : Nat} {rest : List StoredTree}

theorem holds (hs : Stores header slots content s) : Holds header slots (fun _ _ _ => True) s := by
  obtain ⟨trees, hf, hslots, -⟩ := hs
  exact ⟨trees, hf, hslots, fun _ _ _ _ => trivial⟩

/-- No two trees have the same root. -/
theorem nodup_roots (hs : Stores header slots content s) : (slots.map Prod.snd).Nodup :=
  hs.holds.nodup_roots

/-! ## One tree and the others -/

theorem exists_tree {slot : TreeKind × Nat} (hs : Stores header slots content s) (hslot : slot ∈ slots) :
    ∃ t rest, t.slot = slot ∧ Forest ⟨header, [], 0⟩ s (t :: rest) ∧
      (slot :: rest.map StoredTree.slot).Perm slots ∧ t.Shows content ∧ ∀ u ∈ rest, u.Shows content := by
  obtain ⟨trees, hf, hslots, hshows⟩ := hs
  obtain ⟨t, ht, rfl⟩ := List.mem_map.mp (hslots.mem_iff.mpr hslot)
  obtain ⟨xs, ys, rfl⟩ := List.append_of_mem ht
  have hperm : (xs ++ t :: ys).Perm (t :: (xs ++ ys)) := List.perm_middle
  refine ⟨t, xs ++ ys, rfl, hf.perm hperm, (hperm.map _).symm.trans hslots, hshows t ht, fun u hu => ?_⟩
  exact hshows u (hperm.mem_iff.mpr (List.mem_cons_of_mem _ hu))

theorem exists_table (hs : Stores header slots content s) (hslot : (.table, root) ∈ slots) :
    ∃ (H : Nat) (T : TableTree H) (rest : List StoredTree), T.id = root ∧
      Forest ⟨header, [], 0⟩ s (.table T :: rest) ∧ ((.table, root) :: rest.map StoredTree.slot).Perm slots ∧
        List.Forall₂ Row.Shows T.items (content.rows root) ∧ ∀ u ∈ rest, u.Shows content := by
  obtain ⟨t, rest, hslot, hf, hperm, hshows, hrest⟩ := hs.exists_tree hslot
  cases t with
  | @table H T =>
      obtain rfl : T.id = root := congrArg Prod.snd hslot
      exact ⟨H, T, rest, rfl, hf, hperm, hshows, hrest⟩
  | index T => cases congrArg Prod.fst hslot

theorem exists_index (hs : Stores header slots content s) (hslot : (.index, root) ∈ slots) :
    ∃ (H : Nat) (T : IndexTree H) (rest : List StoredTree), T.id = root ∧
      Forest ⟨header, [], 0⟩ s (.index T :: rest) ∧ ((.index, root) :: rest.map StoredTree.slot).Perm slots ∧
        T.entries.map Entry.key = content.keys root ∧ ∀ u ∈ rest, u.Shows content := by
  obtain ⟨t, rest, hslot, hf, hperm, hshows, hrest⟩ := hs.exists_tree hslot
  cases t with
  | table T => cases congrArg Prod.fst hslot
  | @index H T =>
      obtain rfl : T.id = root := congrArg Prod.snd hslot
      exact ⟨H, T, rest, rfl, hf, hperm, hshows, hrest⟩

/-- The other trees of a forest have other roots. -/
theorem root_ne {t : StoredTree} (hf : Forest ⟨header, [], 0⟩ s (t :: rest)) : ∀ u ∈ rest, u.slot.2 ≠ t.slot.2 := by
  have hholds : Holds header ((t :: rest).map StoredTree.slot) (fun _ _ _ => True) s :=
    ⟨t :: rest, hf, List.Perm.refl _, fun _ _ _ _ => trivial⟩
  have hnodup := hholds.nodup_roots
  rw [List.map_cons, List.map_cons, List.nodup_cons, List.map_map] at hnodup
  intro u hu heq
  exact hnodup.1 (heq ▸ List.mem_map_of_mem (f := Prod.snd ∘ StoredTree.slot) hu)

theorem of_table {T : TableTree h} (hf : Forest ⟨header, [], 0⟩ s (.table T :: rest)) (hid : T.id = root)
    (hslots : ((.table, root) :: rest.map StoredTree.slot).Perm slots) {rows : List (Int × List Value)}
    (hrows : List.Forall₂ Row.Shows T.items rows) (hrest : ∀ u ∈ rest, u.Shows content) :
    Stores header slots (content.setRows root rows) s := by
  subst hid
  refine ⟨.table T :: rest, hf, hslots, fun u hu => ?_⟩
  rcases List.mem_cons.mp hu with rfl | hu
  · simpa [StoredTree.Shows] using hrows
  · exact (hrest u hu).setRows (root_ne hf u hu)

theorem of_index {T : IndexTree h} (hf : Forest ⟨header, [], 0⟩ s (.index T :: rest)) (hid : T.id = root)
    (hslots : ((.index, root) :: rest.map StoredTree.slot).Perm slots) {keys : List (List Value)}
    (hkeys : T.entries.map Entry.key = keys) (hrest : ∀ u ∈ rest, u.Shows content) :
    Stores header slots (content.setKeys root keys) s := by
  subst hid
  refine ⟨.index T :: rest, hf, hslots, fun u hu => ?_⟩
  rcases List.mem_cons.mp hu with rfl | hu
  · simpa [StoredTree.Shows] using hkeys
  · exact (hrest u hu).setKeys (root_ne hf u hu)

/-! ## Tables -/

/-- The rows of a table ascend. -/
theorem ascending (hs : Stores header slots content s) (hslot : (.table, root) ∈ slots) :
    (content.rows root).Pairwise fun a b => a.1 < b.1 := by
  obtain ⟨H, T, rest, rfl, hf, -, hrows, -⟩ := hs.exists_table hslot
  have hitems := hf.tableAt.toTableAt.items_ascending
  generalize T.items = items at hrows hitems
  generalize content.rows T.id = rows at hrows
  induction hrows with
  | nil => exact .nil
  | @cons r row items rows hrow hrows ih =>
      obtain ⟨hfirst, hitems⟩ := List.pairwise_cons.mp hitems
      refine List.pairwise_cons.mpr ⟨fun other hother => ?_, ih hitems⟩
      obtain ⟨q, hq, hshows⟩ := exists_left hrows hother
      rw [← hrow.1, ← hshows.1]
      exact hfirst q hq

/-- `BTree.insert` puts a row between those below its rowid and those above. -/
theorem insert (hs : Stores header slots content s) (hslot : (.table, root) ∈ slots) (k : Int)
    {values : List Value} {payload : Bytes} (hpayload : encodeRecord values = .ok payload) :
    Post (BTree.insert root k payload) s (fun _ s' => ∃ xs ys, content.rows root = xs ++ ys ∧
      (∀ row ∈ xs, row.1 < k) ∧ (∀ row ∈ ys, k < row.1) ∧
      Stores header slots (content.setRows root (xs ++ (k, values) :: ys)) s') fun e _ => e.Ordinary := by
  obtain ⟨H, T, rest, rfl, hf, hslots, hrows, hrest⟩ := hs.exists_table hslot
  have ht := hf.tableAt
  obtain ⟨c, l, hr, hfind⟩ := findLeaf_spec ht.toTableAt k
  have hE : InsertErrors (fun e _ => e.Ordinary) s T.id (rest.flatMap StoredTree.image) T k payload l.items :=
    ⟨.inr fun _ _ _ => trivial, checkUvarint_fails _, fun _ => trivial, fun _ _ _ _ => trivial⟩
  apply (insert_post_but ht hr hfind hE).mono ?_ fun _ _ he => he
  rintro - s' ⟨H, U, st, xs, ys, hU, -, hdata, hold, hnew, hbelow, habove⟩
  rw [hold] at hrows
  obtain ⟨xs', ys', hxs, hys, hcontent⟩ := forall₂_append_left hrows
  refine ⟨xs', ys', hcontent, fun row hrow => ?_, fun row hrow => ?_, ?_⟩
  · obtain ⟨q, hq, hshows⟩ := exists_left hxs hrow
    exact hshows.1 ▸ hbelow q hq
  · obtain ⟨q, hq, hshows⟩ := exists_left hys hrow
    exact hshows.1 ▸ habove q hq
  · have hdecode := decodeRecord_encodeRecord [] [] hpayload
    rw [List.append_nil, List.nil_append, List.length_nil, ← hdata] at hdecode
    apply of_table (Forest.of_tableAt hU hf.rest_sound) hU.root hslots _ hrest
    rw [hnew]
    exact List.rel_append hxs (.cons ⟨rfl, hdecode⟩ hys)

/-- `BTree.delete` takes the row of a rowid out, if there is one. -/
theorem delete (hs : Stores header slots content s) (hslot : (.table, root) ∈ slots) (k : Int) :
    Post (BTree.delete root k) s (fun _ s' =>
      Stores header slots (content.setRows root ((content.rows root).filter fun row => row.1 ≠ k)) s')
      fun e _ => e.Ordinary := by
  have hasc := hs.ascending hslot
  obtain ⟨H, T, rest, rfl, hf, hslots, hrows, hrest⟩ := hs.exists_table hslot
  apply (delete_post_but hf.tableAt k).mono ?_ fun _ _ he => he
  rintro found s' (⟨-, rfl, habsent⟩ | ⟨-, H, U, xs, ys, r, hU, hold, hkey, hnew⟩)
  · -- no row has the rowid
    have hsame : (content.rows T.id).filter (fun row => row.1 ≠ k) = content.rows T.id := by
      apply List.filter_eq_self.mpr
      intro row hrow
      obtain ⟨q, hq, hshows⟩ := exists_left hrows hrow
      simpa [← hshows.1] using habsent q hq
    rw [hsame]
    exact of_table hf rfl hslots hrows hrest
  · rw [hold] at hrows
    obtain ⟨xs', rows, hxs, hrows, hcontent⟩ := forall₂_append_left hrows
    obtain ⟨row, ys', hrow, hys, rfl⟩ := List.forall₂_cons_left_iff.mp hrows
    have hrowid : row.1 = k := hrow.1.symm.trans hkey
    have hfilter : (content.rows T.id).filter (fun row => row.1 ≠ k) = xs' ++ ys' := by
      rw [hcontent] at hasc ⊢
      exact filter_ne_of_ascending hasc hrowid
    rw [hfilter]
    apply of_table (Forest.of_tableAt hU hf.rest_sound) hU.root hslots _ hrest
    rw [hnew]
    exact List.rel_append hxs hys

/-- A row under a rowid above all goes behind the others. -/
theorem append (hs : Stores header slots content s) (hslot : (.table, root) ∈ slots) {values : List Value}
    {payload : Bytes} (hpayload : encodeRecord values = .ok payload) :
    Post (BTree.insert root (nextRowidOf (content.rows root)) payload) s (fun _ s' =>
      Stores header slots (content.setRows root
        (content.rows root ++ [(nextRowidOf (content.rows root), values)])) s') fun e _ => e.Ordinary := by
  have hasc := hs.ascending hslot
  apply (hs.insert hslot _ hpayload).mono ?_ fun _ _ he => he
  rintro _ s' ⟨xs, ys, hrows, _, habove, hs'⟩
  have hys : ys = [] := by
    apply List.eq_nil_iff_forall_not_mem.mpr
    intro row hrow
    have hlt := lt_nextRowidOf hasc row (hrows ▸ List.mem_append_right _ hrow)
    have hgt := habove row hrow
    omega
  subst hys
  rw [List.append_nil] at hrows
  rwa [← hrows] at hs'

/-- The rows of some rowids go, one after the other. -/
theorem deletes (hs : Stores header slots content s) (hslot : (.table, root) ∈ slots) (rowids : List Int) :
    Post (rowids.forM fun rowid => do
        let _ ← BTree.delete root rowid) s (fun _ s' =>
      Stores header slots (content.setRows root ((content.rows root).filter fun row => row.1 ∉ rowids)) s')
      fun e _ => e.Ordinary := by
  induction rowids generalizing content s with
  | nil => simpa using hs
  | cons rowid rowids ih =>
      have hfirst : Post (do let _ ← BTree.delete root rowid) s (fun _ s' =>
          Stores header slots (content.setRows root ((content.rows root).filter fun row => row.1 ≠ rowid)) s')
          fun e _ => e.Ordinary := (hs.delete hslot rowid).bind (fun _ _ hs₁ => hs₁) fun _ _ he => he
      apply hfirst.bind ?_ fun _ _ he => he
      intro _ s₁ hs₁
      apply (ih hs₁).mono ?_ fun _ _ he => he
      intro _ s₂ hs₂
      rw [Content.setRows_rows, List.filter_filter] at hs₂
      have hsame : (content.rows root).filter (fun row => decide (row.1 ∉ rowids) && decide (row.1 ≠ rowid)) =
          (content.rows root).filter fun row => row.1 ∉ rowid :: rowids := by
        apply List.filter_congr
        intro row _
        simp [Bool.and_comm]
      rwa [hsame, Content.setRows_setRows] at hs₂

/-! ## Indexes -/

/-- `IndexBTree.insert`. -/
theorem insertKey (hs : Stores header slots content s) (hslot : (.index, root) ∈ slots) (values : List Value)
    (rowid : Int) : Post (IndexBTree.insert root values rowid) s (fun _ s' => ∃ keys,
      Gains (values ++ [.int rowid]) (content.keys root) keys ∧
        Stores header slots (content.setKeys root keys) s') fun e _ => e.Ordinary := by
  obtain ⟨H, T, rest, rfl, hf, hslots, hkeys, hrest⟩ := hs.exists_index hslot
  apply (hf.insertKey_gains values rowid).mono ?_ fun _ _ he => he
  rintro _ s' ⟨H, U, hU, hid, hgains⟩
  rw [hkeys] at hgains
  exact ⟨_, hgains, of_index hU hid hslots rfl hrest⟩

/-- `IndexBTree.delete`. -/
theorem deleteKey (hs : Stores header slots content s) (hslot : (.index, root) ∈ slots) (values : List Value)
    (rowid : Int) : Post (IndexBTree.delete root values rowid) s (fun _ s' => ∃ keys,
      Loses (values ++ [.int rowid]) (content.keys root) keys ∧
        Stores header slots (content.setKeys root keys) s') fun e _ => e.Ordinary := by
  obtain ⟨H, T, rest, rfl, hf, hslots, hkeys, hrest⟩ := hs.exists_index hslot
  rw [← IndexBTree.map_deleteMoves, ← bind_pure_comp]
  apply (deleteMoves_index hf.indexStored hf.live values rowid).bind
  rotate_left
  · rintro e s' ⟨⟨message, rfl⟩, -⟩
    trivial
  rintro r s' ⟨-, -, ⟨-, rfl, habsent⟩ | ⟨-, xs, e, ys, hold, hkey, H, U, hid, hnew, hfilled, hsmall, hlive⟩⟩
  · refine ⟨_, .inr ⟨rfl, fun n hn hsorted key hkey => ?_⟩, of_index hf rfl hslots hkeys hrest⟩
    rw [← hkeys] at hsorted hkey
    obtain ⟨e, he, rfl⟩ := List.mem_map.mp hkey
    exact habsent n hn (keysSorted_iff.mp hsorted) e he
  · refine ⟨_, .inl ⟨xs.map Entry.key, e.key, ys.map Entry.key, ?_, ?_, hkey⟩,
      of_index (Forest.of_indexStored hfilled hsmall hlive hf.rest_sound) hid hslots rfl hrest⟩
    · rw [← hkeys, hold, List.map_append, List.map_cons]
    · rw [hnew, List.map_append]

/-- A loop over indexes, each turn of which changes one of them. -/
theorem forM_keys {β : Type} {f : β → StoreM PUnit} {t : β → Nat}
    {R : β → List (List Value) → List (List Value) → Prop} {E : DbError → Prop} {bs : List β}
    (hf : ∀ b ∈ bs, ∀ (content : Content) (s : PageStore), Stores header slots content s →
      Post (f b) s (fun _ s' => ∃ keys, R b (content.keys (t b)) keys ∧
        Stores header slots (content.setKeys (t b) keys) s') fun e _ => E e)
    (hnodup : (bs.map t).Nodup) (hs : Stores header slots content s) :
    Post (bs.forM f) s (fun _ s' => ∃ keys : Nat → List (List Value), Stores header slots ⟨content.rows, keys⟩ s' ∧
      (∀ b ∈ bs, R b (content.keys (t b)) (keys (t b))) ∧
        ∀ root ∉ bs.map t, keys root = content.keys root) fun e _ => E e := by
  induction bs generalizing content s with
  | nil => exact ⟨content.keys, hs, fun b hb => absurd hb List.not_mem_nil, fun _ _ => rfl⟩
  | cons b bs ih =>
      obtain ⟨hfresh, hnodup⟩ := List.nodup_cons.mp hnodup
      apply (hf b (List.mem_cons_self ..) content s hs).bind ?_ fun _ _ he => he
      rintro _ s₁ ⟨keys₁, hR, hs₁⟩
      have hrest := fun c hc => hf c (List.mem_cons_of_mem _ hc)
      apply (ih hrest hnodup hs₁).mono ?_ fun _ _ he => he
      rintro _ s₂ ⟨keys, hs₂, hkeys, hsame⟩
      refine ⟨keys, hs₂, fun c hc => ?_, fun root hroot => ?_⟩
      · rcases List.mem_cons.mp hc with rfl | hc
        · rw [hsame _ hfresh, Content.setKeys_keys]
          exact hR
        · have hne : t c ≠ t b := fun heq => hfresh (heq ▸ List.mem_map_of_mem hc)
          have hc := hkeys c hc
          rwa [Content.setKeys_keys_of_ne hne] at hc
      · obtain ⟨hne, hroot⟩ := not_or.mp (fun h => hroot (List.mem_cons.mpr h))
        rw [hsame root hroot, Content.setKeys_keys_of_ne hne]

/-! ## Reading -/

/-- A loop that only looks meets the rows in order, up to one that it raises at. -/
theorem each {α : Type} {visit : Int → Bytes → StoreM α} (see : Int × List Value → Except DbError α)
    (hs : Stores header slots content s) (hslot : (.table, root) ∈ slots)
    (hvisit : ∀ row payload, decodeRecord payload 0 = .ok row.2 → visit row.1 payload s = (see row, s)) :
    Post (TableCursor.each root visit) s
      (fun as s' => s' = s ∧ List.Forall₂ (fun row a => see row = .ok a) (content.rows root) as)
      fun e s' => s' = s ∧ ∃ row ∈ content.rows root, see row = .error e := by
  obtain ⟨H, T, rest, rfl, hf, -, hrows, -⟩ := hs.exists_table hslot
  have ht := hf.tableAt.toTableAt
  -- what the loop has made of the rows seen so far
  let I (seen : List Row) (as : List α) (s' : PageStore) : Prop :=
    s' = s ∧ ∀ rows, List.Forall₂ Row.Shows seen rows → List.Forall₂ (fun row a => see row = .ok a) rows as
  have hstart : I [] [] s := by
    refine ⟨rfl, fun rows h => ?_⟩
    cases h
    exact .nil
  apply (each_post (I := I) (fun seen as s' hI => ⟨_, _, hI.1.symm ▸ ht⟩) ?_ ht hstart).mono
  · intro as s' hI
    exact ⟨hI.1, hI.2 _ hrows⟩
  · exact fun _ _ he => he
  · intro seen r after as s' hitems hI
    obtain ⟨rfl, hseen⟩ := hI
    obtain ⟨row, hrow, hshows⟩ := exists_right hrows (hitems ▸ by simp : r ∈ T.items)
    have hrun := hvisit row r.stored.data hshows.2
    rw [← hshows.1] at hrun
    unfold Post
    rw [hrun]
    cases hsee : see row with
    | error e => exact ⟨rfl, row, hrow, hsee⟩
    | ok a =>
        refine ⟨rfl, fun rows h => ?_⟩
        obtain ⟨us, vs, hus, hvs, rfl⟩ := forall₂_append_left h
        obtain ⟨row', vs, hshows', hnil, rfl⟩ := List.forall₂_cons_left_iff.mp hvs
        cases hnil
        obtain rfl := hshows.unique hshows'
        exact List.rel_append (hseen us hus) (.cons hsee .nil)

/-- `_next_rowid`. -/
theorem nextRowid (hs : Stores header slots content s) (hslot : (.table, root) ∈ slots) :
    TableCursor.nextRowid root s = (.ok (nextRowidOf (content.rows root)), s) := by
  obtain ⟨H, T, rest, rfl, hf, -, hrows, -⟩ := hs.exists_table hslot
  have hnext : nextOf T.items = nextRowidOf (content.rows T.id) := by
    rcases List.eq_nil_or_concat' T.items with hnil | ⟨front, last, hconcat⟩
    · rw [hnil] at hrows ⊢
      rw [List.forall₂_nil_left_iff.mp hrows]
      rfl
    · rw [hconcat] at hrows ⊢
      obtain ⟨us, vs, -, hvs, heq⟩ := forall₂_append_left hrows
      obtain ⟨row, vs, hshows, hnil, rfl⟩ := List.forall₂_cons_left_iff.mp hvs
      cases hnil
      simp [nextOf, nextRowidOf, heq, hshows.1]
  rw [nextRowid_live hf.tableAt.toTableAt, hnext]

/-- `scan` of an index. -/
theorem scan (hs : Stores header slots content s) (hslot : (.index, root) ∈ slots) :
    IndexBTree.scan root s = (.ok (content.keys root), s) := by
  obtain ⟨H, T, rest, rfl, hf, -, hkeys, -⟩ := hs.exists_index hslot
  rw [scan_live hf.indexStored, hkeys]

/-- `find_conflict`. -/
theorem findConflict (hs : Stores header slots content s) (hslot : (.index, root) ∈ slots) {n : Nat}
    (hsorted : KeysSorted n (content.keys root)) {values : List Value} (hlen : values.length ≤ n) :
    IndexBTree.findConflict root values s = (.ok (firstConflict (content.keys root) values), s) := by
  obtain ⟨H, T, rest, rfl, hf, -, hkeys, -⟩ := hs.exists_index hslot
  rw [IndexBTree.findConflict, firstConflict]
  split
  · rfl
  · have hcovers : Covers (T.entries.map Entry.key) values := by
      intro key hkey
      rw [hkeys] at hkey
      exact (hsorted.comparable key hkey).1 ▸ hlen
    have hseek := seekEq_live hf.indexStored (hkeys ▸ hsorted.keysOrdered) hcovers
    rw [hkeys] at hseek
    rw [bind_of_ok hseek]
    rfl

end Stores

end QuillDb
