/-
  BTree/Reread.lean --- rowids that have been through their 64 bits.

  Source: `encode_leaf_table_cell`, `encode_interior_table_cell` and their decoders in
  `quilldb/btree/cells.py`, `to_twos_complement` and `from_twos_complement` of
  `quilldb/codec/varint.py`.

  An encoder masks a rowid to 64 bits without a check, so a page that is read again
  holds the rowids modulo `2 ^ 64`.  A call goes on with the rowid it was given; the next
  call finds the pages as they read back.  A tree of rowids in the int64 range reads back
  as it was.
-/
import QuillDb.BTree.CellCodec
import QuillDb.BTree.IndexTree
import QuillDb.BTree.TableTree

set_option autoImplicit false

namespace QuillDb

open Prog PageStore PageTree

/-! ## Cells -/

/-- A signed integer of 64 bits. -/
def InInt64 (n : Int) : Prop := -2 ^ 63 ≤ n ∧ n < 2 ^ 63

instance (n : Int) : Decidable (InInt64 n) := inferInstanceAs (Decidable (_ ∧ _))

/-- The rowid that the bytes of a cell hold. -/
def storedRowid (rowid : Int) : Int := fromTwosComplement (toTwosComplement rowid)

theorem storedRowid_of_int64 {rowid : Int} (h : InInt64 rowid) : storedRowid rowid = rowid :=
  fromTwosComplement_toTwosComplement h

theorem storedRowid_eq (rowid : Int) :
    storedRowid rowid = if rowid % 2 ^ 64 < 2 ^ 63 then rowid % 2 ^ 64 else rowid % 2 ^ 64 - 2 ^ 64 := by
  rw [storedRowid, fromTwosComplement, testBit_top (toTwosComplement_lt rowid)]
  unfold toTwosComplement
  simp only [decide_eq_true_eq]
  split <;> split <;> omega

theorem storedRowid_int64 (rowid : Int) : InInt64 (storedRowid rowid) := by
  rw [storedRowid_eq, InInt64]
  split <;> omega

theorem toTwosComplement_stored (rowid : Int) :
    toTwosComplement (storedRowid rowid) = toTwosComplement rowid := by
  rw [storedRowid_eq, toTwosComplement, toTwosComplement]
  split <;> omega

/-- Whatever the rowid, the cell of a row reads back, with the rowid of its bits. -/
theorem leafTable_stores {p : Payload} (rowid : Int) (h : Slotted.Splits .leafTable p) :
    Slotted.RoundTrips p.total (Slotted.encodeLeafTableCell rowid p) Slotted.decodeLeafTableCell
      ⟨storedRowid rowid, p⟩ := by
  have hcodec := Slotted.leafTable_roundTrips (storedRowid_int64 rowid) h
  unfold Slotted.encodeLeafTableCell at hcodec ⊢
  rwa [toTwosComplement_stored] at hcodec

theorem interiorTable_stores {child : Nat} (rowid : Int) (hchild : child < 2 ^ 32) :
    Slotted.RoundTrips 0 (Slotted.encodeInteriorTableCell child rowid) Slotted.decodeInteriorTableCell
      ⟨child, storedRowid rowid⟩ := by
  have hcodec := Slotted.interiorTable_roundTrips hchild (storedRowid_int64 rowid)
  unfold Slotted.encodeInteriorTableCell at hcodec ⊢
  rwa [toTwosComplement_stored] at hcodec

/-! ## Pages -/

/-- A page after it has been written and read again. -/
def PageBody.reread : PageBody → PageBody
  | tableLeaf cells => tableLeaf (cells.map fun c => { c with rowid := storedRowid c.rowid })
  | tableInterior cells rightChild =>
      tableInterior (cells.map fun c => { c with key := storedRowid c.key }) rightChild
  | indexLeaf cells => indexLeaf cells
  | indexInterior cells rightChild => indexInterior cells rightChild

def PageContent.reread : PageContent → PageContent
  | body b => body b.reread
  | link next content => link next content

theorem map_reread {α : Type} {f : α → α} {as : List α} (h : ∀ a ∈ as, f a = a) : as.map f = as := by
  rw [List.map_congr_left h, List.map_id']

/-- All pages read again. -/
def PageStore.reread (s : PageStore) : PageStore := { s with pages := fun id => (s.pages id).reread }

def rereadImage (img : Image) : Image := img.map fun p => (p.1, p.2.reread)

theorem storedRowid_stored (rowid : Int) : storedRowid (storedRowid rowid) = storedRowid rowid :=
  storedRowid_of_int64 (storedRowid_int64 rowid)

theorem reread_body_twice (b : PageBody) : b.reread.reread = b.reread := by
  cases b <;> simp [PageBody.reread, storedRowid_stored]

/-- What was read once is read so again. -/
theorem reread_twice (s : PageStore) : s.reread.reread = s.reread := by
  have hpage (content : PageContent) : content.reread.reread = content.reread := by
    cases content with
    | body b => exact congrArg PageContent.body (reread_body_twice b)
    | link next content => rfl
  simp [PageStore.reread, hpage]

/-- A mask keeps the lengths of the cells. -/
theorem cellSizes_reread (b : PageBody) : b.reread.cellSizes = b.cellSizes := by
  cases b with
  | tableLeaf cells =>
      have hsize (c : TableLeafCell) : TableLeafCell.size { c with rowid := storedRowid c.rowid } = c.size := by
        rw [TableLeafCell.size, TableLeafCell.size, toTwosComplement_stored]
      simp [PageBody.reread, PageBody.cellSizes, hsize]
  | tableInterior cells rightChild =>
      have hsize (c : InteriorCell Int) :
          InteriorCell.size rowidSize { c with key := storedRowid c.key } = c.size rowidSize := by
        rw [InteriorCell.size, InteriorCell.size, rowidSize, rowidSize, toTwosComplement_stored]
      simp [PageBody.reread, PageBody.cellSizes, hsize]
  | indexLeaf cells => rfl
  | indexInterior cells rightChild => rfl

theorem usedBytes_reread (b : PageBody) : b.reread.usedBytes = b.usedBytes := by
  have hheader : b.reread.headerSize = b.headerSize := by cases b <;> rfl
  rw [PageBody.usedBytes, cellSizes_reread, hheader]
  rfl

theorem PageContent.Fits.reread {content : PageContent} (h : content.Fits) : content.reread.Fits := by
  cases content with
  | body b => exact (usedBytes_reread b).trans_le h
  | link next content => trivial

theorem rereadImage_ids (img : Image) : (rereadImage img).map Prod.fst = img.map Prod.fst := by
  rw [rereadImage, List.map_map]
  rfl

theorem FreeList.reread {pages : Nat → PageContent} {trunk : Nat} {fl : List Nat}
    (h : FreeList pages trunk fl) : FreeList (fun id => (pages id).reread) trunk fl := by
  induction fl generalizing trunk with
  | nil => exact h
  | cons id ids ih =>
      obtain ⟨htrunk, hsmall, next, content, hid, hrest⟩ := h
      exact ⟨htrunk, hsmall, next, content, by simp [hid, PageContent.reread], ih hrest⟩

/-- The pages in use are the same ones, read again. -/
theorem Live.reread {s : PageStore} {img : Image} (h : Live s img) : Live s.reread (rereadImage img) where
  free := by
    obtain ⟨fl, lost, hcount, hfree, hperm⟩ := h.free
    rw [rereadImage_ids]
    exact ⟨fl, lost, hcount, hfree.reread, hperm⟩
  holds p hp := by
    obtain ⟨q, hq, rfl⟩ := List.mem_map.mp hp
    have hpage : s.reread.pages q.1 = (s.pages q.1).reread := rfl
    rw [hpage, h.holds q hq]
  fits p hp := by
    obtain ⟨q, hq, rfl⟩ := List.mem_map.mp hp
    exact (h.fits q hq).reread

/-- Pages that read back as they were. -/
def Steady (img : Image) : Prop := ∀ p ∈ img, p.2.reread = p.2

theorem Steady.rereadImage {img : Image} (h : Steady img) : rereadImage img = img :=
  map_reread fun p hp => Prod.ext rfl (h p hp)

theorem steady_chain (ids : List Nat) (data : Bytes) : Steady (chainImage ids data) := by
  induction ids generalizing data with
  | nil => exact fun p hp => absurd hp List.not_mem_nil
  | cons id ids ih =>
      intro p hp
      rcases List.mem_cons.mp hp with rfl | hp
      · rfl
      · exact ih _ p hp

theorem Steady.append {img img' : Image} (h : Steady img) (h' : Steady img') : Steady (img ++ img') :=
  List.forall_mem_append.mpr ⟨h, h'⟩

theorem Steady.cons {p : Nat × PageContent} {img : Image} (hp : p.2.reread = p.2) (h : Steady img) :
    Steady (p :: img) :=
  List.forall_mem_cons.mpr ⟨hp, h⟩

theorem steady_flatMap {α : Type} {f : α → Image} {as : List α} (h : ∀ a ∈ as, Steady (f a)) :
    Steady (as.flatMap f) := by
  intro p hp
  obtain ⟨a, ha, hp⟩ := List.mem_flatMap.mp hp
  exact h a ha p hp

/-! ## Trees -/

section Trees

variable {h : Nat}

/-- An index keeps no rowid outside its records. -/
theorem indexImage_steady (t : IndexTree h) : Steady t.image := by
  induction h with
  | zero =>
      obtain ⟨l, hl⟩ := t.exists_leaf
      rw [hl]
      exact .cons rfl (steady_flatMap fun e _ => steady_chain _ _)
  | succ h ih =>
      obtain ⟨n, hn⟩ := t.exists_node
      rw [hn]
      refine .cons rfl (.append (steady_flatMap fun p _ => .append (ih p.1) ?_) (ih n.last))
      exact steady_chain _ _

/-- The rowids and the separators of a tree. -/
def TableTree.Ranged (t : TableTree h) : Prop :=
  (∀ r, .inl r ∈ t.inorder → InInt64 r.rowid) ∧ ∀ d, .inr d ∈ t.inorder → InInt64 d

/-- A tree of rowids in the range reads back as it was. -/
theorem tableImage_steady {t : TableTree h} (hrange : TableTree.Ranged t) : Steady t.image := by
  obtain ⟨hrows, hdividers⟩ := hrange
  induction h with
  | zero =>
      obtain ⟨l, hl⟩ := t.exists_leaf
      rw [hl] at hrows ⊢
      refine .cons ?_ (steady_flatMap fun r _ => steady_chain _ _)
      have hcells : (l.items.map Row.cell).map (fun c => { c with rowid := storedRowid c.rowid }) =
          l.items.map Row.cell := by
        apply map_reread
        intro c hc
        obtain ⟨r, hr, rfl⟩ := List.mem_map.mp hc
        have hr := storedRowid_of_int64 (hrows r (List.mem_map_of_mem hr))
        simp [Row.cell, hr]
      exact congrArg (fun cells => PageContent.body (.tableLeaf cells)) hcells
  | succ h ih =>
      obtain ⟨n, hn⟩ := t.exists_node
      rw [hn] at hrows hdividers ⊢
      have hinorder : LevelTree.inorder (.node n) =
          n.kids.flatMap (fun p => p.1.inorder ++ [.inr p.2]) ++ n.last.inorder := rfl
      rw [hinorder] at hrows hdividers
      have hkid : ∀ p ∈ n.kids, ∀ a ∈ p.1.inorder ++ [.inr p.2],
          a ∈ n.kids.flatMap (fun p => p.1.inorder ++ [.inr p.2]) ++ n.last.inorder := by
        intro p hp a ha
        exact List.mem_append_left _ (List.mem_flatMap.mpr ⟨p, hp, ha⟩)
      refine .cons ?_ (.append (steady_flatMap fun p hp => .append ?_ ?_) ?_)
      · have hcells : ((n.map LevelTree.id).kids.map tableFormat.cell).map
            (fun c => { c with key := storedRowid c.key }) = (n.map LevelTree.id).kids.map tableFormat.cell := by
          apply map_reread
          intro c hc
          obtain ⟨q, hq, rfl⟩ := List.mem_map.mp hc
          obtain ⟨p, hp, rfl⟩ := List.mem_map.mp hq
          have hd := storedRowid_of_int64 (hdividers p.2 (hkid p hp _ (by simp)))
          have hkey : (tableFormat.cell (p.1.id, p.2)).key = p.2 := rfl
          rw [hkey, hd]
          rfl
        exact congrArg (fun cells => PageContent.body (.tableInterior cells (n.map LevelTree.id).last)) hcells
      · exact ih (fun r hr => hrows r (hkid p hp _ (List.mem_append_left _ hr)))
          fun d hd => hdividers d (hkid p hp _ (List.mem_append_left _ hd))
      · exact fun q hq => absurd hq List.not_mem_nil
      · exact ih (fun r hr => hrows r (List.mem_append_right _ hr))
          fun d hd => hdividers d (List.mem_append_right _ hd)

variable {s : PageStore} {root : Nat} {others : Image} {T : TableTree h}

/-- The first and the last leaf have rows, but for an empty root. -/
theorem TableAt.ends_filled (ht : TableAt s root others T) (hne : h = 0 → T.items ≠ []) :
    T.firstLeaf.items ≠ [] ∧ T.lastLeaf.items ≠ [] := by
  rcases ht.filled with rfl | hfilled
  · exact ⟨hne rfl, hne rfl⟩
  · have hfirst := Ctx.after_first (fun rows => [rows]) (fun _ => []) (.root : Ctx Row Int h) T
    have hlast := (Ctx.before_last (fun rows => [rows]) (fun _ => []) (.root : Ctx Row Int h) T).1
    have hleaves : T.leaves = T.walk (fun rows => [rows]) fun _ => [] := rfl
    rw [Ctx.after, List.append_nil, ← hleaves] at hfirst
    rw [Ctx.before, List.nil_append, ← hleaves] at hlast
    exact ⟨hfilled _ (hfirst ▸ List.mem_append_left _ (List.mem_singleton_self _)),
      hfilled _ (hlast ▸ List.mem_append_right _ (List.mem_singleton_self _))⟩

theorem mem_items_iff {r : Row} : r ∈ T.items ↔ .inl r ∈ T.inorder := by
  rw [LevelTree.items_eq, List.mem_filterMap]
  constructor
  · rintro ⟨a, ha, hleft⟩
    rwa [Sum.getLeft?_eq_some_iff.mp hleft] at ha
  · exact fun hr => ⟨_, hr, rfl⟩

theorem inorder_first (t : TableTree h) : ∃ rest, t.inorder = t.firstLeaf.items.map .inl ++ rest := by
  have hfirst := Ctx.after_first (List.map (Sum.inl : Row → Row ⊕ Int)) (fun d => [.inr d]) .root t
  rw [Ctx.after, List.append_nil] at hfirst
  exact ⟨_, hfirst.symm⟩

theorem inorder_last (t : TableTree h) : ∃ front, t.inorder = front ++ t.lastLeaf.items.map .inl := by
  have hlast := (Ctx.before_last (List.map (Sum.inl : Row → Row ⊕ Int)) (fun d => [.inr d]) .root t).1
  rw [Ctx.before, List.nil_append] at hlast
  exact ⟨_, hlast.symm⟩

/-- A separator lies between rows of the tree. -/
theorem TableAt.ranged (ht : TableAt s root others T) (hrows : ∀ r ∈ T.items, InInt64 r.rowid) :
    TableTree.Ranged T := by
  refine ⟨fun r hr => hrows r (mem_items_iff.mpr hr), fun d hd => ?_⟩
  have hheight : h = 0 → T.items ≠ [] := by
    rintro rfl
    obtain ⟨r, -, hr⟩ := List.mem_map.mp hd
    cases hr
  obtain ⟨hfirstNe, hlastNe⟩ := ht.ends_filled hheight
  have hlow : ∃ r ∈ T.items, r.rowid ≤ d := by
    obtain ⟨r, rows, hr⟩ := List.exists_cons_of_ne_nil hfirstNe
    obtain ⟨rest, hinorder⟩ := inorder_first T
    rw [hr, List.map_cons, List.cons_append] at hinorder
    have hmem : Sum.inl r ∈ T.inorder := by simp [hinorder]
    have hasc := ht.ascending
    rw [hinorder] at hasc hd
    have hrest := (List.mem_cons.mp hd).resolve_left (by simp)
    have hlt := (List.pairwise_cons.mp hasc).1 _ hrest
    simp only [place] at hlt
    exact ⟨r, mem_items_iff.mpr hmem, by omega⟩
  have hhigh : ∃ r ∈ T.items, d < r.rowid := by
    obtain ⟨rows, r, hr⟩ := (List.eq_nil_or_concat' T.lastLeaf.items).resolve_left hlastNe
    obtain ⟨front, hinorder⟩ := inorder_last T
    rw [hr, List.map_append, List.map_singleton, ← List.append_assoc] at hinorder
    have hmem : Sum.inl r ∈ T.inorder := by simp [hinorder]
    have hasc := ht.ascending
    rw [hinorder] at hasc hd
    have hfront := (List.mem_append.mp hd).resolve_right (by simp)
    have hlt := (List.pairwise_append.mp hasc).2.2 _ hfront _ (List.mem_singleton_self _)
    simp only [place] at hlt
    exact ⟨r, mem_items_iff.mpr hmem, by omega⟩
  obtain ⟨low, hlowMem, hlowLe⟩ := hlow
  obtain ⟨high, hhighMem, hhighLt⟩ := hhigh
  have hl := hrows low hlowMem
  have hr := hrows high hhighMem
  unfold InInt64 at hl hr ⊢
  omega

/-- The table is the same after all pages were read again. -/
theorem TableAt.reread (ht : TableAt s root others T) (hrows : ∀ r ∈ T.items, InInt64 r.rowid) :
    TableAt s.reread root (rereadImage others) T := by
  refine ⟨ht.root, ht.ascending, ht.filled, ht.small, ?_⟩
  have hlive := ht.live.reread
  rwa [rereadImage, List.map_append, ← rereadImage, ← rereadImage,
    (tableImage_steady (ht.ranged hrows)).rereadImage] at hlive

end Trees

end QuillDb
