/-
  BTree/PageBytes.lean --- a page of a tree, written out and read again.

  Source: `quilldb/btree/cells.py`, `serialize_page` and `parse_page` of
  `quilldb/storage/page.py`.

  The trees hold their cells decoded.  Here the cells of a page are encoded, the page is
  serialized and parsed, and its cells are decoded: the page comes back with the mask on
  its rowids, which is `PageBody.reread`.
-/
import QuillDb.BTree.Reread

set_option autoImplicit false

namespace QuillDb

open Prog PageStore PageTree

namespace PageBody

/-! ## There and back -/

/-- The page with its cells encoded. -/
def pack : PageBody → Except DbError Slotted.PageBody
  | tableLeaf cells => do
      let raw ← cells.mapM fun c => Slotted.encodeLeafTableCell c.rowid c.payload
      return ⟨.leafTable, raw, 0, 0⟩
  | tableInterior cells rightChild => do
      let raw ← cells.mapM fun c => Slotted.encodeInteriorTableCell c.child c.key
      return ⟨.interiorTable, raw, rightChild, 0⟩
  | indexLeaf cells => do
      let raw ← cells.mapM Slotted.encodeLeafIndexCell
      return ⟨.leafIndex, raw, 0, 0⟩
  | indexInterior cells rightChild => do
      let raw ← cells.mapM fun c => Slotted.encodeInteriorIndexCell c.child c.key
      return ⟨.interiorIndex, raw, rightChild, 0⟩

/-- The page with its cells decoded. -/
def unpack (page : Slotted.PageBody) : Except DbError PageBody :=
  match page.pageType with
  | .leafTable => do
      let cells ← page.cells.mapM Slotted.decodeLeafTableCell
      return tableLeaf cells
  | .interiorTable => do
      let cells ← page.cells.mapM Slotted.decodeInteriorTableCell
      return tableInterior cells page.rightChild
  | .leafIndex => do
      let cells ← page.cells.mapM Slotted.decodeLeafIndexCell
      return indexLeaf cells
  | .interiorIndex => do
      let cells ← page.cells.mapM Slotted.decodeInteriorIndexCell
      return indexInterior cells page.rightChild

/-- The bytes of `b` are read as `b'`. -/
def ReadsAs (b b' : PageBody) : Prop :=
  ∃ page data, b.pack = .ok page ∧ Slotted.serializePage page = .ok data ∧ data.length = pageSize ∧
    Slotted.parsePage data 0 = .ok page ∧ unpack page = .ok b'

/-- A payload that is split as its format says, of a length that can be stored. -/
def Packs (pageType : PageType) (p : Payload) : Prop := Slotted.Splits pageType p ∧ p.total < 2 ^ 64

/-- What the encoders ask of the cells. -/
def Encodes : PageBody → Prop
  | tableLeaf cells => ∀ c ∈ cells, Packs .leafTable c.payload
  | tableInterior cells rightChild => rightChild < 2 ^ 32 ∧ ∀ c ∈ cells, c.child < 2 ^ 32
  | indexLeaf cells => ∀ p ∈ cells, Packs .leafIndex p
  | indexInterior cells rightChild =>
      rightChild < 2 ^ 32 ∧ ∀ c ∈ cells, c.child < 2 ^ 32 ∧ Packs .interiorIndex c.key

/-- A cell that is encoded in as many bytes as it counts, and read as `again` says. -/
def CellReads {α : Type} (encode : α → Except DbError Bytes) (decode : Bytes → Except DbError α)
    (size : α → Nat) (again : α → α) (c : α) : Prop :=
  ∃ raw, encode c = .ok raw ∧ raw.length = size c ∧ decode raw = .ok (again c)

theorem cells_read {α : Type} {encode : α → Except DbError Bytes} {decode : Bytes → Except DbError α}
    {size : α → Nat} {again : α → α} {cells : List α}
    (h : ∀ c ∈ cells, CellReads encode decode size again c) : ∃ raw, cells.mapM encode = .ok raw ∧
      raw.map List.length = cells.map size ∧ raw.mapM decode = .ok (cells.map again) := by
  induction cells with
  | nil => exact ⟨[], rfl, rfl, rfl⟩
  | cons c cells ih =>
      obtain ⟨first, hencode, hlength, hdecode⟩ := h c (List.mem_cons_self ..)
      obtain ⟨rest, hencodes, hlengths, hdecodes⟩ := ih fun d hd => h d (List.mem_cons_of_mem _ hd)
      refine ⟨first :: rest, ?_, ?_, ?_⟩
      · rw [List.mapM_cons, hencode, hencodes]
        rfl
      · rw [List.map_cons, List.map_cons, hlength, hlengths]
      · rw [List.mapM_cons, hdecode, hdecodes]
        rfl

/-- What round-trips is read from its own bytes alone. -/
theorem cellReads_of_roundTrips {α : Type} {total : Nat} {encode : α → Except DbError Bytes}
    {decode : Bytes → Except DbError α} {size : α → Nat} (again : α → α) {c : α}
    (htotal : total < 2 ^ 64) (h : Slotted.RoundTrips total (encode c) decode (again c))
    (hsize : ∀ raw, encode c = .ok raw → raw.length = size c) : CellReads encode decode size again c := by
  rw [Slotted.RoundTrips, if_pos htotal] at h
  obtain ⟨raw, hencode, hdecode⟩ := h
  have hdecode := hdecode []
  rw [List.append_nil] at hdecode
  exact ⟨raw, hencode, hsize raw hencode, hdecode⟩

/-- A page is as long as it counts, and its cells are read as `reread` says. -/
theorem Encodes.pack {b : PageBody} (hb : b.Encodes) : ∃ page, b.pack = .ok page ∧ page.Packable ∧
    page.headerOffset = 0 ∧ page.usedBytes = b.usedBytes ∧ unpack page = .ok b.reread := by
  have hlengths {α : Type} {raw : List Bytes} {cells : List α} {size : α → Nat}
      (h : raw.map List.length = cells.map size) : raw.length = cells.length := by
    simpa using congrArg List.length h
  cases b with
  | tableLeaf cells =>
      obtain ⟨raw, hencode, hsize, hdecode⟩ := cells_read fun c hc =>
        cellReads_of_roundTrips _ (hb c hc).2 (leafTable_stores c.rowid (hb c hc).1)
          fun raw hraw => (Slotted.encodeLeafTableCell_refines hraw).2
      refine ⟨⟨.leafTable, raw, 0, 0⟩, ?_, ⟨.inl rfl, Nat.two_pow_pos 32, fun _ => rfl⟩, rfl, ?_, ?_⟩
      · rw [PageBody.pack, hencode]
        rfl
      · simp [Slotted.PageBody.usedBytes, usedBytes, cellSizes, headerSize, hsize, hlengths hsize]
        rfl
      · simp only [unpack, hdecode]
        rfl
  | tableInterior cells rightChild =>
      obtain ⟨raw, hencode, hsize, hdecode⟩ := cells_read fun c hc =>
        cellReads_of_roundTrips _ (Nat.two_pow_pos 64) (interiorTable_stores c.key (hb.2 c hc))
          fun raw hraw => (Slotted.encodeInteriorTableCell_refines hraw).2
      have hpackable : Slotted.PageBody.Packable ⟨.interiorTable, raw, rightChild, 0⟩ :=
        ⟨.inl rfl, hb.1, fun hleaf => absurd hleaf Bool.false_ne_true⟩
      refine ⟨⟨.interiorTable, raw, rightChild, 0⟩, ?_, hpackable, rfl, ?_, ?_⟩
      · rw [PageBody.pack, hencode]
        rfl
      · simp [Slotted.PageBody.usedBytes, usedBytes, cellSizes, headerSize, hsize, hlengths hsize]
        rfl
      · simp only [unpack, hdecode]
        rfl
  | indexLeaf cells =>
      obtain ⟨raw, hencode, hsize, hdecode⟩ := cells_read fun p hp =>
        cellReads_of_roundTrips id (hb p hp).2 (Slotted.leafIndex_roundTrips (hb p hp).1)
          fun raw hraw => (Slotted.encodeLeafIndexCell_refines hraw).2
      refine ⟨⟨.leafIndex, raw, 0, 0⟩, ?_, ⟨.inl rfl, Nat.two_pow_pos 32, fun _ => rfl⟩, rfl, ?_, ?_⟩
      · rw [PageBody.pack, hencode]
        rfl
      · simp [Slotted.PageBody.usedBytes, usedBytes, cellSizes, headerSize, hsize, hlengths hsize]
        rfl
      · rw [List.map_id] at hdecode
        simp only [unpack, hdecode]
        rfl
  | indexInterior cells rightChild =>
      obtain ⟨raw, hencode, hsize, hdecode⟩ := cells_read fun c hc =>
        cellReads_of_roundTrips id (hb.2 c hc).2.2
          (Slotted.interiorIndex_roundTrips (hb.2 c hc).1 (hb.2 c hc).2.1)
          fun raw hraw => (Slotted.encodeInteriorIndexCell_refines hraw).2
      have hpackable : Slotted.PageBody.Packable ⟨.interiorIndex, raw, rightChild, 0⟩ :=
        ⟨.inl rfl, hb.1, fun hleaf => absurd hleaf Bool.false_ne_true⟩
      refine ⟨⟨.interiorIndex, raw, rightChild, 0⟩, ?_, hpackable, rfl, ?_, ?_⟩
      · rw [PageBody.pack, hencode]
        rfl
      · simp [Slotted.PageBody.usedBytes, usedBytes, cellSizes, headerSize, hsize, hlengths hsize]
        rfl
      · rw [List.map_id] at hdecode
        simp only [unpack, hdecode]
        rfl

/-- A page that is written out and read again is `reread`. -/
theorem Encodes.readsAs {b : PageBody} (hb : b.Encodes) (hfits : b.usedBytes ≤ pageSize) :
    b.ReadsAs b.reread := by
  obtain ⟨page, hpack, hpackable, hoffset, hused, hunpack⟩ := hb.pack
  obtain ⟨data, hserialize, hlength, hparse⟩ := Slotted.serializePage_spec hpackable (hused.trans_le hfits)
  exact ⟨page, data, hpack, hserialize, hlength, hoffset ▸ hparse, hunpack⟩

end PageBody

/-! ## The pages of a table -/

open PageBody

theorem body_notMem_chain {id : Nat} {b : PageBody} (ids : List Nat) (data : Bytes) :
    (id, .body b) ∉ chainImage ids data := by
  induction ids generalizing data with
  | nil => exact List.not_mem_nil
  | cons i ids ih =>
      intro hb
      rcases List.mem_cons.mp hb with heq | hb
      · cases heq
      · exact ih _ hb

/-- The cell part of a stored payload. -/
theorem Stored.packs {pageType : PageType} (st : Stored pageType) (hnodup : st.chain.Nodup)
    (hsmall : ∀ i ∈ st.chain, i < 2 ^ 32) : Packs pageType st.payload := by
  obtain ⟨hlocal, hoverflow⟩ := Stored.requireValidSplit_iff.mp st.valid_payload
  refine ⟨⟨hlocal, ?_⟩, st.total_lt hnodup hsmall⟩
  split
  · rename_i hspill
    exact ⟨Nat.pos_of_ne_zero (hoverflow.mpr hspill), st.overflow_small hsmall⟩
  · rename_i hwhole
    exact not_not.mp fun hne => hwhole (hoverflow.mp hne)

/-- The pages of a tree can be written out. -/
theorem tableImage_encodes {h : Nat} {t : TableTree h} (hsmall : Small t.image)
    (hnodup : (t.image.map Prod.fst).Nodup) : ∀ id b, (id, .body b) ∈ t.image → b.Encodes := by
  induction h with
  | zero =>
      obtain ⟨l, hl⟩ := t.exists_leaf
      rw [hl] at hsmall hnodup ⊢
      have himage : TableTree.image (.leaf l) =
          (l.id, .body (.tableLeaf (l.items.map Row.cell))) :: l.items.flatMap tableFormat.leafExtra := rfl
      intro id b hb
      rcases List.mem_cons.mp hb with heq | hb
      · cases heq
        intro c hc
        obtain ⟨r, hr, rfl⟩ := List.mem_map.mp hc
        have hsub : r.stored.image.Sublist (TableTree.image (.leaf l)) :=
          (sublist_flatMap (f := tableFormat.leafExtra) hr).cons _
        have hids := hsub.map Prod.fst
        rw [r.stored.image_ids] at hids
        exact r.stored.packs (hnodup.sublist hids) fun i hi => hsmall i (hids.subset hi)
      · obtain ⟨r, -, hb⟩ := List.mem_flatMap.mp hb
        exact absurd hb (body_notMem_chain _ _)
  | succ h ih =>
      obtain ⟨n, hn⟩ := t.exists_node
      rw [hn] at hsmall hnodup ⊢
      have hchild (x : TableTree h) (hx : x.image.Sublist (TableTree.image (.node n))) :
          x.id < 2 ^ 32 ∧ ∀ id b, (id, .body b) ∈ x.image → b.Encodes := by
        have hids := hx.map Prod.fst
        have hsmall' : Small x.image := fun i hi => hsmall i (hids.subset hi)
        exact ⟨hsmall' _ (x.id_mem_image tableFormat.layout), ih hsmall' (hnodup.sublist hids)⟩
      have hkid (p : TableTree h × Int) (hp : p ∈ n.kids) : p.1.image.Sublist (TableTree.image (.node n)) := by
        have hone : p.1.image.Sublist (p.1.image ++ tableFormat.dividerExtra p.2) := List.sublist_append_left _ _
        exact (hone.trans ((sublist_flatMap (f := fun p => p.1.image ++ tableFormat.dividerExtra p.2) hp).trans
          (List.sublist_append_left _ _))).cons _
      have hlast : (TableTree.image n.last).Sublist (TableTree.image (.node n)) :=
        (List.sublist_append_right _ _).cons _
      intro id b hb
      rcases List.mem_cons.mp hb with heq | hb
      · cases heq
        refine ⟨(hchild _ hlast).1, fun c hc => ?_⟩
        obtain ⟨q, hq, rfl⟩ := List.mem_map.mp hc
        obtain ⟨p, hp, rfl⟩ := List.mem_map.mp hq
        exact (hchild _ (hkid p hp)).1
      · rcases List.mem_append.mp hb with hb | hb
        · obtain ⟨p, hp, hb⟩ := List.mem_flatMap.mp hb
          have hb : (id, .body b) ∈ TableTree.image p.1 := (List.mem_append.mp hb).resolve_right List.not_mem_nil
          exact (hchild _ (hkid p hp)).2 id b hb
        · exact (hchild _ hlast).2 id b hb

/-- The pages of a table of rowids in the range are read as they were written. -/
theorem TableAt.readsAs {s : PageStore} {root h : Nat} {others : Image} {T : TableTree h}
    (ht : TableAt s root others T) (hrows : ∀ r ∈ T.items, InInt64 r.rowid) {id : Nat} {b : PageBody}
    (hb : (id, .body b) ∈ T.image) : b.ReadsAs b := by
  have hencodes := tableImage_encodes ht.small ht.live.forget_right.ids_nodup id b hb
  have hreads := hencodes.readsAs (ht.live.fits _ (List.mem_append_left _ hb))
  have hsame : b.reread = b := PageContent.body.inj (tableImage_steady (ht.ranged hrows) _ hb)
  rwa [hsame] at hreads

end QuillDb
