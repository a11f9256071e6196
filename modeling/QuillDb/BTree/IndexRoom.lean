/-
  BTree/IndexRoom.lean --- an index tree always has room for an entry.

  Source: `IndexBTree.insert`, `_split_leaf` and `_promote_separator` of
  `quilldb/btree/index.py`, `split_cells` and `split_interior_cells` of
  `quilldb/btree/split.py`.

  An index cell takes at most a quarter of a page, so every cut leaves halves that
  fit.  The append cut alone relies on more than sizes: that a key above the last
  one of a leaf goes behind it.  Without an order on the keys it need not.
-/
import QuillDb.BTree.IndexRun

set_option autoImplicit false

namespace QuillDb

open Prog PageStore PageTree

/-- Values that an entry can hold: a record that is a bytes object. -/
def Storable (values : List Value) (rowid : Int) : Prop :=
  ∃ payload, encodeIndexKey values rowid = .ok payload ∧ payload.length < 2 ^ 64

/-! ## Interior pages -/

section Interior

variable {cells : List (InteriorCell Payload)} {slot right newRight : Nat}
  {new : InteriorCell Payload} {placed : List (InteriorCell Payload) × Nat}

/-- Insert-or-swap, at the end or before it. -/
theorem place_cases (h : indexInteriorFormat.place cells right slot new newRight = .ok placed) :
    slot = cells.length ∧ placed = (cells ++ [new], newRight) ∨
      ∃ old, cells[slot]? = some old ∧ slot < cells.length ∧
        placed = (cells.take slot ++ new :: ⟨newRight, old.key⟩ :: cells.drop (slot + 1), right) := by
  unfold InteriorFormat.place at h
  split at h
  · rename_i hend
    exact .inl ⟨hend, (Except.ok.inj h).symm⟩
  · split at h
    · cases h
    · rename_i old hold
      obtain ⟨rewritten, hencode, h⟩ := Fallible.bind_eq_ok h
      obtain ⟨-, rfl⟩ := encodeInteriorIndexCell_ok hencode
      exact .inr ⟨old, hold, (List.getElem?_eq_some_iff.mp hold).1, (Except.ok.inj h).symm⟩

/-- What the cells of an interior page take. -/
def interiorFootprint (c : InteriorCell Payload) : Nat := c.footprint Payload.size

/-- The page takes the new cell besides what it took. -/
theorem place_footprints (h : indexInteriorFormat.place cells right slot new newRight = .ok placed) :
    (placed.1.map interiorFootprint).sum =
      (cells.map interiorFootprint).sum + interiorFootprint new := by
  rcases place_cases h with ⟨-, rfl⟩ | ⟨old, hold, -, rfl⟩
  · rw [List.map_append, List.sum_append, List.map_singleton, List.sum_singleton]
  · have hcells : cells = cells.take slot ++ old :: cells.drop (slot + 1) := by
      obtain ⟨hlt, rfl⟩ := List.getElem?_eq_some_iff.mp hold
      rw [List.getElem_cons_drop, List.take_append_drop]
    have hsame : interiorFootprint ⟨newRight, old.key⟩ = interiorFootprint old := rfl
    conv => rhs; rw [hcells]
    simp only [List.map_append, List.map_cons, List.sum_append, List.sum_cons, hsame]
    omega

theorem place_caps (h : indexInteriorFormat.place cells right slot new newRight = .ok placed)
    (hcells : ∀ c ∈ cells, interiorFootprint c ≤ interiorCap)
    (hnew : interiorFootprint new ≤ interiorCap) :
    ∀ c ∈ placed.1, interiorFootprint c ≤ interiorCap := by
  rcases place_cases h with ⟨-, rfl⟩ | ⟨old, hold, -, rfl⟩
  · intro c hc
    rcases List.mem_append.mp hc with hc | hc
    · exact hcells c hc
    · exact List.mem_singleton.mp hc ▸ hnew
  · intro c hc
    rcases List.mem_append.mp hc with hc | hc
    · exact hcells c (List.mem_of_mem_take hc)
    · rcases List.mem_cons.mp hc with rfl | hc
      · exact hnew
      · rcases List.mem_cons.mp hc with rfl | hc
        · exact hcells old (List.mem_of_getElem? hold)
        · exact hcells c (List.mem_of_mem_drop hc)

/-- The cells of an interior page are cut around one that goes up; both halves have cells
and fit a page. -/
def InteriorCutsWell (placed : List (InteriorCell Payload) × Nat) (isRightmost : Bool) : Prop :=
  ∃ split, splitInteriorCells Payload.size placed.1 placed.2 isRightmost = .ok split ∧
    split.leftCells ≠ [] ∧ split.rightCells ≠ [] ∧
      (PageBody.indexInterior split.leftCells split.leftRightChild).usedBytes ≤ pageSize ∧
        (PageBody.indexInterior split.rightCells split.rightRightChild).usedBytes ≤ pageSize

theorem interiorCutsWell (h : indexInteriorFormat.place cells right slot new newRight = .ok placed)
    (hcells : ∀ c ∈ cells, interiorFootprint c ≤ interiorCap)
    (hnew : interiorFootprint new ≤ interiorCap)
    (hold : (PageBody.indexInterior cells right).usedBytes ≤ pageSize)
    (hfull : (PageBody.indexInterior cells right).fits (new.size Payload.size) = false) :
    InteriorCutsWell placed (slot = cells.length) := by
  have hpage : pageSize = interiorHeaderSize + interiorRoom := by decide
  have hused (cs : List (InteriorCell Payload)) (r : Nat) : (PageBody.indexInterior cs r).usedBytes =
      interiorHeaderSize + (cs.map interiorFootprint).sum := indexInteriorFormat.usedBytes_body cs r
  have hfoot : interiorFootprint new = new.size Payload.size + 2 := rfl
  have htotal := place_footprints h
  rw [hused] at hold
  rw [PageBody.fits, decide_eq_false_iff_not, hused] at hfull
  obtain ⟨left, c, upper, -, hleft, hright, hleftFits, hrightFits, hsplit⟩ :=
    @splitInteriorCells_spec _ Payload.size placed.1 placed.2
      (decide (slot = cells.length)) (place_caps h hcells hnew) (by
        show _ < (placed.1.map interiorFootprint).sum
        omega) (by
        show (placed.1.map interiorFootprint).sum ≤ _
        omega) (by
        intro hend
        rcases place_cases h with ⟨-, rfl⟩ | ⟨_, -, hlt, -⟩
        · have hlen : (cells ++ [new]).length - 1 = (cells.map (InteriorCell.footprint Payload.size)).length := by
            rw [List.length_append, List.length_singleton, Nat.add_sub_cancel, List.length_map]
          show (((cells ++ [new]).map (InteriorCell.footprint Payload.size)).take
            ((cells ++ [new]).length - 1)).sum ≤ _
          rw [hlen, List.map_append, List.take_left]
          show (cells.map interiorFootprint).sum ≤ _
          omega
        · exact absurd (of_decide_eq_true hend) (Nat.ne_of_lt hlt))
  refine ⟨_, hsplit, hleft, hright, ?_, ?_⟩
  · rw [hused]
    exact hpage ▸ Nat.add_le_add_left hleftFits _
  · rw [hused]
    exact hpage ▸ Nat.add_le_add_left hrightFits _

end Interior

/-- Whatever entry goes up to an interior page of the tree that has no room for it, the page
is cut well around its place. -/
def InteriorsCutWell {H : Nat} (T : IndexTree H) : Prop :=
  ∀ {id right slot child newRight : Nat} {cells : List (InteriorCell Payload)} {e : Entry}
    {placed : List (InteriorCell Payload) × Nat},
    (id, .body (.indexInterior cells right)) ∈ T.image →
    indexInteriorFormat.place cells right slot ⟨child, e.cell⟩ newRight = .ok placed →
    (PageBody.indexInterior cells right).fits
      (InteriorCell.size Payload.size ⟨child, e.cell⟩) = false →
    InteriorCutsWell placed (slot = cells.length)

section Tree

variable {s : PageStore} {root n : Nat} {others : Image} {h H : Nat} {T : IndexTree H}
variable {c : Ctx Entry Entry 0} {l : Leaf Entry} {key : List Value}

/-- No page of an overflow chain is a page of the tree. -/
theorem body_not_mem_chain {id : Nat} {b : PageBody} (ids : List Nat) (data : Bytes) :
    (id, .body b) ∉ chainImage ids data := by
  induction ids generalizing data with
  | nil => exact List.not_mem_nil
  | cons i ids ih =>
      intro hmem
      rcases List.mem_cons.mp hmem with heq | hmem
      · cases heq
      · exact ih _ hmem

/-- The cells of the interior pages hold entries. -/
theorem interior_cells {id right : Nat} {cells : List (InteriorCell Payload)} {t : IndexTree h}
    (hp : (id, .body (.indexInterior cells right)) ∈ t.image) :
    ∃ kids : List (Nat × Entry), cells = kids.map indexFormat.cell := by
  have hextra : ∀ e : Entry, (id, .body (.indexInterior cells right)) ∉ e.stored.image :=
    fun e => body_not_mem_chain _ _
  induction h with
  | zero =>
      obtain ⟨l, hl⟩ := t.exists_leaf
      rw [hl] at hp
      rcases List.mem_cons.mp hp with hp | hp
      · cases hp
      · obtain ⟨e, -, he⟩ := List.mem_flatMap.mp hp
        exact absurd he (hextra e)
  | succ h ih =>
      obtain ⟨node, hn⟩ := t.exists_node
      rw [hn] at hp
      rcases List.mem_cons.mp hp with hp | hp
      · have hbody : PageContent.body (.indexInterior cells right) = .body (.indexInterior
            ((node.map LevelTree.id).kids.map indexFormat.cell) (node.map LevelTree.id).last) :=
          (Prod.mk.inj hp).2
        obtain ⟨rfl, -⟩ := PageBody.indexInterior.inj (PageContent.body.inj hbody)
        exact ⟨_, rfl⟩
      · rcases List.mem_append.mp hp with hp | hp
        · obtain ⟨q, -, hq⟩ := List.mem_flatMap.mp hp
          rcases List.mem_append.mp hq with hq | hq
          · exact ih hq
          · exact absurd hq (hextra q.2)
        · exact ih hp

theorem IndexStored.interiorsCutWell (ht : IndexStored s root others T) : InteriorsCutWell T := by
  intro id right slot child newRight cells e placed hpage hplace hfull
  obtain ⟨kids, rfl⟩ := interior_cells hpage
  refine interiorCutsWell hplace (fun c hc => ?_) (indexFormat.footprint_le (child, e))
    (ht.live.fits _ (List.mem_append_left _ hpage)) hfull
  obtain ⟨q, -, rfl⟩ := List.mem_map.mp hc
  exact indexFormat.footprint_le q

/-- In a leaf whose entries are in order, a key above the last goes behind it. -/
theorem appendsAtEndOf_of_sorted (hsorted : Sorted n l.items) (hkey : Comparable n key) :
    AppendsAtEndOf c l key := by
  intro happend
  obtain ⟨-, hdrop⟩ := entrySlot_spec (hsorted.monotone hkey)
  have hlast := (Bool.and_eq_true_iff.mp happend).2
  rw [List.length_map]
  by_contra hne
  have hlt : entrySlot key l.items < l.items.length := lt_of_le_of_ne (entrySlot_le _ _) hne
  have hitems : l.items ≠ [] := List.length_pos_iff.mp (by omega)
  have hat : atOrAfter key (l.items.getLast hitems) = true := by
    refine hdrop _ ?_
    rw [← List.getLast_drop (l := l.items) (i := entrySlot key l.items) (by
      rw [Ne, List.drop_eq_nil_iff]
      omega)]
    exact List.getLast_mem _
  rw [List.getLast?_eq_some_getLast (by rwa [Ne, List.map_eq_nil_iff]), List.getLast_map,
    Option.all_some, decide_eq_true_eq] at hlast
  rw [atOrAfter, decide_eq_true_eq] at hat
  exact hat hlast

end Tree

/-! ## The room of a reachable tree -/

/-- An insertion at a leaf: only the page numbers can run out, and a leaf without room is
cut well. -/
structure InsertsWithRoom (s : PageStore) (root : Nat) (values : List Value) (rowid : Int)
    (cells : List Payload) (keys : List (List Value)) (slot : Nat) (isRightmost : Bool) : Prop where
  raises : ∀ err s', IndexBTree.insert root values rowid s = (.error err, s') → err = tooBig
  cuts : ∀ payload cell, encodeIndexKey values rowid = .ok payload →
    encodeLeafIndexCell (placeholder .leafIndex payload) = .ok cell →
    (PageBody.indexLeaf cells).fits cell.size = false →
    IndexBTree.CutsWell cells keys slot cell (values ++ [.int rowid]) isRightmost

/-- The leaf that an insertion descends to, with its keys and whether it is the last of its
parent. -/
structure LeafFound (s : PageStore) (root : Nat) (key : List Value) where
  id : Nat
  slot : Nat
  above : List (Nat × Nat)
  cells : List Payload
  keys : List (List Value)
  parent : Option IndexBTree.Parent
  found : IndexBTree.findLeaf root key s = (.ok ((id, slot) :: above), s)
  read : indexLeafCells id s = (.ok cells, s)
  decoded : IndexBTree.decodeKeys cells s = (.ok keys, s)
  readParent : IndexBTree.readParent above s = (.ok parent, s)

section Insert

variable {s : PageStore} {root : Nat} {others : Image} {H : Nat} {T : IndexTree H}
variable {c : Ctx Entry Entry 0} {l : Leaf Entry} {values : List Value} {rowid : Int}

theorem insertsWithRoom (ht : IndexStored s root others T)
    (hr : IndexReached (values ++ [.int rowid]) T c l)
    (hfind : IndexBTree.findLeaf root (values ++ [.int rowid]) s =
      (.ok ((l.id, entrySlot (values ++ [.int rowid]) l.items) :: c.path), s))
    (hstorable : Storable values rowid) (hend : AppendsAtEndOf c l (values ++ [.int rowid])) :
    InsertsWithRoom s root values rowid (l.items.map Entry.cell) (l.items.map Entry.key)
      (entrySlot (values ++ [.int rowid]) l.items)
      ((indexParentOf c l.id).all IndexBTree.Parent.isRightmost) where
  raises := by
    intro err s' hraise
    obtain ⟨payload, hencode, hlen⟩ := hstorable
    obtain ⟨lost, hlost⟩ := ht.live.exists_lost
    have hE : IndexInsertErrors (· = tooBig) values rowid
        (AppendsAtEndOf c l (values ++ [.int rowid])) := by
      refine ⟨rfl, fun err herr => ?_, fun payload' err hencode' herr => ?_, fun _ h => absurd hend h⟩
      · rw [hencode] at herr
        cases herr
      · rw [hencode] at hencode'
        rw [← Except.ok.inj hencode', checkUvarint, if_pos hlen] at herr
        cases herr
    exact (insert_index_at hE ht hlost hr hfind).error hraise
  cuts := by
    intro payload cell hencode hcell hfull
    obtain ⟨rfl, -⟩ := encodeLeafIndexCell_ok hcell
    have hpage : (l.id, .body (.indexLeaf (l.items.map Entry.cell))) ∈ T.image ++ others :=
      List.mem_append_left _ (hr.leaf_subset (List.mem_cons_self ..))
    exact cutsWell (by rw [List.length_map, List.length_map]) (insertAt_caps payload _)
      (ht.live.fits _ hpage) hfull hend

end Insert

/-- Whatever is called on an index tree that starts as an empty leaf, if each call returns,
an insertion of storable values raises only when the page numbers run out, and the cuts of
its leaf and of all interior pages leave halves that have cells and fit: provided that a
key above the last of its leaf goes behind it, as it does among keys that can be compared. -/
theorem index_insert_room (s : PageStore) (root : Nat) (others : Image) (hroot : root < 2 ^ 32)
    (hlive : Live s ((root, .body (.indexLeaf [])) :: others)) (calls : List IndexCall)
    (answers : List Bool) (s' : PageStore) (hrun : runIndexCalls root calls s = (.ok answers, s'))
    (values : List Value) (rowid : Int) (hstorable : Storable values rowid) :
    ∃ (H : Nat) (T : IndexTree H), IndexShape s' root T ∧ InteriorsCutWell T ∧
      ∃ leaf : LeafFound s' root (values ++ [.int rowid]),
        (IndexBTree.AppendsAtEnd leaf.keys leaf.slot (values ++ [.int rowid])
            (leaf.parent.all IndexBTree.Parent.isRightmost) →
          InsertsWithRoom s' root values rowid leaf.cells leaf.keys leaf.slot
            (leaf.parent.all IndexBTree.Parent.isRightmost)) ∧
        ((∃ n, (∀ call ∈ calls, Comparable n call.key) ∧ Comparable n (values ++ [.int rowid])) →
          IndexBTree.AppendsAtEnd leaf.keys leaf.slot (values ++ [.int rowid])
            (leaf.parent.all IndexBTree.Parent.isRightmost)) := by
  have hcomparable : ∀ n, (∀ call ∈ calls, Comparable n call.key) →
      ∀ call ∈ calls, Comparable n call.key := fun _ h => h
  obtain ⟨H, T, ht, hsorted⟩ := (indexStored_empty hroot hlive).afterCalls
    (fun _ _ => ⟨fun _ he => (List.not_mem_nil he).elim, List.Pairwise.nil⟩) hcomparable hrun
  obtain ⟨c, l, hr, hfind⟩ := findLeaf_index (values ++ [.int rowid]) ht
  have hmem : IndexTree.image (.leaf l) ⊆ T.image ++ others :=
    fun p hp => List.mem_append_left _ (hr.leaf_subset hp)
  refine ⟨H, T, (ht.wellFormed hsorted).toIndexShape, ht.interiorsCutWell,
    { id := l.id
      slot := entrySlot (values ++ [.int rowid]) l.items
      above := c.path
      cells := l.items.map Entry.cell
      keys := l.items.map Entry.key
      parent := indexParentOf c l.id
      found := hfind
      read := indexLeafCells_live ht.live hmem
      decoded := decodeKeys_live (ht.readable.subset (sublist_of_plug hr.plug).subset)
      readParent := readParent_index ht.live fun p hp => List.mem_append_left _ (hr.ctx_subset hp) },
    insertsWithRoom ht hr hfind hstorable, ?_⟩
  rintro ⟨n, hcalls, hkey⟩
  exact appendsAtEndOf_of_sorted ((hsorted n hcalls).sublist (sublist_of_plug hr.plug)) hkey

theorem comparable_longKey (n : Int) : Comparable 3 [.int n, filler 985 7, .int n] := by
  refine ⟨rfl, fun v hv => ?_⟩
  simp only [List.mem_cons, List.not_mem_nil, or_false] at hv
  rcases hv with rfl | rfl | rfl <;> nofun

/-- The ninth long key goes behind the last of a full leaf; such keys can be compared,
so there is room. -/
theorem index_insert_room_keys :
    ∃ (H : Nat) (T : IndexTree H),
      IndexShape ((runIndexCalls 2 (longKeys [1, 2, 3, 4, 5, 6, 7, 8])).exec emptyIndex) 2 T ∧
      InteriorsCutWell T ∧
      ∃ leaf : LeafFound ((runIndexCalls 2 (longKeys [1, 2, 3, 4, 5, 6, 7, 8])).exec emptyIndex) 2
          [.int 9, filler 985 7, .int 9],
        InsertsWithRoom ((runIndexCalls 2 (longKeys [1, 2, 3, 4, 5, 6, 7, 8])).exec emptyIndex) 2
          [.int 9, filler 985 7] 9 leaf.cells leaf.keys leaf.slot
          (leaf.parent.all IndexBTree.Parent.isRightmost) := by
  have hencode : encodeIndexKey [.int 9, filler 985 7] 9 =
      .ok ([5, 1, 143, 62, 1, 9] ++ List.replicate 985 7 ++ [9]) := by
    decide +kernel
  have hkeys : ∀ call ∈ longKeys [1, 2, 3, 4, 5, 6, 7, 8], Comparable 3 call.key := by
    intro call hcall
    obtain ⟨n, -, rfl⟩ := List.mem_map.mp hcall
    exact comparable_longKey n
  obtain ⟨H, T, hshape, hcut, leaf, hroom, hend⟩ :=
    index_insert_room emptyIndex 2 [] (by decide) emptyIndex_live
      (longKeys [1, 2, 3, 4, 5, 6, 7, 8]) (List.replicate 8 true) _ (apply_eq (by decide +kernel))
      [.int 9, filler 985 7] 9 ⟨_, hencode, by decide +kernel⟩
  exact ⟨H, T, hshape, hcut, leaf, hroom (hend ⟨3, hkeys, comparable_longKey 9⟩)⟩

/-! ## A key that is in no order -/

/-- The values can be stored, and are refused for want of room after calls that return. -/
def Refused (calls : List IndexCall) (values : List Value) (rowid : Int) : Prop :=
  ∃ answers s', runIndexCalls 2 calls emptyIndex = (.ok answers, s') ∧ Storable values rowid ∧
    ∃ message s'', IndexBTree.insert 2 values rowid s' = (.error (.pageFull message), s'')

/-- Whether an insertion after these calls raises `PageFullError`. -/
def refusedAfter (calls : List IndexCall) (values : List Value) (rowid : Int) : Bool :=
  match runIndexCalls 2 calls emptyIndex with
  | (.ok _, s') =>
      match IndexBTree.insert 2 values rowid s' with
      | (.error (.pageFull _), _) => true
      | _ => false
  | (.error _, _) => false

theorem refused_of_after {calls : List IndexCall} {values : List Value} {rowid : Int}
    {payload : Bytes} (hencode : encodeIndexKey values rowid = .ok payload)
    (hlen : payload.length < 2 ^ 64) (h : refusedAfter calls values rowid = true) :
    Refused calls values rowid := by
  unfold refusedAfter at h
  split at h
  · rename_i answers s' hrun
    split at h
    · rename_i message s'' hinsert
      exact ⟨answers, s', hrun, ⟨payload, hencode, hlen⟩, message, s'', hinsert⟩
    · cases h
  · cases h

/-- Four long keys and a short one, and behind them a NaN. -/
def nanBehind : List IndexCall :=
  longKeys [1, 2, 3, 4] ++
    [.insert [.int 5, filler 1 7] 5, .insert [.real 0x7FF8000000000000#64, filler 1 7] 6]

/-- A key that goes to the front is above the NaN at the end: the append cut leaves it with
all the long keys. -/
theorem index_insert_refused : Refused nanBehind [.int 0, filler 985 7] 7 := by
  have hencode : encodeIndexKey [.int 0, filler 985 7] 7 =
      .ok ([5, 8, 143, 62, 1] ++ List.replicate 985 7 ++ [7]) := by
    decide +kernel
  refine refused_of_after hencode ?_ ?_
  · decide +kernel
  · decide +kernel

/-! ## Interior cuts of both kinds -/

section BothKinds

variable {κ : Type} {fmt : InteriorFormat κ} {cells : List (InteriorCell κ)} {isRightmost : Bool}

/-- The cells of a page and one more among them, for which the page has no room; an
append puts it last. -/
def OnePending (fmt : InteriorFormat κ) (cells : List (InteriorCell κ)) (isRightmost : Bool) : Prop :=
  ∃ before pending after, cells = before ++ pending :: after ∧
    (fmt.body (before ++ after) 0).usedBytes ≤ pageSize ∧
    (fmt.body (before ++ after) 0).fits (pending.size fmt.keySize) = false ∧
    (isRightmost = true → after = [])

/-- One cell goes up and leaves its child to the left half; the children keep their
order; both halves have cells and fit a page. -/
def CutsAroundOne (fmt : InteriorFormat κ) (cells : List (InteriorCell κ)) (rightChild : Nat)
    (isRightmost : Bool) : Prop :=
  ∃ split consumed, splitInteriorCells fmt.keySize cells rightChild isRightmost = .ok split ∧
    cells = split.leftCells ++ consumed :: split.rightCells ∧ split.separator = consumed.key ∧
    childrenOfInterior split.leftCells split.leftRightChild ++
        childrenOfInterior split.rightCells split.rightRightChild = childrenOfInterior cells rightChild ∧
    split.leftCells ≠ [] ∧ split.rightCells ≠ [] ∧
    (fmt.body split.leftCells split.leftRightChild).usedBytes ≤ pageSize ∧
    (fmt.body split.rightCells split.rightRightChild).usedBytes ≤ pageSize

theorem cutsAroundOne (rightChild : Nat) (hcap : ∀ c ∈ cells, c.footprint fmt.keySize ≤ interiorCap)
    (h : OnePending fmt cells isRightmost) : CutsAroundOne fmt cells rightChild isRightmost := by
  have hpage : pageSize = interiorHeaderSize + interiorRoom := by decide
  obtain ⟨before, pending, after, rfl, hold, hfull, happend⟩ := h
  have hfoot : pending.footprint fmt.keySize = pending.size fmt.keySize + 2 := rfl
  have hpending := hcap pending (by simp)
  rw [fmt.usedBytes_body, List.map_append, List.sum_append] at hold
  rw [PageBody.fits, decide_eq_false_iff_not, fmt.usedBytes_body, List.map_append, List.sum_append] at hfull
  have htotal : ((before ++ pending :: after).map (InteriorCell.footprint fmt.keySize)).sum =
      (before.map (InteriorCell.footprint fmt.keySize)).sum + (pending.footprint fmt.keySize +
        (after.map (InteriorCell.footprint fmt.keySize)).sum) := by
    simp [InteriorCell.footprint]
  -- without the last cell an append leaves the page as it was
  have hpeel : isRightmost = true →
      (((before ++ pending :: after).map (InteriorCell.footprint fmt.keySize)).take
        ((before ++ pending :: after).length - 1)).sum ≤ interiorRoom := by
    intro hright
    rw [happend hright] at hold ⊢
    have hlen : (before ++ [pending]).length - 1 = (before.map (InteriorCell.footprint fmt.keySize)).length := by
      simp
    rw [hlen, List.map_append, List.take_left]
    simp only [List.map_nil, List.sum_nil, Nat.add_zero] at hold
    omega
  obtain ⟨left, c, right, hcells, hleft, hright, hleftFits, hrightFits, hsplit⟩ :=
    splitInteriorCells_spec rightChild hcap (by omega) (by omega) hpeel
  refine ⟨_, c, hsplit, hcells, rfl, ?_, hleft, hright, ?_, ?_⟩
  · simp [childrenOfInterior, hcells]
  · rw [fmt.usedBytes_body, hpage]
    exact Nat.add_le_add_left hleftFits _
  · rw [fmt.usedBytes_body, hpage]
    exact Nat.add_le_add_left hrightFits _

/-- A separator of a table is a varint. -/
theorem footprint_table_le (c : InteriorCell Int) : c.footprint tableInteriorFormat.keySize ≤ interiorCap := by
  have hsize := uvarintSize_le (toTwosComplement c.key)
  have hcap : interiorCap = 1021 := rfl
  have hfoot : c.footprint tableInteriorFormat.keySize = 4 + uvarintSize (toTwosComplement c.key) + 2 := rfl
  omega

/-- So much of a key stays on the page that four cells fit. -/
theorem footprint_index_le {c : InteriorCell Payload}
    (h : c.key.localPart.length ≤ maxLocalPayload .interiorIndex) :
    c.footprint indexInteriorFormat.keySize ≤ interiorCap := by
  have hsize := uvarintSize_le c.key.total
  have hmax : maxLocalPayload .interiorIndex = 1002 := by decide
  have hcap : interiorCap = 1021 := rfl
  have hfoot : c.footprint indexInteriorFormat.keySize = 4 + (uvarintSize c.key.total +
    c.key.localPart.length + if c.key.overflow = 0 then 0 else 4) + 2 := rfl
  split at hfoot <;> omega

end BothKinds

/-- `split_interior_cells` cuts a page that overflowed by one cell around one of its
cells, in a table tree and in an index tree. -/
theorem split_interior_cells (rightChild : Nat) (isRightmost : Bool) :
    (∀ cells : List (InteriorCell Int), OnePending tableInteriorFormat cells isRightmost →
      CutsAroundOne tableInteriorFormat cells rightChild isRightmost) ∧
    ∀ cells : List (InteriorCell Payload),
      (∀ c ∈ cells, c.key.localPart.length ≤ maxLocalPayload .interiorIndex) →
      OnePending indexInteriorFormat cells isRightmost →
        CutsAroundOne indexInteriorFormat cells rightChild isRightmost := by
  constructor
  · intro cells hpending
    exact cutsAroundOne rightChild (fun c _ => footprint_table_le c) hpending
  · intro cells hlocal hpending
    exact cutsAroundOne rightChild (fun c hc => footprint_index_le (hlocal c hc)) hpending

/-- A cell of a spilled key. -/
def spilledCell : InteriorCell Payload := ⟨7, ⟨2000, List.replicate 1002 0, 9⟩⟩

theorem split_interior_cells_spilled :
    CutsAroundOne indexInteriorFormat (List.replicate 5 spilledCell) 11 true := by
  refine (split_interior_cells 11 true).2 _ (fun c hc => ?_)
    ⟨List.replicate 4 spilledCell, spilledCell, [], rfl, by decide +kernel, by decide +kernel, fun _ => rfl⟩
  rw [List.eq_of_mem_replicate hc]
  decide +kernel

end QuillDb
