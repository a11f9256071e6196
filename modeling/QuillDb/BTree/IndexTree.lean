/-
  BTree/IndexTree.lean --- the tree that the pages of an index store.

  Source: `quilldb/btree/index.py`, `quilldb/btree/validate.py`.

  An entry is a stored payload with the key it decodes to, in a leaf or between
  two children.  The searches compare keys by their places.
-/
import QuillDb.BTree.Index

set_option autoImplicit false

namespace QuillDb

open Prog PageStore PageTree

/-! ## Entries and pages -/

/-- An entry of an index tree. -/
structure Entry where
  key : List Value
  stored : Stored .leafIndex
  decodes : decodeRecord stored.data 0 = .ok key

namespace Entry

/-- What its cell stores, in a leaf and in an interior page. -/
def cell (e : Entry) : Payload := e.stored.payload

/-- Where its key stands. -/
def place (e : Entry) : List (List Int) := keyPlace e.key

theorem size_cell_le (e : Entry) : e.cell.size + 6 ≤ interiorCap := by
  have hsize := e.stored.payload_size_le
  have hmax : maxLocalPayload .leafIndex = 1002 := by decide
  have hcap : interiorCap = 1021 := by decide
  have hcell : e.cell = e.stored.payload := rfl
  rw [hcell]
  omega

end Entry

/-- The pages of an index tree. -/
def indexFormat : TreeFormat Entry Entry Payload where
  toInteriorFormat := indexInteriorFormat
  leafBody es := .indexLeaf (es.map Entry.cell)
  key := Entry.cell
  leafExtra e := e.stored.image
  dividerExtra e := e.stored.image
  key_cap := Entry.size_cell_le

abbrev IndexTree : Nat → Type := LevelTree Entry Entry

/-- The pages of a tree. -/
abbrev IndexTree.image {h : Nat} (t : IndexTree h) : Image := indexFormat.image t

/-- The index tree at `root`, in whatever order its keys are, and the other pages in
use. -/
structure IndexStored (s : PageStore) (root : Nat) (others : Image) {h : Nat} (t : IndexTree h) :
    Prop where
  root : t.id = root
  filled : h = 0 ∨ Celled t.image
  small : Small t.image
  live : Live s (t.image ++ others)

/-- The entries ascend. -/
def InOrder (es : List Entry) : Prop := es.Pairwise fun a b => a.place ≤ b.place

/-- Keys of `n` columns without a NaN, in order. -/
structure Sorted (n : Nat) (es : List Entry) : Prop where
  comparable : ∀ e ∈ es, Comparable n e.key
  ordered : InOrder es

theorem Sorted.sublist {n : Nat} {es es' : List Entry} (h : Sorted n es) (hsub : es'.Sublist es) :
    Sorted n es' :=
  ⟨fun e he => h.comparable e (hsub.subset he), List.Pairwise.sublist hsub h.ordered⟩

/-! ## Reading entries -/

/-- Not below the key `k`. -/
def atOrAfter (k : List Value) (e : Entry) : Bool := compareKeys k e.key ≠ .gt

theorem atOrAfter_iff {n : Nat} {k : List Value} {e : Entry} (hk : Comparable n k)
    (he : Comparable n e.key) : atOrAfter k e = true ↔ keyPlace k ≤ e.place := by
  rw [atOrAfter, decide_eq_true_eq]
  exact compareKeys_le hk he

theorem atOrAfter_eq_false {n : Nat} {k : List Value} {e : Entry} (hk : Comparable n k)
    (he : Comparable n e.key) : atOrAfter k e = false ↔ e.place < keyPlace k := by
  rw [← Bool.not_eq_true, atOrAfter_iff hk he, not_le]

/-- In sorted entries, all that follow one at or behind `k` are so too. -/
theorem Sorted.monotone {n : Nat} {k : List Value} {es : List Entry} (h : Sorted n es)
    (hk : Comparable n k) : Monotone (atOrAfter k) es := by
  refine List.Pairwise.imp_of_mem (fun ha hb hab hat => ?_) h.ordered
  rw [atOrAfter_iff hk (h.comparable _ ha)] at hat
  exact (atOrAfter_iff hk (h.comparable _ hb)).mpr (hat.trans hab)

section Read

variable {s : PageStore} {k : List Value} {es : List Entry}

/-- The entries whose keys read back. -/
def Readable (s : PageStore) (es : List Entry) : Prop :=
  ∀ e ∈ es, IndexBTree.decodeKey e.cell s = (.ok e.key, s)

theorem Readable.subset {es' : List Entry} (h : Readable s es) (hsub : es' ⊆ es) : Readable s es' :=
  fun e he => h e (hsub he)

/-- The binary search over the cells of some entries. -/
theorem lowerBoundFrom_spec (hread : Readable s es) {fuel lo hi : Nat} (hle : lo ≤ hi)
    (hlen : hi ≤ es.length) :
    IndexBTree.lowerBoundFrom (es.map Entry.cell) k fuel lo hi s =
      (.ok (BinarySearch.search (fun i => (es[i]?).any (atOrAfter k)) fuel lo hi), s) := by
  induction fuel generalizing lo hi with
  | zero => rw [IndexBTree.lowerBoundFrom, BinarySearch.search, pure_apply]
  | succ fuel ih =>
      rw [IndexBTree.lowerBoundFrom, BinarySearch.search]
      split
      · rename_i hlt
        have hmid : (lo + hi) / 2 = lo + (hi - lo) / 2 := by omega
        have hbound : lo + (hi - lo) / 2 < es.length := by omega
        simp only [hmid]
        have hget : es[lo + (hi - lo) / 2]? = some es[lo + (hi - lo) / 2] :=
          List.getElem?_eq_getElem hbound
        have hdecode := hread _ (List.getElem_mem hbound)
        have hcell : cellAt (es.map Entry.cell) (lo + (hi - lo) / 2) =
            .ok (es[lo + (hi - lo) / 2]).cell := by
          rw [cellAt, List.getElem?_map, hget, Option.map_some]
        rw [hcell, bind_of_ok (lift_apply _ _), bind_of_ok hdecode, hget, Option.any_some, atOrAfter]
        split
        · rename_i hge
          rw [if_pos (decide_eq_true hge)]
          exact ih (by omega) (by omega)
        · rename_i hge
          rw [if_neg (by rwa [decide_eq_true_eq])]
          exact ih (by omega) hlen
      · rw [pure_apply]

/-- The slot of `k` among some entries. -/
def entrySlot (k : List Value) (es : List Entry) : Nat := BinarySearch.lowerBound (atOrAfter k) es

theorem entrySlot_le (k : List Value) (es : List Entry) : entrySlot k es ≤ es.length :=
  BinarySearch.lowerBound_le _ _

theorem leafLowerBound_spec (hread : Readable s es) :
    IndexBTree.leafLowerBound (es.map Entry.cell) k s = (.ok (entrySlot k es), s) := by
  rw [IndexBTree.leafLowerBound, List.length_map]
  exact lowerBoundFrom_spec hread (Nat.zero_le _) (Nat.le_refl _)

/-- The slot cuts the entries at `k`. -/
theorem entrySlot_spec (hmono : Monotone (atOrAfter k) es) :
    (∀ e ∈ es.take (entrySlot k es), atOrAfter k e = false) ∧
      ∀ e ∈ es.drop (entrySlot k es), atOrAfter k e = true :=
  (BinarySearch.lowerBound_spec hmono).2

variable {h : Nat}

theorem interiorSlot_spec {node : Node Entry (IndexTree h)} (hread : Readable s node.dividers) :
    IndexBTree.interiorSlot ((node.map LevelTree.id).kids.map indexFormat.cell) k s =
      (.ok (entrySlot k node.dividers), s) := by
  have hkeys : ((node.map LevelTree.id).kids.map indexFormat.cell).map InteriorCell.key =
      node.dividers.map Entry.cell := by
    rw [Node.map, Node.dividers, List.map_map, List.map_map, List.map_map]
    rfl
  have hlen : ((node.map LevelTree.id).kids.map indexFormat.cell).length = node.dividers.length := by
    rw [Node.map, Node.dividers, List.length_map, List.length_map, List.length_map]
  rw [IndexBTree.interiorSlot, hkeys, hlen]
  exact lowerBoundFrom_spec hread (Nat.zero_le _) (Nat.le_refl _)

theorem indexChildren_eq (node : Node Entry (IndexTree h)) :
    childrenOfInterior ((node.map LevelTree.id).kids.map indexFormat.cell)
      (node.map LevelTree.id).last = node.children.map LevelTree.id := by
  rw [childrenOfInterior, Node.children, List.map_append, Node.map, List.map_map, List.map_map,
    List.map_map]
  rfl

theorem indexChildAt_fill (f : Frame Entry (IndexTree h)) (t : IndexTree h) :
    childAt ((f.fill t).children.map LevelTree.id) f.pre.length = .ok t.id := by
  rw [childAt, List.getElem?_map, f.fill_children_get, Option.map_some]

end Read

/-! ## Descents -/

section Descend

variable {s : PageStore} {root n : Nat} {others img : Image} {h H : Nat} {T : IndexTree H}
variable {k : List Value}

/-- The page of a node. -/
theorem readBody_indexNode (hlive : Live s img) {node : Node Entry (IndexTree h)}
    (hsub : IndexTree.image (.node node) ⊆ img) :
    readBody node.id s = (.ok (.indexInterior ((node.map LevelTree.id).kids.map indexFormat.cell)
      (node.map LevelTree.id).last), s) :=
  readBody_live hlive (hsub (List.mem_cons_self ..))

/-- The cells of a node that was read. -/
theorem indexInteriorCells_of_read {id : Nat} {n : Node Entry Nat}
    (hread : readBody id s = (.ok (indexFormat.nodeBody n), s)) :
    indexInteriorCells id s = (.ok (n.kids.map indexFormat.cell, n.last), s) := by
  rw [indexInteriorCells, bind_of_ok hread]
  rfl

theorem readBody_indexLeaf (hlive : Live s img) {l : Leaf Entry}
    (hsub : IndexTree.image (.leaf l) ⊆ img) :
    readBody l.id s = (.ok (.indexLeaf (l.items.map Entry.cell)), s) :=
  readBody_live hlive (hsub (List.mem_cons_self ..))

theorem indexImage_child (f : Frame Entry (IndexTree h)) (t : IndexTree h) :
    t.image ⊆ IndexTree.image (.node (f.fill t)) := by
  intro p hp
  exact (Ctx.image_fill indexFormat.layout f t).mem_iff.mpr (List.mem_append_right _ hp)

theorem dividers_subset (node : Node Entry (IndexTree h)) :
    node.dividers ⊆ (LevelTree.node node).entries := by
  intro d hd
  obtain ⟨p, hp, rfl⟩ := List.mem_map.mp hd
  refine List.mem_append_left _ (List.mem_flatMap.mpr ⟨p, hp, ?_⟩)
  exact List.mem_append_right _ (List.mem_singleton_self p.2)

/-- The entries of a stored tree read back. -/
theorem IndexStored.readable (ht : IndexStored s root others T) : Readable s T.entries := by
  intro e he
  have hsub : e.stored.image.Sublist T.image := extra_sublist (L := indexFormat.layout) rfl T he
  have hnodup : e.stored.chain.Nodup := by
    rw [← e.stored.image_ids]
    exact ht.live.forget_right.ids_nodup.sublist (hsub.map Prod.fst)
  have hread : readPayload e.cell s = (.ok e.stored.data, s) := readPayload_live ht.live e.stored
    (fun p hp => List.mem_append_left _ (hsub.subset hp)) hnodup
  rw [IndexBTree.decodeKey, bind_of_ok hread, lift_apply, e.decodes]

/-- Where a descent for `k` ends; it cuts a sorted tree at `k`. -/
structure IndexReached (k : List Value) {H : Nat} (T : IndexTree H) (c : Ctx Entry Entry 0)
    (l : Leaf Entry) : Prop where
  plug : c.plug (.leaf l) = ⟨H, T⟩
  cuts : Monotone (atOrAfter k) T.entries →
    (∀ e ∈ c.entriesBefore, atOrAfter k e = false) ∧ ∀ e ∈ c.entriesAfter, atOrAfter k e = true

/-- The entries of a subtree, among those of the tree. -/
theorem entries_of_plug {c : Ctx Entry Entry h} {t : IndexTree h} (hplug : c.plug t = ⟨H, T⟩) :
    T.entries = c.entriesBefore ++ t.entries ++ c.entriesAfter :=
  Ctx.walk_of_plug hplug (fun items => items) fun e => [e]

theorem sublist_of_plug {c : Ctx Entry Entry h} {t : IndexTree h} (hplug : c.plug t = ⟨H, T⟩) :
    t.entries.Sublist T.entries := by
  rw [entries_of_plug hplug]
  exact (List.sublist_append_right _ _).trans (List.sublist_append_left _ _)

theorem entries_child (f : Frame Entry (IndexTree h)) (t : IndexTree h) :
    t.entries ⊆ (LevelTree.node (f.fill t)).entries := by
  rw [entries_fill]
  exact fun e he => List.mem_append_left _ (List.mem_append_right _ he)

theorem forall_mem_append {α : Type} {p : α → Prop} {xs ys : List α} (hxs : ∀ a ∈ xs, p a)
    (hys : ∀ a ∈ ys, p a) : ∀ a ∈ xs ++ ys, p a := by
  intro a ha
  rcases List.mem_append.mp ha with ha | ha
  · exact hxs a ha
  · exact hys a ha

theorem findLeafFrom_index (hlive : Live s img) {t : IndexTree h} {c : Ctx Entry Entry h}
    {fuel : Nat} (hfuel : h < fuel) (hplug : c.plug t = ⟨H, T⟩) (hsub : t.image ⊆ img)
    (hread : Readable s t.entries)
    (hcuts : Monotone (atOrAfter k) T.entries →
      (∀ e ∈ c.entriesBefore, atOrAfter k e = false) ∧ ∀ e ∈ c.entriesAfter, atOrAfter k e = true) :
    ∃ c' l, IndexReached k T c' l ∧ IndexBTree.findLeafFrom k fuel t.id c.path s =
      (.ok ((l.id, entrySlot k l.items) :: c'.path), s) := by
  induction h generalizing fuel with
  | zero =>
      obtain ⟨fuel, rfl⟩ : ∃ n, fuel = n + 1 := ⟨fuel - 1, by omega⟩
      obtain ⟨l, hl⟩ := t.exists_leaf
      rw [hl] at hplug hsub hread ⊢
      refine ⟨c, l, ⟨hplug, hcuts⟩, ?_⟩
      have hslot : IndexBTree.leafLowerBound (l.items.map Entry.cell) k s = _ :=
        leafLowerBound_spec hread
      rw [IndexBTree.findLeafFrom, LevelTree.id_leaf, bind_of_ok (readBody_indexLeaf hlive hsub)]
      simp only
      rw [bind_of_ok hslot, pure_apply]
  | succ h ih =>
      obtain ⟨fuel, rfl⟩ : ∃ n, fuel = n + 1 := ⟨fuel - 1, by omega⟩
      obtain ⟨node, hn⟩ := t.exists_node
      rw [hn] at hplug hsub hread ⊢
      have hslot := interiorSlot_spec (k := k) (hread.subset (dividers_subset node))
      have hbody := readBody_indexNode hlive hsub
      obtain ⟨f, child, rfl, hlen⟩ := exists_frame_lowerBound (atOrAfter k) node
      rw [entrySlot, ← hlen] at hslot
      obtain ⟨c', l, hreached, hfind⟩ := @ih child (.inside f c) fuel (by omega) hplug
        (fun p hp => hsub (indexImage_child f child hp)) (hread.subset (entries_child f child)) (by
          intro hmono
          obtain ⟨hbefore, hafter⟩ := hcuts hmono
          obtain ⟨hpre, hpost⟩ := frame_entries hlen (hmono.of_sublist (sublist_of_plug hplug))
          exact ⟨forall_mem_append hbefore hpre, forall_mem_append hpost hafter⟩)
      refine ⟨c', l, hreached, ?_⟩
      rw [IndexBTree.findLeafFrom, LevelTree.id_node, bind_of_ok hbody]
      simp only
      rw [bind_of_ok hslot, indexChildren_eq, indexChildAt_fill, bind_of_ok (lift_apply _ _)]
      exact hfind

/-- A descent from the root takes fewer steps than there are pages. -/
theorem IndexStored.height_lt (ht : IndexStored s root others T) : H < s.pageCount + 1 := by
  have hheight := T.height_lt_image indexFormat.layout
  have hlen := ht.live.length_lt
  have himage : (T.image ++ others).length = (LevelTree.image indexFormat.layout T).length +
      others.length := List.length_append
  omega

/-- `_find_leaf` in a stored index tree. -/
theorem findLeaf_index (k : List Value) (ht : IndexStored s root others T) :
    ∃ c l, IndexReached k T c l ∧ IndexBTree.findLeaf root k s =
      (.ok ((l.id, entrySlot k l.items) :: c.path), s) := by
  rw [IndexBTree.findLeaf, bind_of_ok (state_apply s), ← ht.root, ← Ctx.path_root (α := Entry)]
  exact findLeafFrom_index ht.live ht.height_lt (c := .root) rfl (List.subset_append_left _ _)
    ht.readable fun _ => ⟨fun _ he => (List.not_mem_nil he).elim,
      fun _ he => (List.not_mem_nil he).elim⟩

/-- Where the entry of a key stands: nowhere, in a leaf, or between two children. -/
inductive Spot where
  | absent
  | leaf (c : Ctx Entry Entry 0) (id : Nat) (pre : List Entry) (e : Entry) (post : List Entry)
  | divider {h : Nat} (up : Ctx Entry Entry (h + 1)) (f : Frame Entry (IndexTree h))
      (left : IndexTree h) (d : Entry) (right : IndexTree h)

/-- What `_locate` returns. -/
def Spot.located : Spot → Option (List (Nat × Nat)) × Bool
  | absent => (none, true)
  | leaf c id pre _ _ => (some ((id, pre.length) :: c.path), true)
  | divider up f _ _ _ => (some ((f.id, f.pre.length) :: up.path), false)

/-- The entry is there; among sorted keys, it is absent only if there is none. -/
def Spot.Sound (k : List Value) {H : Nat} (T : IndexTree H) : Spot → Prop
  | absent => ∀ n, Comparable n k → Sorted n T.entries → ∀ e ∈ T.entries, e.place ≠ keyPlace k
  | leaf c id pre e post =>
      c.plug (.leaf ⟨id, pre ++ e :: post⟩) = ⟨H, T⟩ ∧ compareKeys e.key k = .eq
  | divider up f left d right =>
      up.plug (.node ((TreeFormat.split f d right).fill left)) = ⟨H, T⟩ ∧ compareKeys d.key k = .eq

/-- The search in a leaf. -/
def seekLeaf (k : List Value) (c : Ctx Entry Entry 0) (l : Leaf Entry) : Spot :=
  match l.items.drop (entrySlot k l.items) with
  | [] => .absent
  | e :: rest =>
      if compareKeys e.key k = .eq then .leaf c l.id (l.items.take (entrySlot k l.items)) e rest
      else .absent

/-- The first entry with the key on the way down to its slot. -/
def seek (k : List Value) : {h : Nat} → Ctx Entry Entry h → IndexTree h → Spot
  | 0, c, t => seekLeaf k c t
  | _ + 1, c, t =>
      match (Node.cut t (entrySlot k (Node.dividers t))).1.post with
      | [] =>
          seek k (.inside (Node.cut t (entrySlot k (Node.dividers t))).1 c)
            (Node.cut t (entrySlot k (Node.dividers t))).2
      | (d, right) :: post =>
          if compareKeys d.key k = .eq then
            .divider c { (Node.cut t (entrySlot k (Node.dividers t))).1 with post := post }
              (Node.cut t (entrySlot k (Node.dividers t))).2 d right
          else
            seek k (.inside (Node.cut t (entrySlot k (Node.dividers t))).1 c)
              (Node.cut t (entrySlot k (Node.dividers t))).2

/-- One level of the search, at a cut node. -/
theorem seek_fill (c : Ctx Entry Entry (h + 1)) {f : Frame Entry (IndexTree h)} {x : IndexTree h}
    (hlen : f.pre.length = entrySlot k (f.fill x).dividers) :
    seek k c (.node (f.fill x)) = match f.post with
      | [] => seek k (.inside f c) x
      | (d, right) :: post =>
          if compareKeys d.key k = .eq then .divider c { f with post := post } x d right
          else seek k (.inside f c) x := by
  have hcut := Node.cut_fill f x
  rw [hlen] at hcut
  rw [seek.eq_def]
  simp only [LevelTree.node, hcut]
  rfl

/-- The cells of a node around one of its dividers. -/
theorem cells_split (f : Frame Entry (IndexTree h)) (d : Entry) (left right : IndexTree h) :
    (((TreeFormat.split f d right).fill left).map LevelTree.id).kids.map indexFormat.cell =
      (f.map LevelTree.id).pre.map indexFormat.cell ++ ⟨left.id, d.cell⟩ ::
        (linkPost right.id (f.map LevelTree.id).post).1.map indexFormat.cell := by
  rw [Frame.map_fill, Frame.fill, List.map_append]
  rfl

theorem cellAt_split (f : Frame Entry (IndexTree h)) (d : Entry) (left right : IndexTree h) :
    ((((TreeFormat.split f d right).fill left).map LevelTree.id).kids.map
      indexFormat.cell)[f.pre.length]? = some ⟨left.id, d.cell⟩ := by
  have hlen : ((f.map LevelTree.id).pre.map indexFormat.cell).length = f.pre.length := by
    rw [List.length_map, Frame.map, List.length_map]
  rw [cells_split, List.getElem?_append_right (by omega), hlen, Nat.sub_self, List.getElem?_cons_zero]

theorem cellAt_last {f : Frame Entry (IndexTree h)} (hpost : f.post = []) (t : IndexTree h) :
    (((f.fill t).map LevelTree.id).kids.map indexFormat.cell)[f.pre.length]? = none := by
  rw [List.getElem?_eq_none_iff, List.length_map, Node.map, List.length_map, f.fill_kids_length, hpost,
    List.length_nil]
  omega

theorem entriesAfter_split (f : Frame Entry (IndexTree h)) (d : Entry) (right : IndexTree h) :
    (TreeFormat.split f d right).entriesAfter = d :: (right.entries ++ f.entriesAfter) := by
  rw [Frame.entriesAfter, Frame.after, TreeFormat.split, List.flatMap_cons, List.append_assoc]
  rfl

theorem locateFrom_spec (hlive : Live s img) {t : IndexTree h} {c : Ctx Entry Entry h} {fuel : Nat}
    (hfuel : h < fuel) (hsub : t.image ⊆ img) (hread : Readable s t.entries) :
    IndexBTree.locateFrom k fuel t.id c.path s = (.ok (seek k c t).located, s) := by
  induction h generalizing fuel with
  | zero =>
      obtain ⟨fuel, rfl⟩ : ∃ n, fuel = n + 1 := ⟨fuel - 1, by omega⟩
      obtain ⟨l, hl⟩ := t.exists_leaf
      rw [hl] at hsub hread ⊢
      have hread : Readable s l.items := hread
      have hslot : IndexBTree.leafLowerBound (l.items.map Entry.cell) k s = _ :=
        leafLowerBound_spec hread
      have hget : (l.items.map Entry.cell)[entrySlot k l.items]? =
          ((l.items.drop (entrySlot k l.items)).head?).map Entry.cell := by
        rw [List.getElem?_map, List.head?_drop]
      have hseek : seek k c (LevelTree.leaf l) = seekLeaf k c l := rfl
      rw [IndexBTree.locateFrom, LevelTree.id_leaf, bind_of_ok (readBody_indexLeaf hlive hsub)]
      simp only
      rw [bind_of_ok hslot, hget, hseek, seekLeaf]
      rcases hdrop : l.items.drop (entrySlot k l.items) with _ | ⟨e, rest⟩
      · exact pure_apply _ _
      · have hmem : e ∈ l.items := by
          rw [← List.take_append_drop (entrySlot k l.items) l.items, hdrop]
          exact List.mem_append_right _ (List.mem_cons_self ..)
        have hlen : (l.items.take (entrySlot k l.items)).length = entrySlot k l.items := by
          rw [List.length_take, Nat.min_eq_left (entrySlot_le k l.items)]
        simp only [List.head?_cons, Option.map_some]
        rw [bind_of_ok (hread e hmem)]
        split
        · rw [Spot.located, hlen, pure_apply]
        · exact pure_apply _ _
  | succ h ih =>
      obtain ⟨fuel, rfl⟩ : ∃ n, fuel = n + 1 := ⟨fuel - 1, by omega⟩
      obtain ⟨node, hn⟩ := t.exists_node
      rw [hn] at hsub hread ⊢
      have hslot := interiorSlot_spec (k := k) (hread.subset (dividers_subset node))
      have hbody := readBody_indexNode hlive hsub
      obtain ⟨f, child, rfl, hlen⟩ := exists_frame_lowerBound (atOrAfter k) node
      have hseek := seek_fill (k := k) c hlen
      have hdown := @ih child (.inside f c) fuel (by omega)
        (fun p hp => hsub (indexImage_child f child hp)) (hread.subset (entries_child f child))
      rw [entrySlot, ← hlen] at hslot
      rw [IndexBTree.locateFrom, LevelTree.id_node, bind_of_ok hbody, hseek]
      simp only
      rw [bind_of_ok hslot, indexChildren_eq, indexChildAt_fill]
      rcases hnext : f.post with _ | ⟨⟨d, right⟩, post⟩
      · rw [cellAt_last hnext]
        exact hdown
      · obtain ⟨g, rfl⟩ : ∃ g, f = TreeFormat.split g d right :=
          ⟨{ f with post := post }, by rw [TreeFormat.split, ← hnext]⟩
        have hd : d ∈ (LevelTree.node ((TreeFormat.split g d right).fill child)).entries := by
          rw [entries_fill, entriesAfter_split]
          exact List.mem_append_right _ (List.mem_cons_self ..)
        have hmatched : (IndexBTree.decodeKey d.cell >>= fun separator =>
            pure (decide (compareKeys separator k = .eq)) : StoreM Bool) s =
              (.ok (decide (compareKeys d.key k = .eq)), s) := bind_of_ok (hread d hd)
        have hpre : (TreeFormat.split g d right).pre = g.pre := by rw [TreeFormat.split]
        obtain rfl : g.post = post := (List.cons.inj hnext).2
        rw [hpre, cellAt_split g d child right]
        simp only
        rw [bind_of_ok hmatched]
        split
        · rename_i heq
          rw [if_pos (of_decide_eq_true heq)]
          exact pure_apply _ _
        · rename_i hne
          rw [if_neg (fun heq => hne (decide_eq_true heq)), bind_of_ok (lift_apply _ _)]
          exact hdown

/-- What is not below `k` and does not compare equal to it is behind it, and so is
what follows. -/
theorem lt_of_ne {e : Entry} {rest : List Entry} (hk : Comparable n k)
    (hsorted : Sorted n (e :: rest)) (hat : atOrAfter k e = true) (hne : compareKeys e.key k ≠ .eq) :
    ∀ a ∈ e :: rest, keyPlace k < a.place := by
  have he := hsorted.comparable e (List.mem_cons_self ..)
  have hlt : keyPlace k < e.place := by
    refine lt_of_le_of_ne ((atOrAfter_iff hk he).mp hat) fun heq => hne ?_
    exact (compareKeys_eq he hk).mpr heq.symm
  intro a ha
  rcases List.mem_cons.mp ha with rfl | ha
  · exact hlt
  · exact hlt.trans_le ((List.pairwise_cons.mp hsorted.ordered).1 a ha)

theorem lt_of_atOrAfter {es : List Entry} (hk : Comparable n k) (hsorted : Sorted n es)
    (hbefore : ∀ e ∈ es, atOrAfter k e = false) : ∀ e ∈ es, e.place < keyPlace k :=
  fun e he => (atOrAfter_eq_false hk (hsorted.comparable e he)).mp (hbefore e he)

theorem seek_sound {t : IndexTree h} {c : Ctx Entry Entry h} (hplug : c.plug t = ⟨H, T⟩)
    (houtside : ∀ n, Comparable n k → Sorted n T.entries →
      (∀ e ∈ c.entriesBefore, e.place < keyPlace k) ∧ ∀ e ∈ c.entriesAfter, keyPlace k < e.place) :
    (seek k c t).Sound k T := by
  induction h with
  | zero =>
      obtain ⟨l, hl⟩ := t.exists_leaf
      rw [hl] at hplug ⊢
      have hseek : seek k c (LevelTree.leaf l) = seekLeaf k c l := rfl
      have hitems := List.take_append_drop (entrySlot k l.items) l.items
      -- an entry with the key could only be the first one behind the slot
      have habsent (hdrop : ∀ n, Comparable n k → Sorted n T.entries →
          ∀ e ∈ l.items.drop (entrySlot k l.items), keyPlace k < e.place) :
          Spot.absent.Sound k T := by
        intro n hk hsorted
        obtain ⟨hbefore, hafter⟩ := houtside n hk hsorted
        have hleaf : Sorted n l.items := hsorted.sublist (sublist_of_plug hplug)
        have htake := lt_of_atOrAfter hk (hleaf.sublist (List.take_sublist _ _))
          (entrySlot_spec (hleaf.monotone hk)).1
        rw [entries_of_plug hplug]
        have hentries : LevelTree.entries (LevelTree.leaf l) = l.items := rfl
        rw [hentries, ← hitems]
        exact forall_mem_append (forall_mem_append (fun e he => (hbefore e he).ne)
          (forall_mem_append (fun e he => (htake e he).ne) fun e he => (hdrop n hk hsorted e he).ne'))
          fun e he => (hafter e he).ne'
      rw [hseek, seekLeaf]
      rcases hdrop : l.items.drop (entrySlot k l.items) with _ | ⟨e, rest⟩
      · refine habsent fun n _ _ e he => ?_
        rw [hdrop] at he
        cases he
      · rw [hdrop] at hitems
        simp only
        split
        · rename_i heq
          refine ⟨?_, heq⟩
          rw [hitems]
          exact hplug
        · rename_i hne
          refine habsent fun n hk hsorted => ?_
          have hleaf : Sorted n l.items := hsorted.sublist (sublist_of_plug hplug)
          have hat := (entrySlot_spec (hleaf.monotone hk)).2
          have hrest := hleaf.sublist (List.drop_sublist (entrySlot k l.items) l.items)
          rw [hdrop] at hat hrest ⊢
          exact lt_of_ne hk hrest (hat e (List.mem_cons_self ..)) hne
  | succ h ih =>
      obtain ⟨node, hn⟩ := t.exists_node
      rw [hn] at hplug ⊢
      obtain ⟨f, child, rfl, hlen⟩ := exists_frame_lowerBound (atOrAfter k) node
      -- the divider behind the child is not the entry: go down
      have hdown (hstrict : ∀ n, Comparable n k → Sorted n T.entries →
          ∀ e ∈ f.entriesAfter, keyPlace k < e.place) : (seek k (.inside f c) child).Sound k T := by
        refine ih hplug fun n hk hsorted => ?_
        obtain ⟨hbefore, hafter⟩ := houtside n hk hsorted
        have hnode : Sorted n (LevelTree.node (f.fill child)).entries :=
          hsorted.sublist (sublist_of_plug hplug)
        have hpre := lt_of_atOrAfter hk (hnode.sublist (by
            rw [entries_fill, List.append_assoc]
            exact List.sublist_append_left _ _))
          (frame_entries hlen (hnode.monotone hk)).1
        exact ⟨forall_mem_append hbefore hpre, forall_mem_append (hstrict n hk hsorted) hafter⟩
      rw [seek_fill (k := k) c hlen]
      rcases hnext : f.post with _ | ⟨⟨d, right⟩, post⟩
      · refine hdown fun n _ _ e he => ?_
        rw [Frame.entriesAfter, Frame.after, hnext] at he
        cases he
      · obtain ⟨g, rfl⟩ : ∃ g, f = TreeFormat.split g d right :=
          ⟨{ f with post := post }, by rw [TreeFormat.split, ← hnext]⟩
        obtain rfl : g.post = post := (List.cons.inj hnext).2
        simp only
        split
        · rename_i heq
          exact ⟨hplug, heq⟩
        · rename_i hne
          refine hdown fun n hk hsorted => ?_
          have hnode : Sorted n (LevelTree.node ((TreeFormat.split g d right).fill child)).entries :=
            hsorted.sublist (sublist_of_plug hplug)
          have hat := (frame_entries hlen (hnode.monotone hk)).2
          rw [entries_fill] at hnode
          have hbehind := hnode.sublist (List.sublist_append_right _ _)
          rw [entriesAfter_split] at hat hbehind ⊢
          exact lt_of_ne hk hbehind (hat d (List.mem_cons_self ..)) hne

/-- `_locate` in a stored index tree. -/
theorem locate_spec (k : List Value) (ht : IndexStored s root others T) :
    (seek k .root T).Sound k T ∧
      IndexBTree.locate root k s = (.ok (seek k .root T).located, s) := by
  refine ⟨seek_sound (c := .root) rfl fun _ _ _ => ⟨fun _ he => (List.not_mem_nil he).elim,
    fun _ he => (List.not_mem_nil he).elim⟩, ?_⟩
  rw [IndexBTree.locate, bind_of_ok (state_apply s), ← ht.root, ← Ctx.path_root (α := Entry)]
  exact locateFrom_spec ht.live (c := .root) ht.height_lt (List.subset_append_left _ _) ht.readable

/-- Down to the last leaf. -/
theorem rightmostLeafPathFrom_live {img : Image} (hlive : Live s img) {t : IndexTree h}
    (c : Ctx Entry Entry h) (hsub : t.image ⊆ img) {fuel : Nat} (hfuel : h < fuel) :
    IndexBTree.rightmostLeafPathFrom fuel c.path t.id s =
      (.ok ((t.lastLeaf.id, t.lastLeaf.items.length - 1) :: (c.last t).path), s) := by
  induction h generalizing fuel with
  | zero =>
      obtain ⟨fuel, rfl⟩ : ∃ n, fuel = n + 1 := ⟨fuel - 1, by omega⟩
      obtain ⟨l, hl⟩ := t.exists_leaf
      rw [hl] at hsub ⊢
      rw [IndexBTree.rightmostLeafPathFrom, LevelTree.id_leaf,
        bind_of_ok (readBody_indexLeaf hlive hsub)]
      simp only [List.length_map]
      rfl
  | succ h ih =>
      obtain ⟨fuel, rfl⟩ : ∃ n, fuel = n + 1 := ⟨fuel - 1, by omega⟩
      obtain ⟨n, hn⟩ := t.exists_node
      rw [hn] at hsub ⊢
      have hlen : ((n.map LevelTree.id).kids.map indexFormat.cell).length = n.kids.length := by
        rw [List.length_map, Node.map, List.length_map]
      have hlast : IndexTree.image n.last ⊆ img := fun q hq =>
        hsub (List.mem_cons_of_mem _ (List.mem_append_right _ hq))
      rw [IndexBTree.rightmostLeafPathFrom, LevelTree.id_node,
        bind_of_ok (readBody_indexNode hlive hsub)]
      simp only [hlen]
      exact @ih n.last (.inside ⟨n.id, n.kids, []⟩ c) hlast fuel (by omega)

/-- `_rightmost_leaf_path`. -/
theorem rightmostLeafPath_live {img : Image} (hlive : Live s img) {t : IndexTree h}
    (c : Ctx Entry Entry h) (hsub : t.image ⊆ img) (hheight : h < s.pageCount + 1) :
    IndexBTree.rightmostLeafPath c.path t.id s =
      (.ok ((t.lastLeaf.id, t.lastLeaf.items.length - 1) :: (c.last t).path), s) := by
  rw [IndexBTree.rightmostLeafPath, bind_of_ok (state_apply s)]
  exact rightmostLeafPathFrom_live hlive c hsub hheight

end Descend

/-! ## Entries whose cells can be packed -/

/-- An entry whose cell can be packed. -/
structure Entry.Packs (e : Entry) : Prop where
  total : e.cell.total < 2 ^ 64
  overflows : e.cell.overflow < 2 ^ 32

theorem Entry.Packs.encodeLeaf {e : Entry} (h : e.Packs) : encodeLeafIndexCell e.cell = .ok e.cell := by
  have hvalid : requireValidSplit .leafIndex e.cell = .ok () := e.stored.valid_payload
  rw [encodeLeafIndexCell, hvalid, checkUvarint, if_pos h.total, toBytes4_of_lt h.overflows]
  rfl

theorem Entry.Packs.encodeInterior {e : Entry} (h : e.Packs) {child : Nat} (hchild : child < 2 ^ 32) :
    encodeInteriorIndexCell child e.cell = .ok ⟨child, e.cell⟩ := by
  have hvalid : requireValidSplit .interiorIndex e.cell = .ok () := e.stored.valid_payload
  rw [encodeInteriorIndexCell, hvalid, toBytes4_of_lt hchild, checkUvarint, if_pos h.total,
    toBytes4_of_lt h.overflows]
  rfl

theorem Entry.packs_of_chain {e : Entry} (hnodup : e.stored.chain.Nodup)
    (hsmall : ∀ i ∈ e.stored.chain, i < 2 ^ 32) : e.Packs :=
  ⟨e.stored.total_lt hnodup hsmall, e.stored.overflow_small hsmall⟩

/-- An entry whose chain is among the pages in use packs. -/
theorem Entry.packs_of_live {s : PageStore} {e : Entry} {I : Image}
    (hlive : Live s (e.stored.image ++ I)) (hsmall : Small e.stored.image) : e.Packs := by
  have hnodup := hlive.forget_right.ids_nodup
  rw [Small, e.stored.image_ids] at hsmall
  rw [e.stored.image_ids] at hnodup
  exact e.packs_of_chain hnodup hsmall

/-- The chain of an entry, among the pages of the tree. -/
theorem extra_sublist_index {h : Nat} {t : IndexTree h} {e : Entry} (he : e ∈ t.entries) :
    e.stored.image.Sublist t.image :=
  extra_sublist (L := indexFormat.layout) rfl t he

theorem IndexStored.packs {s : PageStore} {root : Nat} {others : Image} {h : Nat} {t : IndexTree h}
    (ht : IndexStored s root others t) {e : Entry} (he : e ∈ t.entries) : e.Packs := by
  have hsub := extra_sublist_index he
  refine e.packs_of_chain ?_ fun i hi => ht.small i ?_
  · rw [← e.stored.image_ids]
    exact ht.live.forget_right.ids_nodup.sublist (hsub.map Prod.fst)
  · rw [← e.stored.image_ids] at hi
    exact (hsub.map Prod.fst).subset hi

end QuillDb
