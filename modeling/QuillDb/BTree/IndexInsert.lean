/-
  BTree/IndexInsert.lean --- insertion into an index tree.

  Source: `IndexBTree.insert` and `IndexBTree._split_leaf` of
  `quilldb/btree/index.py`.

  A new entry goes before the first one that is not below it.  A leaf that splits
  gives up the last entry of its left half, which becomes a divider with its
  overflow chain.  A leaf that is cut well raises nothing but what the packing of page
  numbers raises.
-/
import QuillDb.BTree.IndexSplit

set_option autoImplicit false

namespace QuillDb

open Prog PageStore PageTree Fallible

/-! ## Encoding -/

theorem encodeLeafIndexCell_ok {p c : Payload} (h : encodeLeafIndexCell p = .ok c) :
    c = p ∧ p.overflow < 2 ^ 32 := by
  unfold encodeLeafIndexCell at h
  obtain ⟨_, -, h⟩ := bind_eq_ok h
  obtain ⟨_, -, h⟩ := bind_eq_ok h
  obtain ⟨_, hoverflow, h⟩ := bind_eq_ok h
  exact ⟨(Except.ok.inj h).symm, (toBytes4_eq_ok hoverflow).1⟩

/-- Setting an element of a list that is cut around another one. -/
theorem set_around {α : Type} (left : List α) (p : α) (right : List α) (i : Nat) (a : α) :
    (left ++ p :: right).set i a =
      if i < left.length then left.set i a ++ p :: right
      else if i = left.length then left ++ a :: right
      else left ++ p :: right.set (i - left.length - 1) a := by
  split
  · rename_i hlt
    rw [List.set_append_left _ _ hlt]
  · rename_i hge
    rw [List.set_append_right _ _ (by omega)]
    split
    · rename_i heq
      rw [heq, Nat.sub_self, List.set_cons_zero]
    · rename_i hne
      obtain ⟨j, hj⟩ : ∃ j, i - left.length = j + 1 := ⟨i - left.length - 1, by omega⟩
      rw [hj, List.set_cons_succ, Nat.add_sub_cancel]

theorem chooseSplit_index {cells : List Payload} {keys : List (List Value)} {slot : Nat}
    {newCell : Payload} {key : List Value} {b : Bool} {left right : List Payload} {promoted : Payload}
    (hkeys : keys.length = cells.length)
    (h : IndexBTree.chooseSplit cells keys slot newCell key b = .ok (left, promoted, right)) :
    left ++ promoted :: right = BTree.insertAt cells slot newCell ∧ right ≠ [] := by
  unfold IndexBTree.chooseSplit at h
  simp only at h
  obtain ⟨⟨leftCells, rightCells, sep⟩, hsplit, h⟩ := bind_eq_ok h
  generalize (b && keys.getLast?.all fun last => decide (compareKeys key last = .gt)) =
    useAppendSplit at hsplit
  have hlen := length_insertAt cells slot newCell
  by_cases htwo : 2 ≤ (BTree.insertAt cells slot newCell).length
  · obtain ⟨m, separator, hpos, hlt, -, -, -, hcut⟩ := @splitCells_spec _ _ Payload.size
      (BTree.insertAt cells slot newCell) (BTree.insertAt keys slot key) useAppendSplit htwo
      (by rw [length_insertAt, length_insertAt, hkeys])
    rw [hcut] at hsplit
    obtain ⟨rfl, rfl, rfl⟩ : _ ∧ _ ∧ _ := by simpa using Except.ok.inj hsplit
    simp only at h
    split at h
    · rename_i last hlast
      obtain ⟨rfl, rfl, rfl⟩ : _ ∧ _ ∧ _ := by simpa using Except.ok.inj h
      refine ⟨?_, fun hnil => ?_⟩
      · rw [← List.singleton_append, ← List.append_assoc, List.dropLast_append_getLast? _ hlast,
          List.take_append_drop]
      · have := List.drop_eq_nil_iff.mp hnil
        omega
    · cases h
  · unfold splitCells at hsplit
    rw [if_pos (by omega)] at hsplit
    cases hsplit

/-! ## The tree after an insertion -/

theorem Sorted.insert {n : Nat} {xs ys : List Entry} {e : Entry} (h : Sorted n (xs ++ ys))
    (he : Comparable n e.key) (hxs : ∀ a ∈ xs, atOrAfter e.key a = false)
    (hys : ∀ a ∈ ys, atOrAfter e.key a = true) : Sorted n (xs ++ e :: ys) := by
  have hleft := h.sublist (List.sublist_append_left xs ys)
  have hright := h.sublist (List.sublist_append_right xs ys)
  have hxs := lt_of_atOrAfter he hleft hxs
  have hys (a) (ha : a ∈ ys) := (atOrAfter_iff he (hright.comparable a ha)).mp (hys a ha)
  constructor
  · exact forall_mem_append hleft.comparable (List.forall_mem_cons.mpr ⟨he, hright.comparable⟩)
  · obtain ⟨-, -, hcross⟩ := List.pairwise_append.mp h.ordered
    refine List.pairwise_append.mpr ⟨hleft.ordered,
      List.pairwise_cons.mpr ⟨hys, hright.ordered⟩, fun a ha b hb => ?_⟩
    rcases List.mem_cons.mp hb with rfl | hb
    · exact (hxs a ha).le
    · exact hcross a ha b hb

section After

variable {lost : Residue} {s s' : PageStore} {root : Nat} {others : Image} {H : Nat} {T : IndexTree H}
variable {k : List Value} {c : Ctx Entry Entry 0} {l : Leaf Entry} {e : Entry}

/-- The pages outside a subtree have cells. -/
theorem IndexStored.celled_ctx {h : Nat} {c : Ctx Entry Entry h} {t : IndexTree h}
    (ht : IndexStored s root others T) (hplug : c.plug t = ⟨H, T⟩) :
    Celled (c.image indexFormat.layout t.id) := by
  rcases ht.filled with hheight | hcelled
  · have hroot := Ctx.eq_root_of_plug hplug hheight
    cases c with
    | root => exact fun p hp => by cases hp
    | inside f up => cases hroot
  · exact fun p hp => hcelled p ((Ctx.image_of_plug hplug indexFormat.layout).mem_iff.mpr
      (List.mem_append_left _ hp))

namespace IndexReached

theorem entries (hr : IndexReached k T c l) :
    T.entries = c.entriesBefore ++ l.items ++ c.entriesAfter :=
  entries_of_plug hr.plug

/-- The slot cuts the whole tree, at `k` if it is sorted. -/
theorem cut (hr : IndexReached k T c l) :
    ∃ xs ys, T.entries = xs ++ ys ∧
      (Monotone (atOrAfter k) T.entries →
        (∀ a ∈ xs, atOrAfter k a = false) ∧ ∀ a ∈ ys, atOrAfter k a = true) ∧
      ∀ e, c.entriesBefore ++ BTree.insertAt l.items (entrySlot k l.items) e ++ c.entriesAfter =
        xs ++ e :: ys := by
  refine ⟨c.entriesBefore ++ l.items.take (entrySlot k l.items),
    l.items.drop (entrySlot k l.items) ++ c.entriesAfter, ?_, fun hmono => ?_, fun e => ?_⟩
  · rw [hr.entries, List.append_assoc, List.append_assoc, ← List.append_assoc (l.items.take _),
      List.take_append_drop]
  · obtain ⟨hbefore, hafter⟩ := hr.cuts hmono
    obtain ⟨htake, hdrop⟩ := entrySlot_spec (hmono.of_sublist (sublist_of_plug hr.plug))
    exact ⟨forall_mem_append hbefore htake, forall_mem_append hdrop hafter⟩
  · simp only [BTree.insertAt, List.append_assoc, List.cons_append]

theorem leaf_subset (hr : IndexReached k T c l) : IndexTree.image (.leaf l) ⊆ T.image := by
  intro p hp
  exact (Ctx.image_of_plug hr.plug indexFormat.layout).mem_iff.mpr (List.mem_append_right _ hp)

theorem ctx_subset (hr : IndexReached k T c l) : c.image indexFormat.layout l.id ⊆ T.image := by
  intro p hp
  exact (Ctx.image_of_plug hr.plug indexFormat.layout).mem_iff.mpr (List.mem_append_left _ hp)

theorem ctx_celled (hr : IndexReached k T c l) (ht : IndexStored s root others T) :
    Celled (c.image indexFormat.layout l.id) :=
  ht.celled_ctx hr.plug

end IndexReached

/-- An insertion that returned: in a sorted tree the entry stands between those below
its key and the rest. -/
def IndexInserted (root : Nat) (others : Image) (T : IndexTree H) (k : List Value) (s' : PageStore) :
    Prop :=
  ∃ (H' : Nat) (T' : IndexTree H') (e : Entry) (xs ys : List Entry),
    IndexStored s' root others T' ∧ e.key = k ∧ T.entries = xs ++ ys ∧ T'.entries = xs ++ e :: ys ∧
      ∀ n, Comparable n k → Sorted n T.entries → Sorted n T'.entries

/-- An insertion that returned, and lost no page. -/
def IndexInsertedBut (lost : Residue) (root : Nat) (others : Image) (T : IndexTree H)
    (k : List Value) (s' : PageStore) : Prop :=
  ∃ (H' : Nat) (T' : IndexTree H') (e : Entry) (xs ys : List Entry),
    IndexStored s' root others T' ∧ LiveBut lost s' (T'.image ++ others) ∧ e.key = k ∧
      T.entries = xs ++ ys ∧ T'.entries = xs ++ e :: ys ∧
        ∀ n, Comparable n k → Sorted n T.entries → Sorted n T'.entries

theorem IndexInsertedBut.inserted {lost : Residue} (h : IndexInsertedBut lost root others T k s') :
    IndexInserted root others T k s' := by
  obtain ⟨H', T', e, xs, ys, hT', -, hrest⟩ := h
  exact ⟨H', T', e, xs, ys, hT', hrest⟩

/-- A tree that lists the old entries with the new one at its slot. -/
theorem indexInserted_of_entries (hr : IndexReached k T c l) (hkey : e.key = k) {H' : Nat}
    {U : IndexTree H'} (hid : U.id = root)
    (hentries : U.entries = c.entriesBefore ++
      BTree.insertAt l.items (entrySlot k l.items) e ++ c.entriesAfter)
    (hfilled : H' = 0 ∨ Celled U.image) (hsmall : Small U.image)
    (hlive : LiveBut lost s' (U.image ++ others)) : IndexInsertedBut lost root others T k s' := by
  obtain ⟨xs, ys, hT, hcut, hinsert⟩ := hr.cut
  rw [hinsert] at hentries
  refine ⟨H', U, e, xs, ys, ⟨hid, hfilled, hsmall, hlive.live⟩, hlive, hkey, hT, hentries, fun n hk hsorted => ?_⟩
  obtain ⟨hxs, hys⟩ := hcut (hsorted.monotone hk)
  rw [hT] at hsorted
  rw [hentries]
  subst hkey
  exact hsorted.insert hk hxs hys

/-- The pages of the tree and of the new entry's chain, around the page of the leaf. -/
theorem IndexReached.image_insert (hr : IndexReached k T c l) :
    (e.stored.image ++ T.image).Perm ((l.id, .body (.indexLeaf (l.items.map Entry.cell))) ::
      ((BTree.insertAt l.items (entrySlot k l.items) e).flatMap indexFormat.leafExtra ++
        c.image indexFormat.layout l.id)) := by
  have hextra := insertAt_flatMap indexFormat.leafExtra l.items (entrySlot k l.items) e
  have hleaf : IndexTree.image (.leaf l) = (l.id, .body (.indexLeaf (l.items.map Entry.cell))) ::
      l.items.flatMap indexFormat.leafExtra := rfl
  have hst : indexFormat.leafExtra e = e.stored.image := rfl
  refine ((Ctx.image_of_plug hr.plug indexFormat.layout).append_left _).trans ?_
  rw [LevelTree.id_leaf, show LevelTree.image indexFormat.layout (.leaf l) = _ from hleaf,
    List.perm_iff_count]
  intro p
  have hcount := hextra.count_eq p
  rw [hst] at hcount
  simp only [List.count_append, List.count_cons] at hcount ⊢
  omega

/-- The page numbers in use around the leaf, and those of the new chain. -/
theorem IndexReached.small_insert (hr : IndexReached k T c l) (ht : IndexStored s root others T)
    (hst : ∀ i ∈ e.stored.chain, i < 2 ^ 32) :
    Small ((l.id, .body (.indexLeaf (l.items.map Entry.cell))) ::
      ((BTree.insertAt l.items (entrySlot k l.items) e).flatMap indexFormat.leafExtra ++
        c.image indexFormat.layout l.id)) := by
  intro i hi
  have hi := ((hr.image_insert.map Prod.fst).mem_iff.mpr hi)
  rw [List.map_append, e.stored.image_ids] at hi
  rcases List.mem_append.mp hi with hi | hi
  · exact hst i hi
  · exact ht.small i hi

theorem celled_extra (es : List Entry) : Celled (es.flatMap indexFormat.leafExtra) := by
  intro p hp
  obtain ⟨e, -, hp⟩ := List.mem_flatMap.mp hp
  exact celled_chain _ _ p hp

theorem leaf_hasCells {es : List Entry} (h : es ≠ []) :
    (PageContent.body (.indexLeaf (es.map Entry.cell))).HasCells := by
  rw [PageContent.HasCells, PageBody.cellSizes, List.map_map, Ne, List.map_eq_nil_iff]
  exact h

/-- The leaf took the entry. -/
theorem inserted_leaf (ht : IndexStored s root others T) (hr : IndexReached k T c l)
    (hkey : e.key = k) (hst : ∀ i ∈ e.stored.chain, i < 2 ^ 32)
    (hlive : LiveBut lost s' ((l.id, .body (.indexLeaf ((BTree.insertAt l.items (entrySlot k l.items) e).map
      Entry.cell))) :: ((BTree.insertAt l.items (entrySlot k l.items) e).flatMap
        indexFormat.leafExtra ++ c.image indexFormat.layout l.id ++ others))) :
    IndexInsertedBut lost root others T k s' := by
  have hsmall := hr.small_insert ht hst
  have hlen := length_insertAt l.items (entrySlot k l.items) e
  generalize hes : BTree.insertAt l.items (entrySlot k l.items) e = es at hsmall hlen hlive
  have himage : (IndexTree.image (c.plug (.leaf ⟨l.id, es⟩)).2).Perm
      ((l.id, .body (.indexLeaf (es.map Entry.cell))) ::
        (es.flatMap indexFormat.leafExtra ++ c.image indexFormat.layout l.id)) := by
    refine (c.image_plug indexFormat.layout (.leaf ⟨l.id, es⟩)).trans ?_
    exact List.perm_append_comm
  refine indexInserted_of_entries hr hkey (U := (c.plug (.leaf ⟨l.id, es⟩)).2) ?_ ?_
    (.inr fun p hp => ?_) (fun i hi => ?_) (hlive.perm (himage.append_right others).symm)
  · rw [c.id_plug, LevelTree.id_leaf, ← ht.root, Ctx.id_of_plug hr.plug, LevelTree.id_leaf]
  · rw [hes]
    exact entries_plug c (.leaf ⟨l.id, es⟩)
  · rcases List.mem_cons.mp (himage.mem_iff.mp hp) with rfl | hp
    · refine leaf_hasCells fun hnil => ?_
      rw [hnil] at hlen
      exact Nat.succ_ne_zero _ hlen.symm
    · rcases List.mem_append.mp hp with hp | hp
      · exact celled_extra _ p hp
      · exact hr.ctx_celled ht p hp
  · exact hsmall i ((himage.map Prod.fst).mem_iff.mp hi)

/-- The leaf split around the entry, and its separator went up. -/
theorem inserted_promoted (ht : IndexStored s root others T) (hr : IndexReached k T c l)
    (hkey : e.key = k) (hst : ∀ i ∈ e.stored.chain, i < 2 ^ 32)
    {left right : List Entry} {d : Entry} {r : Nat}
    (hcut : left ++ d :: right = BTree.insertAt l.items (entrySlot k l.items) e)
    (hleft : left ≠ []) (hright : right ≠ [])
    (hp : indexFormat.Promoted c (.leaf ⟨l.id, left⟩) d (.leaf ⟨r, right⟩) lost others s') :
    IndexInsertedBut lost root others T k s' := by
  obtain ⟨H', T', hid, hwalk, hsmall, hcelled, hlive⟩ := hp
  have hold := hr.small_insert ht hst
  rw [← hcut] at hold
  have hparts : indexFormat.pieces c (.leaf ⟨l.id, left⟩) d (.leaf ⟨r, right⟩) =
      c.image indexFormat.layout l.id ++ (((l.id, .body (.indexLeaf (left.map Entry.cell))) ::
        left.flatMap indexFormat.leafExtra) ++ (d.stored.image ++
          ((r, .body (.indexLeaf (right.map Entry.cell))) ::
            right.flatMap indexFormat.leafExtra))) := rfl
  have hd : indexFormat.leafExtra d = d.stored.image := rfl
  refine indexInserted_of_entries hr hkey (U := T') ?_ ?_ (.inr (hcelled ?_)) (hsmall ?_) hlive
  · rw [hid, LevelTree.id_leaf, ← ht.root, Ctx.id_of_plug hr.plug, LevelTree.id_leaf]
  · rw [LevelTree.entries, hwalk, ← hcut]
    rfl
  · rw [hparts]
    intro p hp
    simp only [List.mem_append, List.mem_cons] at hp
    rcases hp with hp | (rfl | hp) | hp | rfl | hp
    · exact hr.ctx_celled ht p hp
    · exact leaf_hasCells hleft
    · exact celled_extra _ p hp
    · exact celled_chain _ _ p hp
    · exact leaf_hasCells hright
    · exact celled_extra _ p hp
  · rw [hparts]
    intro i hi hne
    simp only [List.map_append, List.map_cons, List.mem_append, List.mem_cons] at hi
    simp only [Small, List.flatMap_append, List.flatMap_cons, hd, List.map_cons, List.map_append,
      List.mem_append, List.mem_cons] at hold
    rcases hi with hi | (rfl | hi) | hi | rfl | hi
    · exact hold i (.inr (.inr hi))
    · exact hold _ (.inl rfl)
    · exact hold i (.inr (.inl (.inl hi)))
    · exact hold i (.inr (.inl (.inr (.inl hi))))
    · exact absurd rfl hne
    · exact hold i (.inr (.inl (.inr (.inr hi))))

end After

/-! ## Writing the halves -/

/-- The parent of a leaf, from its context. -/
def indexParentOf : Ctx Entry Entry 0 → Nat → Option IndexBTree.Parent
  | .root, _ => none
  | .inside f _, hole => some ⟨f.id, f.pre.length,
      ((f.map LevelTree.id).fill hole).kids.map indexFormat.cell, ((f.map LevelTree.id).fill hole).last⟩

theorem readParent_index {s : PageStore} {img : Image} (hlive : Live s img) {c : Ctx Entry Entry 0}
    {hole : Nat} (hsub : c.image indexFormat.layout hole ⊆ img) :
    IndexBTree.readParent c.path s = (.ok (indexParentOf c hole), s) := by
  cases c with
  | root => rw [Ctx.path_root, IndexBTree.readParent, indexParentOf, pure_apply]
  | inside f up =>
      have hpage : readBody f.id s = (.ok (.indexInterior
          (((f.map LevelTree.id).fill hole).kids.map indexFormat.cell)
          ((f.map LevelTree.id).fill hole).last), s) :=
        readBody_live hlive (hsub (List.mem_append_left _ (List.mem_cons_self ..)))
      have hcells : indexInteriorCells f.id s = (.ok (((f.map LevelTree.id).fill hole).kids.map
          indexFormat.cell, ((f.map LevelTree.id).fill hole).last), s) := indexInteriorCells_of_read hpage
      rw [Ctx.path, IndexBTree.readParent, bind_of_ok hcells]
      rfl

section Write

variable {lost : Residue} {s s' : PageStore} {root : Nat} {others : Image} {H : Nat} {T : IndexTree H}
variable {k : List Value} {c : Ctx Entry Entry 0} {l : Leaf Entry} {e d : Entry}
variable {left right : List Entry} {E : DbError → Prop}

/-- Of an entry whose cell can be packed only the child may not fit. -/
theorem Entry.Packs.encodeInterior_error {child : Nat} {err : DbError} (h : e.Packs)
    (henc : encodeInteriorIndexCell child e.cell = .error err) : err = tooBig := by
  rcases Nat.lt_or_ge child (2 ^ 32) with hsmall | hlarge
  · rw [h.encodeInterior hsmall] at henc
    cases henc
  · have hvalid : requireValidSplit .interiorIndex e.cell = .ok () := e.stored.valid_payload
    rw [encodeInteriorIndexCell, hvalid, toBytes4, if_neg (Nat.not_lt.mpr hlarge)] at henc
    exact (Except.error.inj henc).symm

theorem admits_packs (hover : E tooBig) {P : PageStore → Prop} :
    indexFormat.Admits (fun err _ => E err) P Entry.Packs :=
  ⟨fun _ _ => hover, fun hd henc _ => hd.encodeInterior_error henc ▸ hover⟩

/-- The new entry and those of the tree. -/
theorem packs_insert (ht : IndexStored s root others T) (hr : IndexReached k T c l)
    (hst : ∀ i ∈ e.stored.chain, i < 2 ^ 32) (hlive : LiveBut lost s' (e.stored.image ++ (T.image ++ others))) :
    ∀ a ∈ c.entriesBefore ++ BTree.insertAt l.items (entrySlot k l.items) e ++ c.entriesAfter,
      a.Packs := by
  have hnew : e.Packs := e.packs_of_live hlive.live fun i hi => hst i (by rwa [e.stored.image_ids] at hi)
  have hold : ∀ a ∈ T.entries, a.Packs := fun a ha => ht.packs ha
  rw [hr.entries] at hold
  intro a ha
  rcases List.mem_append.mp ha with ha | ha
  · rcases List.mem_append.mp ha with ha | ha
    · exact hold a (List.mem_append_left _ (List.mem_append_left _ ha))
    · rcases mem_insertAt ha with rfl | ha
      · exact hnew
      · exact hold a (List.mem_append_left _ (List.mem_append_right _ ha))
  · exact hold a (List.mem_append_right _ ha)

theorem writeSplit_index (hover : E tooBig) (ht : IndexStored s root others T)
    (hr : IndexReached k T c l)
    (hkey : e.key = k) (hst : ∀ i ∈ e.stored.chain, i < 2 ^ 32)
    (hcut : left ++ d :: right = BTree.insertAt l.items (entrySlot k l.items) e)
    (hleft : left ≠ []) (hright : right ≠ [])
    (hleftFits : (PageBody.indexLeaf (left.map Entry.cell)).usedBytes ≤ pageSize)
    (hrightFits : (PageBody.indexLeaf (right.map Entry.cell)).usedBytes ≤ pageSize)
    {separator : InteriorCell Payload} (hsize : separator.size Payload.size = 4 + d.cell.size)
    (hlive : LiveBut lost s' (e.stored.image ++ (T.image ++ others))) :
    Post (IndexBTree.writeSplit l.id c.path (indexParentOf c l.id) (left.map Entry.cell) d.cell
      (right.map Entry.cell) separator) s' (fun _ s'' => IndexInsertedBut lost root others T k s'')
      fun err _ => E err := by
  have hpacks := packs_insert ht hr hst hlive
  rw [← hcut] at hpacks
  have hd : d.Packs := hpacks d (List.mem_append_left _ (List.mem_append_right _
    (List.mem_append_right _ (List.mem_cons_self ..))))
  have hpages : (e.stored.image ++ (T.image ++ others)).Perm
      ((l.id, .body (.indexLeaf (l.items.map Entry.cell))) :: ((left.flatMap indexFormat.leafExtra ++
        (d.stored.image ++ right.flatMap indexFormat.leafExtra)) ++
          c.image indexFormat.layout l.id ++ others)) := by
    have hinsert := (hr.image_insert (e := e)).append_right others
    rw [← hcut, List.flatMap_append, List.flatMap_cons] at hinsert
    rw [← List.append_assoc]
    exact hinsert
  unfold IndexBTree.writeSplit
  rw [post_bind]
  refine (allocatePage_post hlive).mono (fun newRight s₁ h₁ => ?_) fun _ _ he => he
  obtain ⟨_, h₁⟩ := h₁
  rw [post_bind]
  refine (initBody_post (fun _ => hover) h₁ fun hlt => absurd hrightFits
    (Nat.not_le.mpr hlt)).mono (fun _ s₂ h₂ => ?_) fun _ _ he => he
  obtain ⟨h₂, -⟩ := h₂
  rw [post_bind]
  refine post_lift.mpr ⟨fun newLeftCell hcell => ?_, fun _ he => hd.encodeInterior_error he ▸ hover⟩
  obtain ⟨-, rfl⟩ := encodeInteriorIndexCell_ok hcell
  cases c with
  | root =>
      simp only [indexParentOf]
      rw [post_bind]
      refine (allocatePage_post h₂).mono (fun newLeft s₃ h₃ => ?_) fun _ _ he => he
      obtain ⟨_, h₃⟩ := h₃
      rw [post_bind]
      refine (initBody_post (fun _ => hover) h₃ fun hlt => absurd hleftFits
        (Nat.not_le.mpr hlt)).mono (fun _ s₄ h₄ => ?_) fun _ _ he => he
      obtain ⟨h₄, -⟩ := h₄
      rw [post_bind]
      refine post_lift.mpr ⟨fun top htop => ?_, fun _ he => hd.encodeInterior_error he ▸ hover⟩
      obtain ⟨hnewLeft, rfl⟩ := encodeInteriorIndexCell_ok htop
      have h₅ := h₄.perm ((hpages.append_left [_, _]).trans List.perm_middle)
      have htopFits : (PageBody.indexInterior [⟨newLeft, d.cell⟩] newRight).usedBytes ≤ pageSize := by
        have hcell := d.size_cell_le
        have hcap : interiorHeaderSize + interiorCap ≤ pageSize := by decide
        simp only [PageBody.usedBytes, PageBody.headerSize, PageBody.cellSizes, List.map_cons,
          List.map_nil, List.length_cons, List.length_nil, List.sum_cons, List.sum_nil,
          InteriorCell.size]
        omega
      refine (writeBody_post (fun _ => hover) h₅ fun hlt => absurd htopFits
        (Nat.not_le.mpr hlt)).mono (fun _ s₅ h₆ => ?_)
        fun _ _ he => he
      obtain ⟨h₆, hnewRight⟩ := h₆
      have hnewRight : newRight < 2 ^ 32 := hnewRight
      refine inserted_promoted ht hr hkey hst hcut hleft hright
        (indexFormat.promoted_root_leaf hnewLeft hnewRight (h₆.perm ?_))
      have hbody : indexFormat.nodeBody ⟨l.id, [(newLeft, d)], newRight⟩ =
          .indexInterior [⟨newLeft, d.cell⟩] newRight := rfl
      have hextra : indexFormat.dividerExtra d = d.stored.image := rfl
      have hleftBody : indexFormat.leafBody left = .indexLeaf (left.map Entry.cell) := rfl
      have hrightBody : indexFormat.leafBody right = .indexLeaf (right.map Entry.cell) := rfl
      rw [hbody, hextra, hleftBody, hrightBody, List.perm_iff_count]
      intro p
      simp only [List.count_append, List.count_cons, List.count_nil, Ctx.image]
      omega
  | inside f up =>
      simp only [indexParentOf]
      have h₃ := h₂.perm ((hpages.append_left [_]).trans List.perm_middle)
      rw [post_bind]
      refine (writeBody_post (fun _ => hover) h₃ fun hlt => absurd hleftFits
        (Nat.not_le.mpr hlt)).mono (fun _ s₄ h₄ => ?_) fun _ _ he => he
      obtain ⟨h₄, -⟩ := h₄
      have hpieces : LiveBut lost s₄ (indexFormat.pieces (.inside f up) (.leaf ⟨l.id, left⟩) d
          (.leaf ⟨newRight, right⟩) ++ others) := by
        have hparts : indexFormat.pieces (.inside f up) (.leaf ⟨l.id, left⟩) d
            (.leaf ⟨newRight, right⟩) = Ctx.image indexFormat.layout (.inside f up) l.id ++
              (((l.id, .body (.indexLeaf (left.map Entry.cell))) ::
                left.flatMap indexFormat.leafExtra) ++ (d.stored.image ++
                  ((newRight, .body (.indexLeaf (right.map Entry.cell))) ::
                    right.flatMap indexFormat.leafExtra))) := rfl
        refine h₄.perm ?_
        rw [hparts, List.perm_iff_count]
        intro p
        simp only [List.count_append, List.count_cons, List.count_nil]
        omega
      have hok : ∀ a ∈ TreeFormat.splicedDividers (.inside f up) (.leaf ⟨l.id, left⟩) d
          (.leaf ⟨newRight, right⟩), a.Packs := by
        intro a ha
        exact hpacks a (TreeFormat.splicedDividers_subset _ _ _ _ (fun items => items) ha)
      split
      · rename_i hroom
        have hfits : (indexFormat.nodeBody ((f.map LevelTree.id).fill l.id)).fits
            (InteriorCell.size Payload.size ⟨l.id, d.cell⟩) = true := by
          rw [hsize] at hroom
          exact hroom
        exact (indexFormat.place_post f up (.leaf ⟨l.id, left⟩) d (.leaf ⟨newRight, right⟩)
          (admits_packs hover) hok hpieces hfits).mono
          (fun _ s₅ h₅ => inserted_promoted ht hr hkey hst hcut hleft hright h₅) fun _ _ he => he
      · exact (indexFormat.promoteSeparator_post (.inside f up) (.leaf ⟨l.id, left⟩) d
          (.leaf ⟨newRight, right⟩) (List.cons_ne_nil _ _) (admits_packs hover) hok hpieces).mono
          (fun _ s₅ h₅ => inserted_promoted ht hr hkey hst hcut hleft hright h₅) fun _ _ he => he

end Write

/-! ## `_split_leaf` -/

section Insert

variable {lost : Residue} {s s' : PageStore} {root : Nat} {others : Image} {H : Nat} {T : IndexTree H}
variable {k : List Value} {c : Ctx Entry Entry 0} {l : Leaf Entry} {e : Entry} {E : DbError → Prop}

theorem indexLeafCells_live {img : Image} (hlive : Live s img)
    (hsub : IndexTree.image (.leaf l) ⊆ img) :
    indexLeafCells l.id s = (.ok (l.items.map Entry.cell), s) := by
  rw [indexLeafCells, bind_of_ok (readBody_indexLeaf hlive hsub)]
  rfl

theorem decodeKeys_live {es : List Entry} (hread : Readable s es) :
    IndexBTree.decodeKeys (es.map Entry.cell) s = (.ok (es.map Entry.key), s) := by
  induction es with
  | nil => rfl
  | cons e es ih =>
      have hdecode := hread e (List.mem_cons_self ..)
      have hrest := ih (hread.subset (List.subset_cons_self _ _))
      rw [List.map_cons, IndexBTree.decodeKeys, bind_of_ok hdecode, bind_of_ok hrest, pure_apply,
        List.map_cons]

/-- Cells that stand for entries are cut where the entries are. -/
theorem exists_entries_cut {es : List Entry} {left right : List Payload} {p : Payload}
    (h : left ++ p :: right = es.map Entry.cell) :
    ∃ (xs : List Entry) (d : Entry) (ys : List Entry), xs ++ d :: ys = es ∧
      xs.map Entry.cell = left ∧ d.cell = p ∧ ys.map Entry.cell = right := by
  obtain ⟨xs, rest, hes, hxs, hrest⟩ := List.map_eq_append_iff.mp h.symm
  obtain ⟨d, ys, rfl, hd, hys⟩ := List.map_eq_cons_iff.mp hrest
  exact ⟨xs, d, ys, hes.symm, hxs, hd, hys⟩

theorem sizes_cut {left right left' right' : List Payload} {p p' : Payload}
    (h : (left' ++ p' :: right').map Payload.size = (left ++ p :: right).map Payload.size)
    (hlen : left'.length = left.length) : left'.map Payload.size = left.map Payload.size ∧
      p'.size = p.size ∧ right'.map Payload.size = right.map Payload.size := by
  rw [List.map_append, List.map_append] at h
  obtain ⟨hleft, hrest⟩ := List.append_inj h (by rw [List.length_map, List.length_map, hlen])
  obtain ⟨hp, hright⟩ := List.cons.inj hrest
  exact ⟨hleft, hp, hright⟩

theorem usedBytes_indexLeaf_congr {xs ys : List Payload}
    (h : xs.map Payload.size = ys.map Payload.size) :
    (PageBody.indexLeaf xs).usedBytes = (PageBody.indexLeaf ys).usedBytes := by
  have hlen := congrArg List.length h
  rw [List.length_map, List.length_map] at hlen
  simp only [PageBody.usedBytes, PageBody.headerSize, PageBody.cellSizes]
  rw [h]

/-- The halves as they are written hold the real cell in place of the sized one. -/
theorem writeHalves_index (hover : E tooBig) (ht : IndexStored s root others T)
    (hr : IndexReached k T c l)
    (hkey : e.key = k) (hst : ∀ i ∈ e.stored.chain, i < 2 ^ 32)
    {candidate p p' : Payload} {left right left' right' : List Payload}
    (hsize : candidate.size = e.cell.size)
    (hcut : left ++ p :: right =
      BTree.insertAt (l.items.map Entry.cell) (entrySlot k l.items) candidate)
    (hcut' : left' ++ p' :: right' = BTree.insertAt (l.items.map Entry.cell) (entrySlot k l.items)
      e.cell)
    (hlen : left'.length = left.length) (hleft : left ≠ []) (hright : right ≠ [])
    (hleftFits : (PageBody.indexLeaf left).usedBytes ≤ pageSize)
    (hrightFits : (PageBody.indexLeaf right).usedBytes ≤ pageSize)
    {separator : InteriorCell Payload} (hsep : separator.size Payload.size = 4 + p.size)
    (hlive : LiveBut lost s' (e.stored.image ++ (T.image ++ others))) :
    Post (IndexBTree.writeSplit l.id c.path (indexParentOf c l.id) left' p' right' separator) s'
      (fun _ s'' => IndexInsertedBut lost root others T k s'') fun err _ => E err := by
  obtain ⟨hleftSizes, hpSize, hrightSizes⟩ := sizes_cut (by
    rw [hcut, hcut', ← insertAt_map, ← insertAt_map, hsize]) hlen
  rw [insertAt_map] at hcut'
  obtain ⟨xs, d, ys, hes, rfl, rfl, rfl⟩ := exists_entries_cut hcut'
  refine writeSplit_index hover ht hr hkey hst hes ?_ ?_ ?_ ?_ (hsep.trans (by rw [hpSize])) hlive
  · rintro rfl
    exact hleft (List.length_eq_zero_iff.mp hlen.symm)
  · rintro rfl
    exact hright (List.map_eq_nil_iff.mp hrightSizes.symm)
  · rwa [usedBytes_indexLeaf_congr hleftSizes]
  · rwa [usedBytes_indexLeaf_congr hrightSizes]

/-- The real cell replaces the sized one, on whichever side of the cut it is. -/
theorem writeReal_index (hover : E tooBig) (ht : IndexStored s root others T)
    (hr : IndexReached k T c l)
    (hkey : e.key = k) (hst : ∀ i ∈ e.stored.chain, i < 2 ^ 32)
    (hslot : entrySlot k l.items ≤ (l.items.map Entry.cell).length)
    {candidate p : Payload} {left right : List Payload} (hsize : candidate.size = e.cell.size)
    (hcut : left ++ p :: right =
      BTree.insertAt (l.items.map Entry.cell) (entrySlot k l.items) candidate)
    (hleft : left ≠ []) (hright : right ≠ [])
    (hleftFits : (PageBody.indexLeaf left).usedBytes ≤ pageSize)
    (hrightFits : (PageBody.indexLeaf right).usedBytes ≤ pageSize)
    {separator : InteriorCell Payload} (hsep : separator.size Payload.size = 4 + p.size)
    (hlive : LiveBut lost s' (e.stored.image ++ (T.image ++ others))) :
    Post (if entrySlot k l.items < left.length then
        IndexBTree.writeSplit l.id c.path (indexParentOf c l.id)
          (left.set (entrySlot k l.items) e.cell) p right separator
      else if entrySlot k l.items = left.length then
        IndexBTree.writeSplit l.id c.path (indexParentOf c l.id) left e.cell right separator
      else
        IndexBTree.writeSplit l.id c.path (indexParentOf c l.id) left p
          (right.set (entrySlot k l.items - left.length - 1) e.cell) separator) s'
      (fun _ s'' => IndexInsertedBut lost root others T k s'') fun err _ => E err := by
  have hset := insertAt_set hslot candidate e.cell
  rw [← hcut, set_around] at hset
  split
  · rename_i hin
    rw [if_pos hin] at hset
    exact writeHalves_index hover ht hr hkey hst hsize hcut hset List.length_set hleft hright hleftFits
      hrightFits hsep hlive
  · rename_i hout
    rw [if_neg hout] at hset
    split
    · rename_i heq
      rw [if_pos heq] at hset
      exact writeHalves_index hover ht hr hkey hst hsize hcut hset rfl hleft hright hleftFits hrightFits
        hsep hlive
    · rename_i hne
      rw [if_neg hne] at hset
      exact writeHalves_index hover ht hr hkey hst hsize hcut hset rfl hleft hright hleftFits hrightFits
        hsep hlive

/-- The separator is sized with page 1 for its chain. -/
theorem size_sizedSeparator (child : Nat) (p : Payload) :
    InteriorCell.size Payload.size
      ⟨child, { p with overflow := if p.overflow ≠ 0 then 1 else 0 }⟩ = 4 + p.size := by
  rw [InteriorCell.size, Payload.size, Payload.size]
  by_cases hzero : p.overflow = 0
  · simp only [hzero, ne_eq, not_true_eq_false, if_false, if_true]
  · simp only [hzero, ne_eq, not_false_eq_true, if_true, if_false, Nat.one_ne_zero]

/-- The new entry, once its payload is stored. -/
theorem exists_entry {values : List Value} {rowid : Int} {payload : Bytes}
    (hencode : encodeIndexKey values rowid = .ok payload) (st : Stored .leafIndex)
    (hdata : st.data = payload) : ∃ e : Entry, e.key = values ++ [.int rowid] ∧ e.stored = st := by
  have hdecode := decodeRecord_encodeRecord [] [] hencode
  rw [List.nil_append, List.append_nil, ← hdata] at hdecode
  exact ⟨⟨_, st, hdecode⟩, rfl, rfl⟩

theorem placeholder_footprint_le (payload : Bytes) :
    leafFootprint (placeholder .leafIndex payload) ≤ indexLeafCap := by
  have hcapval : indexLeafCap = 1017 := rfl
  have hmax : maxLocalPayload .leafIndex = 1002 := by decide
  have hlocal := localPayloadSize_le .leafIndex payload.length
  have hvar := uvarintSize_le payload.length
  have hlen : (placeholder .leafIndex payload).localPart.length =
      localPayloadSize .leafIndex payload.length := Stored.localPart_length payload
  have htotal : (placeholder .leafIndex payload).total = payload.length := rfl
  rw [leafFootprint, Payload.size, hlen, htotal]
  split <;> omega

/-- The cells of a leaf and a new one take at most a quarter page each. -/
theorem insertAt_caps (payload : Bytes) (slot : Nat) :
    ∀ p ∈ BTree.insertAt (l.items.map Entry.cell) slot (placeholder .leafIndex payload),
      leafFootprint p ≤ indexLeafCap := by
  have hcapval : indexLeafCap = 1017 := rfl
  have hinterior : interiorCap = 1021 := rfl
  intro p hp
  rcases mem_insertAt hp with rfl | hp
  · exact placeholder_footprint_le payload
  · obtain ⟨a, -, rfl⟩ := List.mem_map.mp hp
    have hsize := a.size_cell_le
    rw [leafFootprint]
    omega

/-- The separator of a cut is sized without an error but that of the child. -/
theorem encodeSeparator_error {p : Payload} {child : Nat} {err : DbError}
    (hvalid : requireValidSplit .leafIndex p = .ok ()) (htotal : checkUvarint p.total = .ok ())
    (h : encodeInteriorIndexCell child
      { p with overflow := if p.overflow ≠ 0 then 1 else 0 } = .error err) : err = tooBig := by
  have hvalid' : requireValidSplit .interiorIndex
      { p with overflow := if p.overflow ≠ 0 then 1 else 0 } = .ok () := by
    obtain ⟨hlen, hflag⟩ := Stored.requireValidSplit_iff.mp hvalid
    refine Stored.requireValidSplit_iff.mpr ⟨hlen, Iff.trans ?_ hflag⟩
    by_cases hzero : p.overflow = 0
    · simp [hzero]
    · simp [hzero]
  have hsmall : (if p.overflow ≠ 0 then 1 else 0 : Nat) < 2 ^ 32 := by
    split
    · exact Nat.one_lt_two_pow (by decide)
    · exact Nat.two_pow_pos 32
  rw [encodeInteriorIndexCell, hvalid'] at h
  rcases Nat.lt_or_ge child (2 ^ 32) with hchild | hchild
  · rw [toBytes4_of_lt hchild, htotal, toBytes4_of_lt hsmall] at h
    cases h
  · rw [toBytes4, if_neg (Nat.not_lt.mpr hchild)] at h
    exact (Except.error.inj h).symm

/-- What an insertion into a leaf may raise: that page numbers have run out, that the entry
cannot be stored, or that an append cut is made around an entry that is not the last. -/
structure IndexInsertErrors (E : DbError → Prop) (values : List Value) (rowid : Int) (atEnd : Prop) :
    Prop where
  overflows : E tooBig
  encode : ∀ err, encodeIndexKey values rowid = .error err → E err
  tooLong : ∀ payload err, encodeIndexKey values rowid = .ok payload →
    checkUvarint payload.length = .error err → E err
  full : ∀ message, ¬ atEnd → E (.pageFull message)

theorem indexInsertErrors_any (values : List Value) (rowid : Int) (atEnd : Prop) :
    IndexInsertErrors (fun _ => True) values rowid atEnd :=
  ⟨trivial, fun _ _ => trivial, fun _ _ _ _ => trivial, fun _ _ => trivial⟩

/-- The append cut at a leaf is only made behind its entries. -/
def AppendsAtEndOf (c : Ctx Entry Entry 0) (l : Leaf Entry) (key : List Value) : Prop :=
  IndexBTree.AppendsAtEnd (l.items.map Entry.key) (entrySlot key l.items) key
    ((indexParentOf c l.id).all IndexBTree.Parent.isRightmost)

theorem encodeCandidate_error {payload : Bytes} {err : DbError}
    (h : encodeLeafIndexCell (placeholder .leafIndex payload) = .error err) :
    checkUvarint payload.length = .error err := by
  have htotal : (placeholder .leafIndex payload).total = payload.length := rfl
  have hsmall : (placeholder .leafIndex payload).overflow < 2 ^ 32 := by
    show (if spills .leafIndex payload then 1 else 0) < 2 ^ 32
    split
    · exact Nat.one_lt_two_pow (by decide)
    · exact Nat.two_pow_pos 32
  rw [encodeLeafIndexCell, Stored.valid_placeholder, htotal, toBytes4_of_lt hsmall] at h
  cases hcheck : checkUvarint payload.length with
  | ok u =>
      rw [hcheck] at h
      cases h
  | error err' =>
      rw [hcheck] at h
      obtain rfl : err' = err := Except.error.inj h
      rfl

theorem encodeCandidate_ok {payload : Bytes} {p : Payload}
    (h : encodeLeafIndexCell (placeholder .leafIndex payload) = .ok p) :
    checkUvarint payload.length = .ok () := by
  unfold encodeLeafIndexCell at h
  obtain ⟨_, -, h⟩ := Fallible.bind_eq_ok h
  obtain ⟨_, hcheck, -⟩ := Fallible.bind_eq_ok h
  exact hcheck

/-- The cell of a stored payload, whose length was checked. -/
theorem encodeReal_error {st : Stored .leafIndex} {err : DbError}
    (hcheck : checkUvarint st.data.length = .ok ())
    (h : encodeLeafIndexCell st.payload = .error err) : err = tooBig := by
  have htotal : st.payload.total = st.data.length := rfl
  rw [encodeLeafIndexCell, st.valid_payload, htotal, hcheck, toBytes4] at h
  split at h
  · cases h
  · exact (Except.error.inj h).symm

theorem splitLeaf_index {values : List Value} {rowid : Int}
    (hE : IndexInsertErrors E values rowid (AppendsAtEndOf c l (values ++ [.int rowid])))
    (ht : IndexStored s root others T) (hlost : LiveBut lost s (T.image ++ others))
    (hr : IndexReached (values ++ [.int rowid]) T c l)
    {payload : Bytes} (hencode : encodeIndexKey values rowid = .ok payload)
    (hfull : (PageBody.indexLeaf (l.items.map Entry.cell)).fits (placeholder .leafIndex payload).size =
      false) :
    Post (IndexBTree.splitLeaf l.id (entrySlot (values ++ [.int rowid]) l.items) c.path
      (values ++ [.int rowid]) payload) s
      (fun _ s' => IndexInsertedBut lost root others T (values ++ [.int rowid]) s')
      fun err _ => E err := by
  have hover := hE.overflows
  have hlive := ht.live
  have hmem : IndexTree.image (.leaf l) ⊆ T.image ++ others :=
    fun p hp => List.mem_append_left _ (hr.leaf_subset hp)
  rw [IndexBTree.splitLeaf, post_bind]
  refine Post.of_eq (readParent_index hlive fun p hp => List.mem_append_left _ (hr.ctx_subset hp)) ?_
  rw [post_bind]
  refine Post.of_eq (indexLeafCells_live hlive hmem) ?_
  rw [post_bind]
  refine Post.of_eq (decodeKeys_live (ht.readable.subset fun e he => ?_)) ?_
  · rw [hr.entries]
    exact List.mem_append_left _ (List.mem_append_right _ he)
  rw [post_bind, post_lift]
  refine ⟨fun candidate hcandidate => ?_,
    fun err herr => hE.tooLong _ _ hencode (encodeCandidate_error herr)⟩
  obtain ⟨rfl, -⟩ := encodeLeafIndexCell_ok hcandidate
  have hkeys : (l.items.map Entry.key).length = (l.items.map Entry.cell).length := by
    rw [List.length_map, List.length_map]
  obtain ⟨left, p, right, hchoose⟩ := chooseSplit_ok hkeys
    (ne_nil_of_full (placeholder_footprint_le payload) hfull)
  -- what the two checks reject only an append cut around an entry in the middle leaves
  have hcuts : ∀ message, ¬ (left ≠ [] ∧ IndexBTree.fitsOneLeafIndexPage left ∧
      IndexBTree.fitsOneLeafIndexPage right) → E (.pageFull message) := by
    refine fun message hbad => hE.full message fun hend => hbad ?_
    obtain ⟨left', p', right', hchoose', hleft, -, hleftFits, hrightFits⟩ := cutsWell hkeys
      (insertAt_caps payload _) (hlive.fits _ (hmem (List.mem_cons_self ..))) hfull hend
    rw [hchoose] at hchoose'
    obtain ⟨rfl, rfl, rfl⟩ : left = left' ∧ p = p' ∧ right = right' := by
      simpa using Except.ok.inj hchoose'
    exact ⟨hleft, hleftFits, hrightFits⟩
  obtain ⟨hcut, hright⟩ := chooseSplit_index hkeys hchoose
  rw [post_bind, hchoose, post_lift_ok]
  simp only
  rw [post_bind, post_raiseIf]
  refine ⟨fun hnil => hcuts _ fun h => h.1 hnil, fun hleft => ?_⟩
  rw [post_bind, post_raiseIf]
  refine ⟨fun hfit => hcuts _ fun h => hfit h.2, fun hfit => ?_⟩
  obtain ⟨hleftFits, hrightFits⟩ := not_not.mp hfit
  have hleftFits := of_decide_eq_true hleftFits
  have hrightFits := of_decide_eq_true hrightFits
  have hp : requireValidSplit .leafIndex p = .ok () ∧ checkUvarint p.total = .ok () := by
    have hmem : p ∈ BTree.insertAt (l.items.map Entry.cell)
        (entrySlot (values ++ [.int rowid]) l.items) (placeholder .leafIndex payload) := by
      rw [← hcut]
      exact List.mem_append_right _ (List.mem_cons_self ..)
    rcases mem_insertAt hmem with rfl | hmem
    · exact ⟨Stored.valid_placeholder payload, encodeCandidate_ok hcandidate⟩
    · obtain ⟨a, ha, rfl⟩ := List.mem_map.mp hmem
      have hpacks := ht.packs ((sublist_of_plug hr.plug).subset ha)
      exact ⟨a.stored.valid_payload, if_pos hpacks.total⟩
  rw [post_bind, post_lift]
  refine ⟨fun separator hseparator => ?_,
    fun err herr => encodeSeparator_error hp.1 hp.2 herr ▸ hover⟩
  obtain ⟨-, rfl⟩ := encodeInteriorIndexCell_ok hseparator
  have hsep := size_sizedSeparator l.id p
  have hslot : entrySlot (values ++ [.int rowid]) l.items ≤ (l.items.map Entry.cell).length := by
    rw [List.length_map]
    exact entrySlot_le _ _
  split
  · rw [post_bind]
    refine (spillPayload_post (.inr fun _ _ => hover) hlost).mono (fun stored s₁ hs₁ => ?_)
      fun _ _ he => he
    obtain ⟨st, hdata, rfl, htail, -, hlive₁⟩ := hs₁
    obtain ⟨e, hkey, rfl⟩ := exists_entry hencode st hdata
    rw [post_bind, post_lift]
    refine ⟨fun realCell hreal => ?_, fun err herr => encodeReal_error ?_ herr ▸ hover⟩
    · obtain ⟨rfl, hhead⟩ := encodeLeafIndexCell_ok hreal
      have hst := e.stored.chain_small hhead htail
      have hsize : (placeholder .leafIndex payload).size = e.cell.size :=
        hdata ▸ e.stored.size_placeholder
      exact writeReal_index hover ht hr hkey hst hslot hsize hcut hleft hright hleftFits hrightFits
        hsep hlive₁
    · rw [hdata]
      exact encodeCandidate_ok hcandidate
  · rename_i hspills
    rw [Bool.not_eq_true] at hspills
    obtain ⟨e, hkey, hstored⟩ := exists_entry hencode (Stored.unspilled payload hspills) rfl
    have hcell : e.cell = placeholder .leafIndex payload := by
      rw [Entry.cell, hstored, Stored.payload_unspilled]
    have himage : e.stored.image = [] := by rw [hstored]; rfl
    have hchain : e.stored.chain = [] := by rw [hstored]; rfl
    refine writeHalves_index hover ht hr hkey (fun i hi => ?_) (congrArg Payload.size hcell.symm) hcut
      (hcell ▸ hcut) rfl hleft hright hleftFits hrightFits hsep ?_
    · rw [hchain] at hi
      cases hi
    · rw [himage]
      exact hlost

theorem usedBytes_indexLeaf_insertAt (cells : List Payload) (i : Nat) (cell : Payload) :
    (PageBody.indexLeaf (BTree.insertAt cells i cell)).usedBytes =
      (PageBody.indexLeaf cells).usedBytes + (cell.size + 2) := by
  simp only [PageBody.usedBytes, PageBody.headerSize, PageBody.cellSizes]
  rw [← insertAt_map, length_insertAt, sum_insertAt]
  omega

/-- The leaf has room for the entry. -/
theorem insertLeaf_index (hover : E tooBig) (ht : IndexStored s root others T)
    (hr : IndexReached k T c l)
    (hkey : e.key = k) (hst : ∀ i ∈ e.stored.chain, i < 2 ^ 32)
    {candidate : Payload} (hsize : candidate.size = e.cell.size)
    (hfits : (PageBody.indexLeaf (l.items.map Entry.cell)).fits candidate.size = true)
    (hlive : LiveBut lost s' (e.stored.image ++ (T.image ++ others))) :
    Post (writeBody l.id (.indexLeaf (BTree.insertAt (l.items.map Entry.cell)
      (entrySlot k l.items) e.cell))) s' (fun _ s'' => IndexInsertedBut lost root others T k s'')
      fun err _ => E err := by
  rw [← List.append_assoc] at hlive
  have hpages := hlive.perm (hr.image_insert.append_right others)
  have hused := usedBytes_indexLeaf_insertAt (l.items.map Entry.cell) (entrySlot k l.items) e.cell
  rw [insertAt_map] at hused ⊢
  refine (writeBody_post (fun _ => hover) hpages fun hlt => ?_).mono
    (fun _ s'' hs'' => inserted_leaf ht hr hkey hst hs''.1) fun _ _ he => he
  rw [PageBody.fits, decide_eq_true_eq, hsize] at hfits
  omega

/-- `IndexBTree.insert` at the leaf that the descent finds. -/
theorem insert_index_at {values : List Value} {rowid : Int}
    (hE : IndexInsertErrors E values rowid (AppendsAtEndOf c l (values ++ [.int rowid])))
    (ht : IndexStored s root others T) (hlost : LiveBut lost s (T.image ++ others))
    (hr : IndexReached (values ++ [.int rowid]) T c l)
    (hfind : IndexBTree.findLeaf root (values ++ [.int rowid]) s =
      (.ok ((l.id, entrySlot (values ++ [.int rowid]) l.items) :: c.path), s)) :
    Post (IndexBTree.insert root values rowid) s
      (fun _ s' => IndexInsertedBut lost root others T (values ++ [.int rowid]) s')
      fun err _ => E err := by
  have hlive := ht.live
  rw [IndexBTree.insert, post_bind, post_lift]
  refine ⟨fun payload hencode => ?_, hE.encode⟩
  rw [post_bind]
  refine Post.of_eq hfind ?_
  simp only
  rw [post_bind]
  refine Post.of_eq (indexLeafCells_live hlive fun p hp => List.mem_append_left _ (hr.leaf_subset hp)) ?_
  rw [post_bind, post_lift]
  refine ⟨fun candidate hcandidate => ?_,
    fun err herr => hE.tooLong _ _ hencode (encodeCandidate_error herr)⟩
  have hcheck := encodeCandidate_ok hcandidate
  obtain ⟨rfl, -⟩ := encodeLeafIndexCell_ok hcandidate
  split
  · rename_i hfits
    rw [post_bind]
    refine (spillPayload_post (.inr fun _ _ => hE.overflows) hlost).mono (fun stored s₁ hs₁ => ?_)
      fun _ _ he => he
    obtain ⟨st, hdata, rfl, htail, -, hlive₁⟩ := hs₁
    obtain ⟨e, hkey, rfl⟩ := exists_entry hencode st hdata
    rw [post_bind, post_lift]
    refine ⟨fun realCell hreal => ?_,
      fun err herr => encodeReal_error (hdata ▸ hcheck) herr ▸ hE.overflows⟩
    obtain ⟨rfl, hhead⟩ := encodeLeafIndexCell_ok hreal
    exact insertLeaf_index hE.overflows ht hr hkey (e.stored.chain_small hhead htail)
      (hdata ▸ e.stored.size_placeholder) hfits hlive₁
  · rename_i hfull
    exact splitLeaf_index hE ht hlost hr hencode (Bool.not_eq_true _ ▸ hfull)

/-- `IndexBTree.insert`: when it returns, the entry stands between the entries that
are before it and those that are not. -/
theorem insert_index_but (ht : IndexStored s root others T)
    (hlost : LiveBut lost s (T.image ++ others)) (values : List Value) (rowid : Int) :
    Post (IndexBTree.insert root values rowid) s
      (fun _ s' => IndexInsertedBut lost root others T (values ++ [.int rowid]) s') fun _ _ => True := by
  obtain ⟨c, l, hr, hfind⟩ := findLeaf_index (values ++ [.int rowid]) ht
  exact insert_index_at (indexInsertErrors_any values rowid _) ht hlost hr hfind

theorem insert_index (ht : IndexStored s root others T) (values : List Value) (rowid : Int) :
    Post (IndexBTree.insert root values rowid) s
      (fun _ s' => IndexInserted root others T (values ++ [.int rowid]) s') fun _ _ => True := by
  obtain ⟨lost, hlost⟩ := ht.live.exists_lost
  exact (insert_index_but ht hlost values rowid).mono (fun _ _ h => h.inserted) fun _ _ he => he

end Insert

end QuillDb
