/-
  BTree/TableDelete.lean --- deletion from a table tree.

  Source: `BTree.delete` of `quilldb/btree/btree.py`.

  A deletion never raises: the pages it writes shrink, and the numbers of the
  pages it frees fit the freelist, since a pointer held them.
-/
import QuillDb.BTree.TableInsert
import Mathlib.Algebra.Order.BigOperators.Group.List

set_option autoImplicit false

namespace QuillDb

open Prog PageStore PageTree

/-! ## Pages that shrink -/

/-- The bytes of a node, from its separators. -/
theorem TreeFormat.nodeBytes_eq {α δ κ : Type} (F : TreeFormat α δ κ) (n : Node δ Nat) :
    F.nodeBytes n = (n.dividers.map fun d => 4 + F.keySize (F.key d) + 2).sum := by
  rw [TreeFormat.nodeBytes, Node.dividers, List.map_map, List.map_map]
  rfl

theorem sum_le_of_sublist {xs ys : List Nat} (h : xs.Sublist ys) : xs.sum ≤ ys.sum :=
  h.sum_le_sum fun _ _ => Nat.zero_le _

theorem usedBytes_eraseIdx_le (cells : List TableLeafCell) (i : Nat) :
    (PageBody.tableLeaf (cells.eraseIdx i)).usedBytes ≤ (PageBody.tableLeaf cells).usedBytes := by
  have hsub : (cells.eraseIdx i).Sublist cells := List.eraseIdx_sublist cells i
  have hsum := sum_le_of_sublist (hsub.map TableLeafCell.size)
  have hlen := (hsub.map TableLeafCell.size).length_le
  simp only [PageBody.usedBytes, PageBody.headerSize, PageBody.cellSizes]
  omega

/-! ## Unlinking a child -/

section Unlink

variable {h : Nat} {lost : Residue} {s : PageStore} {others : Image} {E : DbError → PageStore → Prop}

/-- What `delete` does to the cells is closing the hole. -/
theorem removeChild_close (f : Frame Int Nat) (hole : Nat) :
    BTree.removeChild ((f.fill hole).kids.map tableFormat.cell) (f.fill hole).last f.pre.length =
      match f.close with
      | some n => (n.kids.map tableFormat.cell, n.last)
      | none => ([], 0) := by
  have hlen : ((f.fill hole).kids.map tableFormat.cell).length = f.pre.length + f.post.length := by
    rw [List.length_map, f.fill_kids_length]
  unfold BTree.removeChild
  rw [hlen, Frame.close]
  rcases hpost : f.post with _ | ⟨⟨d, y⟩, post⟩
  · rw [if_neg (by rw [List.length_nil]; omega)]
    have hkids : (f.fill hole).kids = f.pre := by
      rw [Frame.fill, hpost, linkPost, List.append_nil]
    rw [hkids, List.getLast?_map]
    rcases hlast : f.pre.getLast? with _ | ⟨y, d⟩
    · rfl
    · simp only [Option.map_some, List.map_dropLast]
      rfl
  · rw [if_pos (by rw [List.length_cons]; omega)]
    have hkids : (f.fill hole).kids = f.pre ++ (hole, d) :: (linkPost y post).1 := by
      rw [Frame.fill, hpost, linkPost]
    have hlast : (f.fill hole).last = (linkPost y post).2 := by
      rw [Frame.fill, hpost, linkPost]
    have herase : (f.pre ++ (hole, d) :: (linkPost y post).1).eraseIdx f.pre.length =
        f.pre ++ (linkPost y post).1 := by
      rw [List.eraseIdx_append_of_length_le (Nat.le_refl _), Nat.sub_self]
      rfl
    rw [hkids, hlast, List.eraseIdx_map, herase]

/-- What unlinking the page in a hole leaves: an empty leaf, if nothing else was
below the root, or a tree that lists what was around the hole. -/
inductive Unlinked (c : Ctx Row Int h) {H : Nat} (T : TableTree H) : Prop where
  | emptied (height : H = 0)
      (walk : ∀ (β : Type) (f : List Row → List β) (g : Int → List β), T.walk f g = f [])
      (around : ∀ (β : Type) (f : List Row → List β) (g : Int → List β),
        (∀ d, g d = []) → c.before f g ++ c.after f g = [])
  | closed
      (walk : ∀ (β : Type) (f : List Row → List β) (g : Int → List β),
        (T.walk f g).Sublist (c.before f g ++ c.after f g) ∧
          ((∀ d, g d = []) → T.walk f g = c.before f g ++ c.after f g))

/-- An only child leaves nothing around it. -/
theorem Unlinked.outside {f : Frame Int (TableTree h)} {up : Ctx Row Int (h + 1)} {H : Nat}
    {T : TableTree H} (haround : ∀ (β : Type) (k : TableTree h → List β) (g : Int → List β),
      f.before k g = [] ∧ f.after k g = []) (hT : Unlinked up T) : Unlinked (.inside f up) T := by
  have hsame : ∀ (β : Type) (k : List Row → List β) (g : Int → List β),
      (Ctx.inside f up).before k g ++ (Ctx.inside f up).after k g = up.before k g ++ up.after k g := by
    intro β k g
    rw [Ctx.before, Ctx.after, (haround _ _ _).1, (haround _ _ _).2, List.append_nil, List.nil_append]
  cases hT with
  | emptied height walk around =>
      exact .emptied height walk fun β k g hg => (hsame β k g).trans (around β k g hg)
  | closed walk =>
      refine .closed fun β k g => ?_
      rw [hsame]
      exact walk β k g

theorem interiorCells_live {img : Image} {id : Nat} {cells : List (InteriorCell Int)} {right : Nat}
    (hlive : Live s img) (hmem : (id, .body (.tableInterior cells right)) ∈ img) :
    interiorCells id s = (.ok (cells, right), s) := by
  rw [interiorCells, bind_of_ok (readBody_live hlive hmem)]
  rfl

/-- The pages of a node whose hole has closed. -/
theorem image_close {f : Frame Int (TableTree h)} {n : Node Int (TableTree h)}
    (hclose : f.close = some n) :
    n.flatten tableFormat.image tableFormat.dividerExtra =
      f.before tableFormat.image tableFormat.dividerExtra ++
        f.after tableFormat.image tableFormat.dividerExtra := by
  obtain ⟨-, -, d, hparts⟩ := Frame.close_some hclose
  obtain ⟨xs, ys, haround, hflat⟩ := hparts _ tableFormat.image tableFormat.dividerExtra
  rw [haround, hflat]
  rfl

theorem usedBytes_close_le {f : Frame Int (TableTree h)} {n : Node Int (TableTree h)}
    (hclose : f.close = some n) (hole : Nat) :
    (tableFormat.nodeBody (n.map LevelTree.id)).usedBytes ≤
      (tableFormat.nodeBody ((f.map LevelTree.id).fill hole)).usedBytes := by
  obtain ⟨-, hdividers, -⟩ := Frame.close_some hclose
  have hn : (n.map LevelTree.id).dividers = n.dividers := by
    rw [Node.dividers, Node.map, List.map_map]
    rfl
  have hf : ((f.map LevelTree.id).fill hole).dividers = f.pre.map Prod.snd ++ f.post.map Prod.fst := by
    rw [Frame.fill_dividers, Frame.map, List.map_map, List.map_map]
    rfl
  rw [TreeFormat.usedBytes_nodeBody, TreeFormat.usedBytes_nodeBody, TreeFormat.nodeBytes_eq,
    TreeFormat.nodeBytes_eq, hn, hf]
  exact Nat.add_le_add_left (sum_le_of_sublist (hdividers.map _)) _

theorem unlinked_close {f : Frame Int (TableTree h)} {up : Ctx Row Int (h + 1)}
    {n : Node Int (TableTree h)} (hclose : f.close = some n) :
    Unlinked (.inside f up) (up.plug (.node n)).2 := by
  obtain ⟨-, -, d, hparts⟩ := Frame.close_some hclose
  refine .closed fun β k g => ?_
  obtain ⟨xs, ys, haround, hflat⟩ := hparts _ (LevelTree.walk k g) g
  have hwalk : (up.plug (.node n)).2.walk k g = up.before k g ++ (xs ++ ys) ++ up.after k g := by
    rw [up.walk_plug, LevelTree.walk_node, hflat]
  have hsplit : (Ctx.inside f up).before k g ++ (Ctx.inside f up).after k g =
      up.before k g ++ (xs ++ (g d ++ ys)) ++ up.after k g := by
    rw [← haround]
    simp only [Ctx.before, Ctx.after, List.append_assoc]
  rw [hwalk, hsplit]
  refine ⟨?_, fun hg => ?_⟩
  · exact (((List.sublist_append_right _ _).append_left _).append_left _).append_right _
  · rw [hg d, List.nil_append]

/-- The tree without the page in the hole, nor the pages above it that had no other
child. -/
def unlink : {h : Nat} → Ctx Row Int h → Nat → (H : Nat) × TableTree H
  | _, .root, hole => ⟨0, .leaf ⟨hole, []⟩⟩
  | _, .inside f up, _ =>
      match f.close with
      | some n => up.plug (.node n)
      | none => unlink up f.id

theorem unlink_closed {f : Frame Int (TableTree h)} {up : Ctx Row Int (h + 1)}
    {n : Node Int (TableTree h)} (hclose : f.close = some n) (hole : Nat) :
    unlink (.inside f up) hole = up.plug (.node n) := by
  rw [unlink, hclose]

theorem unlink_only {f : Frame Int (TableTree h)} {up : Ctx Row Int (h + 1)} (hclose : f.close = none)
    (hole : Nat) : unlink (.inside f up) hole = unlink up f.id := by
  rw [unlink, hclose]

theorem around_only {f : Frame Int (TableTree h)} (hclose : f.close = none) (β : Type)
    (k : TableTree h → List β) (g : Int → List β) : f.before k g = [] ∧ f.after k g = [] := by
  obtain ⟨hpre, hpost⟩ := Frame.close_none hclose
  rw [Frame.before, Frame.after, hpre, hpost]
  exact ⟨rfl, rfl⟩

theorem unlinked_unlink (c : Ctx Row Int h) (hne : c.path ≠ []) (hole : Nat) :
    Unlinked c (unlink c hole).2 := by
  induction c generalizing hole with
  | root => exact absurd rfl hne
  | inside f up ih =>
      rcases hclose : f.close with _ | n
      · rw [unlink_only hclose]
        cases up with
        | root =>
            refine .emptied rfl (fun _ _ _ => rfl) fun β k g _ => ?_
            rw [Ctx.before, Ctx.after, (around_only hclose _ _ _).1, (around_only hclose _ _ _).2]
            rfl
        | inside f' up' => exact (ih (List.cons_ne_nil _ _) f.id).outside (around_only hclose)
      · rw [unlink_closed hclose]
        exact unlinked_close hclose

theorem unlinkChild_post (c : Ctx Row Int h) {hole : Nat} {content : PageContent}
    (hne : c.path ≠ []) (hsmall : Small (c.image tableFormat.layout hole)) (hhole : hole < 2 ^ 32)
    (hlive : LiveBut lost s ((hole, content) :: (c.image tableFormat.layout hole ++ others))) :
    Post (BTree.unlinkChild c.path hole) s (fun _ s' => (unlink c hole).2.id = c.rootId hole ∧
      Small (unlink c hole).2.image ∧ LiveBut lost s' ((unlink c hole).2.image ++ others)) E := by
  induction c generalizing s hole content with
  | root => exact absurd rfl hne
  | inside f up ih =>
      have hpage : (f.id, PageContent.body (tableFormat.nodeBody ((f.map LevelTree.id).fill hole))) ∈
          (hole, content) :: (Ctx.image tableFormat.layout (.inside f up) hole ++ others) :=
        List.mem_cons_of_mem _ (List.mem_append_left _ (List.mem_append_left _ (List.mem_cons_self ..)))
      have hslot : f.pre.length = (f.map LevelTree.id).pre.length := by
        rw [Frame.map, List.length_map]
      rw [Ctx.path, BTree.unlinkChild, post_bind]
      refine Post.of_eq (interiorCells_live hlive.live hpage) ?_
      simp only
      rw [hslot, removeChild_close, Frame.close_map]
      rcases hclose : f.close with _ | n
      · -- an only child: its parent goes as well
        have haround := around_only hclose
        rw [unlink_only hclose]
        simp only [Option.map_none, and_true]
        have hctx : Ctx.image tableFormat.layout (.inside f up) hole =
            (f.id, .body (tableFormat.nodeBody ((f.map LevelTree.id).fill hole))) ::
              up.image tableFormat.layout f.id := by
          rw [Ctx.image, Ctx.frameImage, (haround _ _ _).1, (haround _ _ _).2]
          rfl
        rw [hctx] at hlive hsmall
        have hparent : f.id < 2 ^ 32 := hsmall _ (List.mem_cons_self ..)
        cases up with
        | root =>
            rw [if_pos Ctx.path_root]
            refine writeBody_freePage_post hlive hhole (by decide) (by decide) fun s₂ h₂ => ?_
            rw [if_pos (.inl Ctx.path_root)]
            refine ⟨rfl, fun i hi => ?_, h₂⟩
            rw [List.mem_singleton.mp hi]
            exact hparent
        | inside f' up' =>
            have habove : (Ctx.inside f' up').path ≠ [] := List.cons_ne_nil _ _
            rw [if_neg habove]
            refine writeBody_freePage_post hlive hhole (by decide) (by decide) fun s₂ h₂ => ?_
            rw [if_neg (fun hor => hor.elim habove fun hnot => hnot trivial)]
            exact ih habove (fun i hi => hsmall i (List.mem_cons_of_mem _ hi)) hparent h₂
      · obtain ⟨hid, -, -⟩ := Frame.close_some hclose
        rw [unlink_closed hclose]
        simp only [Option.map_some]
        have hlast : n.last.id ∈ (f.before tableFormat.image tableFormat.dividerExtra ++
            f.after tableFormat.image tableFormat.dividerExtra).map Prod.fst := by
          rw [← image_close hclose, Node.flatten, List.map_append]
          exact List.mem_append_right _ (n.last.id_mem_image tableFormat.layout)
        have hctx : Ctx.image tableFormat.layout (.inside f up) hole =
            (f.id, .body (tableFormat.nodeBody ((f.map LevelTree.id).fill hole))) ::
              (n.flatten tableFormat.image tableFormat.dividerExtra ++
                up.image tableFormat.layout f.id) := by
          rw [image_close hclose]
          rfl
        have hpos : (n.map LevelTree.id).last ≠ 0 := by
          intro hzero
          rw [← image_close hclose] at hlast
          have hmem : n.last.id ∈ ((hole, content) ::
              (Ctx.image tableFormat.layout (.inside f up) hole ++ others)).map Prod.fst := by
            rw [hctx]
            simp only [List.map_cons, List.map_append, List.mem_cons, List.mem_append] at hlast ⊢
            tauto
          have := hlive.mem_range hmem
          have hzero : n.last.id = 0 := hzero
          omega
        rw [hctx] at hlive hsmall
        have hfits := usedBytes_close_le hclose hole
        have hold := hlive.fits _ (List.mem_cons_of_mem _ (List.mem_cons_self ..))
        have hold : (tableFormat.nodeBody ((f.map LevelTree.id).fill hole)).usedBytes ≤ pageSize := hold
        -- the pointers that are left were there before
        have hright : n.last.id < 2 ^ 32 := by
          refine hsmall n.last.id (List.mem_cons_of_mem _ ?_)
          rw [List.map_append, image_close hclose]
          exact List.mem_append_left _ hlast
        rw [if_neg (fun hand => hpos hand.2.2)]
        refine writeBody_freePage_post hlive hhole hright (hfits.trans hold) fun s₂ h₂ => ?_
        rw [if_pos (.inr fun hand => hpos hand.2)]
        have himage : (TableTree.image (up.plug (.node n)).2).Perm
            (up.image tableFormat.layout n.id ++
              (n.id, .body (tableFormat.nodeBody (n.map LevelTree.id))) ::
                n.flatten tableFormat.image tableFormat.dividerExtra) := tableFormat.image_plug_node up n
        refine ⟨?_, fun i hi => ?_, h₂.perm ?_⟩
        · rw [up.id_plug, LevelTree.id_node, hid]
          rfl
        · refine hsmall i ?_
          have hi := (himage.map Prod.fst).mem_iff.mp hi
          rw [hid] at hi
          simp only [List.map_append, List.map_cons, List.mem_append, List.mem_cons] at hi ⊢
          tauto
        · refine List.Perm.trans ?_ (himage.append_right others).symm
          rw [hid, List.perm_iff_count]
          intro p
          have hbody : tableFormat.nodeBody (n.map LevelTree.id) =
            .tableInterior ((n.map LevelTree.id).kids.map tableFormat.cell) (n.map LevelTree.id).last := rfl
          rw [hbody]
          simp only [List.append_eq, List.count_append, List.count_cons]
          omega

end Unlink

/-! ## `delete` -/

section Delete

variable {lost : Residue} {s s' : PageStore} {root : Nat} {others : Image} {H : Nat} {T : TableTree H}
variable {k : Int}
variable {c : Ctx Row Int 0} {l : Leaf Row} {E : DbError → PageStore → Prop}

/-- A deletion that returned: `false` if no row had that rowid. -/
def Deleted (s : PageStore) (root : Nat) (others : Image) (T : TableTree H) (k : Int) (found : Bool)
    (s' : PageStore) : Prop :=
  (found = false ∧ s' = s ∧ ∀ r ∈ T.items, r.rowid ≠ k) ∨
  (found = true ∧ ∃ (H' : Nat) (T' : TableTree H') (xs ys : List Row) (r : Row),
    TableAt s' root others T' ∧ T.items = xs ++ r :: ys ∧ r.rowid = k ∧ T'.items = xs ++ ys)

/-- A deletion that returned, and lost no page. -/
def DeletedBut (lost : Residue) (s : PageStore) (root : Nat) (others : Image) (T : TableTree H)
    (k : Int) (found : Bool) (s' : PageStore) : Prop :=
  (found = false ∧ s' = s ∧ ∀ r ∈ T.items, r.rowid ≠ k) ∨
  (found = true ∧ ∃ (H' : Nat) (T' : TableTree H') (xs ys : List Row) (r : Row),
    TableAtBut lost s' root others T' ∧ T.items = xs ++ r :: ys ∧ r.rowid = k ∧ T'.items = xs ++ ys)

theorem DeletedBut.deleted {found : Bool} (h : DeletedBut lost s root others T k found s') :
    Deleted s root others T k found s' := by
  refine h.imp_right ?_
  rintro ⟨hfound, H', T', xs, ys, r, hT', hrest⟩
  exact ⟨hfound, H', T', xs, ys, r, hT'.toTableAt, hrest⟩

theorem Reached.not_mem (hr : Reached k T c l) (hasc : Ascending T.inorder)
    (habsent : Absent k l.items) : ∀ r ∈ T.items, r.rowid ≠ k := by
  intro r hmem
  obtain ⟨-, htake, -⟩ := hr.slot hasc
  rw [hr.items, ← List.take_append_drop (leafSlot k l.items) l.items] at hmem
  rcases List.mem_append.mp hmem with hmem | hmem
  · rcases List.mem_append.mp hmem with hmem | hmem
    · exact ne_of_lt (hr.itemsBefore_lt r hmem)
    · rcases List.mem_append.mp hmem with hmem | hmem
      · exact ne_of_lt (htake r hmem)
      · exact ne_of_gt (hr.lt_drop hasc habsent r hmem)
  · exact ne_of_gt (hr.lt_itemsAfter hasc r hmem)

/-- The leaf without its row. -/
theorem eraseRow_spec {rows : List Row} {i : Nat} {r : Row} (h : rows[i]? = some r) :
    rows = rows.take i ++ r :: rows.drop (i + 1) ∧
      rows.eraseIdx i = rows.take i ++ rows.drop (i + 1) := by
  obtain ⟨hi, rfl⟩ := List.getElem?_eq_some_iff.mp h
  refine ⟨?_, List.eraseIdx_eq_take_drop_succ ..⟩
  rw [List.getElem_cons_drop, List.take_append_drop]

/-- The tree without the emptied leaf. -/
theorem Unlinked.tableAt {H' : Nat} {T' : TableTree H'} {ys : List (Row ⊕ Int)} (hT' : Unlinked c T')
    (hroot : T'.id = root) (hasc : Ascending (c.inorderBefore ++ ys ++ c.inorderAfter))
    (hfilled : ∀ x ∈ c.before (fun rows => [rows]) (fun _ => []) ++
      c.after (fun rows => [rows]) (fun _ => []), x ≠ [])
    (hsmall : Small T'.image) (hlive : LiveBut lost s' (T'.image ++ others)) :
    TableAtBut lost s' root others T' := by
  cases hT' with
  | emptied height walk around =>
      refine ⟨⟨hroot, ?_, .inl height, hsmall, hlive.live⟩, hlive⟩
      rw [LevelTree.inorder, walk]
      exact List.Pairwise.nil
  | closed walk =>
      refine ⟨⟨hroot, ?_, .inr fun x hx => ?_, hsmall, hlive.live⟩, hlive⟩
      · refine hasc.sublist ((walk _ _ _).1.trans ?_)
        exact (List.sublist_append_left _ _).append_right _
      · rw [LevelTree.leaves, (walk _ _ _).2 fun _ => rfl] at hx
        exact hfilled x hx

/-- The tree without the row at slot `i` of a leaf. -/
def removeRow (c : Ctx Row Int 0) (l : Leaf Row) (i : Nat) : (H : Nat) × TableTree H :=
  if (l.items.eraseIdx i).isEmpty ∧ c.path ≠ [] then unlink c l.id
  else c.plug (.leaf ⟨l.id, l.items.eraseIdx i⟩)

theorem removeRow_unlinked {i : Nat} (hempty : l.items.eraseIdx i = []) (hpath : c.path ≠ []) :
    removeRow c l i = unlink c l.id :=
  if_pos ⟨List.isEmpty_iff.mpr hempty, hpath⟩

theorem removeRow_kept {i : Nat} (h : l.items.eraseIdx i ≠ [] ∨ c.path = []) :
    removeRow c l i = c.plug (.leaf ⟨l.id, l.items.eraseIdx i⟩) := by
  refine if_neg fun hboth => ?_
  rcases h with h | h
  · exact h (List.isEmpty_iff.mp hboth.1)
  · exact hboth.2 h

/-- What the leaves hold without the row. -/
theorem items_removeRow (c : Ctx Row Int 0) (l : Leaf Row) (i : Nat) :
    (removeRow c l i).2.items = c.itemsBefore ++ l.items.eraseIdx i ++ c.itemsAfter := by
  by_cases hempty : l.items.eraseIdx i = []
  · by_cases hpath : c.path = []
    · rw [removeRow_kept (.inr hpath), items_plug]
      rfl
    · rw [removeRow_unlinked hempty hpath, hempty, List.append_nil]
      cases unlinked_unlink c hpath l.id with
      | emptied height walk around => exact (walk _ _ _).trans (around _ _ _ fun _ => rfl).symm
      | closed walk => exact (walk _ _ _).2 fun _ => rfl
  · rw [removeRow_kept (.inl hempty), items_plug]
    rfl

theorem mem_items_removeRow (hr : Reached k T c l) {i : Nat} {row : Row}
    (hrow : row ∈ (removeRow c l i).2.items) : row ∈ T.items := by
  rw [items_removeRow] at hrow
  rw [hr.items]
  rcases List.mem_append.mp hrow with hrow | hrow
  · rcases List.mem_append.mp hrow with hrow | hrow
    · exact List.mem_append_left _ (List.mem_append_left _ hrow)
    · exact List.mem_append_left _ (List.mem_append_right _ (List.mem_of_mem_eraseIdx hrow))
  · exact List.mem_append_right _ hrow

/-- The leaf does not hold the rowid. -/
theorem delete_absent (ht : TableAt s root others T) (hr : Reached k T c l)
    (hfind : BTree.findLeaf root k s = (.ok ((l.id, leafSlot k l.items) :: c.path), s))
    (habsent : Absent k l.items) : BTree.delete root k s = (.ok false, s) := by
  have hleaf := leafCells_live ht.live fun p hp => List.mem_append_left _ (hr.leaf_subset hp)
  rw [BTree.delete, bind_of_ok hfind]
  simp only
  rw [bind_of_ok hleaf, List.getElem?_map]
  rcases hfound : l.items[leafSlot k l.items]? with _ | row
  · rfl
  · simp only [Option.map_some]
    have hne : row.cell.rowid ≠ k := habsent row hfound
    rw [if_pos hne]
    rfl

/-- The row leaves its leaf, and an emptied leaf the tree; the overflow pages of the
row are free then. -/
theorem delete_found (ht : TableAtBut lost s root others T) (hr : Reached k T c l)
    (hfind : BTree.findLeaf root k s = (.ok ((l.id, leafSlot k l.items) :: c.path), s)) {row : Row}
    (hfound : l.items[leafSlot k l.items]? = some row) (hrow : row.rowid = k) :
    Post (BTree.delete root k) s (fun found s' => found = true ∧
      TableAtBut lost s' root others (removeRow c l (leafSlot k l.items)).2 ∧
        (l.items.eraseIdx (leafSlot k l.items) ≠ [] →
          s'.freelistCount = s.freelistCount + row.stored.chain.length)) E := by
  have hlive := ht.live
  obtain ⟨hcut, herase⟩ := eraseRow_spec hfound
  rw [BTree.delete, post_bind]
  refine Post.of_eq hfind ?_
  simp only
  rw [post_bind]
  refine Post.of_eq (leafCells_live hlive fun p hp => List.mem_append_left _ (hr.leaf_subset hp)) ?_
  rw [List.getElem?_map, hfound]
  simp only [Option.map_some]
  have hcell : ¬ row.cell.rowid ≠ k := not_not.mpr hrow
  rw [if_neg hcell]
  have hmap : (l.items.map Row.cell).eraseIdx (leafSlot k l.items) =
      (l.items.eraseIdx (leafSlot k l.items)).map Row.cell := List.eraseIdx_map ..
  have hpages : (T.image ++ others).Perm ((l.id, .body (.tableLeaf (l.items.map Row.cell))) ::
      (row.stored.image ++ ((l.items.eraseIdx (leafSlot k l.items)).flatMap tableFormat.leafExtra ++
        (c.image tableFormat.layout l.id ++ others)))) := by
    have hleaf : TableTree.image (.leaf l) = (l.id, .body (.tableLeaf (l.items.map Row.cell))) ::
        l.items.flatMap tableFormat.leafExtra := rfl
    have hextra : l.items.flatMap tableFormat.leafExtra =
        (l.items.take (leafSlot k l.items)).flatMap tableFormat.leafExtra ++
          (row.stored.image ++
            (l.items.drop (leafSlot k l.items + 1)).flatMap tableFormat.leafExtra) := by
      nth_rewrite 1 [hcut]
      rw [List.flatMap_append, List.flatMap_cons]
      rfl
    refine (hr.image.append_right others).trans ?_
    rw [hleaf, hextra, herase, List.flatMap_append, List.perm_iff_count]
    intro p
    simp only [List.count_append, List.count_cons]
    omega
  have hfit : (PageBody.tableLeaf ((l.items.map Row.cell).eraseIdx (leafSlot k l.items))).usedBytes ≤
      pageSize :=
    (usedBytes_eraseIdx_le _ _).trans (hlive.fits _ (hpages.mem_iff.mpr (List.mem_cons_self ..)))
  have hasc := ht.ascending
  rw [hr.inorder] at hasc
  rw [post_bind]
  refine ((writeBody_post (fun hbig => ?_) (ht.kept.perm hpages) fun hlt => absurd hfit
    (Nat.not_le.mpr hlt)).and (writeBody_count _ _)).mono (fun _ s₁ h₁ => ?_) fun _ _ he => he.1
  · have hbig : 2 ^ 32 ≤ 0 := hbig
    omega
  obtain ⟨⟨h₁, -⟩, hcount₁⟩ := h₁
  rw [hmap] at h₁
  have hdata : row.cell.payload = row.stored.payload := rfl
  rw [hdata, hmap]
  refine Post.guard (freeStored_counted row.stored (h₁.perm List.perm_middle.symm)
    (hr.chain_small ht.toTableAt row (List.mem_of_getElem? hfound))) fun _ s₂ h₂ => ?_
  obtain ⟨h₂, hcount₂⟩ := h₂
  split
  · -- the leaf is empty and not the root
    rename_i hunlink
    obtain ⟨hempty, hnotRoot⟩ := hunlink
    have hnil := List.map_eq_nil_iff.mp hempty
    have hpath : c.path ≠ [] := fun hpath => hnotRoot ((hr.isRoot ht.toTableAt).mpr hpath)
    rw [hnil] at h₂
    rw [post_bind]
    have hids := hr.image.map Prod.fst
    refine (unlinkChild_post c hpath (fun i hi => ?_) ?_ h₂).mono (fun _ s₃ h₃ => ?_) fun _ _ he => he
    · refine ht.small i (hids.mem_iff.mpr ?_)
      rw [List.map_append]
      exact List.mem_append_left _ hi
    · refine ht.small l.id (hids.mem_iff.mpr ?_)
      rw [List.map_append]
      exact List.mem_append_right _ (List.mem_cons_self ..)
    · obtain ⟨hid, hsmall, hlive'⟩ := h₃
      rw [removeRow_unlinked hnil hpath]
      refine ⟨rfl, (unlinked_unlink c hpath l.id).tableAt ?_ hasc (hr.siblings_filled ht.toTableAt)
        hsmall hlive', fun hne => absurd hnil hne⟩
      rw [hid, ← hr.id, ht.root]
  · rename_i hkeep
    have hkept : l.items.eraseIdx (leafSlot k l.items) ≠ [] ∨ c.path = [] := by
      rw [← hr.isRoot ht.toTableAt]
      by_contra hboth
      obtain ⟨hnil, hroot⟩ := not_or.mp hboth
      exact hkeep ⟨by rw [not_not.mp hnil, List.map_nil], hroot⟩
    rw [removeRow_kept hkept]
    refine ⟨rfl, TableAt.of_leaf ht.toTableAt hr (hasc.sublist ?_) hkept
      (fun r hr' => hr.chain_small ht.toTableAt r (List.mem_of_mem_eraseIdx hr')) h₂, fun _ => ?_⟩
    · exact (((List.eraseIdx_sublist _ _).map _).append_left _).append_right _
    · rw [hcount₂, hcount₁]

/-- `BTree.delete` returns whether the rowid was there, and takes its row out. -/
theorem delete_post_but (ht : TableAtBut lost s root others T) (k : Int) :
    Post (BTree.delete root k) s (fun found s' => DeletedBut lost s root others T k found s') E := by
  obtain ⟨c, l, hr, hfind⟩ := findLeaf_spec ht.toTableAt k
  rcases Classical.em (Absent k l.items) with habsent | hpresent
  · refine Post.of_eq (delete_absent ht.toTableAt hr hfind habsent) (.inl ⟨rfl, rfl, ?_⟩)
    exact hr.not_mem ht.ascending habsent
  · obtain ⟨row, hfound, hrow⟩ := exists_of_not_absent hpresent
    obtain ⟨hcut, herase⟩ := eraseRow_spec hfound
    refine (delete_found ht hr hfind hfound hrow).mono (fun found s' hs' => .inr ⟨hs'.1, _, _,
      c.itemsBefore ++ l.items.take (leafSlot k l.items),
      l.items.drop (leafSlot k l.items + 1) ++ c.itemsAfter, row, hs'.2.1, ?_, hrow, ?_⟩)
      fun _ _ he => he
    · rw [hr.items]
      nth_rewrite 1 [hcut]
      simp only [List.append_assoc, List.cons_append]
    · rw [items_removeRow, herase]
      simp only [List.append_assoc]

theorem delete_post (ht : TableAt s root others T) (k : Int) :
    Post (BTree.delete root k) s (fun found s' => Deleted s root others T k found s') E := by
  obtain ⟨lost, hlost⟩ := ht.exists_lost
  exact (delete_post_but hlost k).mono (fun _ _ h => h.deleted) fun _ _ he => he

end Delete

end QuillDb
