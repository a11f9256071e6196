/-
  BTree/ThinPages.lean --- interior pages of a table tree without cells.

  Source: `BTree.insert` and `BTree.delete` of `quilldb/btree/btree.py`, the rule
  in `split_interior_cells` of `quilldb/btree/split.py`.

  Splits leave a cell on either side of the cut.  `delete` does not look back: the
  parent of an unlinked leaf loses one cell, and a parent that had a single one is
  left with its right child only.  `IndexBTree` rebalances there, `BTree` does not.
-/
import QuillDb.BTree.TableRun

set_option autoImplicit false

namespace QuillDb

open Prog PageStore PageTree

/-! ## Interior pages -/

/-- The pages below `root`, by the pointers of the interior pages. -/
inductive Below (s : PageStore) (root : Nat) : Nat → Prop
  | root : Below s root root
  | child {id next right : Nat} {cells : List (InteriorCell Int)} (above : Below s root id)
      (page : s.pages id = .body (.tableInterior cells right))
      (pointer : next ∈ childrenOfInterior cells right) : Below s root next

/-- Every interior page of the tree at `root` has a cell. -/
def InteriorsHaveCells (s : PageStore) (root : Nat) : Prop :=
  ∀ id cells right, Below s root id → s.pages id = .body (.tableInterior cells right) → cells ≠ []

/-- The call deletes the only row of a leaf, and the parent of that leaf has a single
cell. -/
def TakesLastCell (s : PageStore) (root : Nat) : TableCall → Prop
  | .insert _ _ => False
  | .delete k => ∃ (parent leaf right : Nat) (cell : InteriorCell Int) (row : TableLeafCell),
      Below s root parent ∧ s.pages parent = .body (.tableInterior [cell] right) ∧
        leaf ∈ childrenOfInterior [cell] right ∧ s.pages leaf = .body (.tableLeaf [row]) ∧
          row.rowid = k

section Subtrees

variable {s : PageStore} {root : Nat} {others : Image} {H h : Nat} {T : TableTree H}
variable {c : Ctx Row Int h} {t : TableTree h} {k : Int}

theorem TableAt.page (ht : TableAt s root others T) (hplug : c.plug t = ⟨H, T⟩) {p : Nat × PageContent}
    (hp : p ∈ t.image) : s.pages p.1 = p.2 :=
  ht.live.holds p (List.mem_append_left _ ((Ctx.image_of_plug hplug tableFormat.layout).mem_iff.mpr
    (List.mem_append_right _ hp)))

theorem TableAt.page_leaf {c : Ctx Row Int 0} {l : Leaf Row} (ht : TableAt s root others T)
    (hplug : c.plug (.leaf l) = ⟨H, T⟩) : s.pages l.id = .body (.tableLeaf (l.items.map Row.cell)) :=
  ht.page hplug (List.mem_cons_self ..)

theorem TableAt.page_node {c : Ctx Row Int (h + 1)} {n : Node Int (TableTree h)}
    (ht : TableAt s root others T) (hplug : c.plug (.node n) = ⟨H, T⟩) :
    s.pages n.id = .body (.tableInterior ((n.map LevelTree.id).kids.map tableFormat.cell)
      (n.map LevelTree.id).last) :=
  ht.page hplug (List.mem_cons_self ..)

/-- A child of a node, and what is around it. -/
theorem exists_frame_of_child {n : Node Int (TableTree h)} {x : TableTree h} (hx : x ∈ n.children) :
    ∃ f : Frame Int (TableTree h), f.fill x = n := by
  obtain ⟨i, hi⟩ := List.mem_iff_getElem?.mp hx
  have hle : i ≤ n.kids.length := by
    have hlen := (List.getElem?_eq_some_iff.mp hi).1
    rw [Node.children, List.length_append, List.length_map, List.length_singleton] at hlen
    exact Nat.le_of_lt_succ hlen
  obtain ⟨f, y, rfl, rfl⟩ := n.exists_frame hle
  rw [f.fill_children_get] at hi
  exact ⟨f, by rw [Option.some.inj hi]⟩

/-- The pages below the root are those of the subtrees. -/
theorem TableAt.exists_subtree (ht : TableAt s root others T) {id : Nat} (hbelow : Below s root id) :
    ∃ (h : Nat) (c : Ctx Row Int h) (t : TableTree h), c.plug t = ⟨H, T⟩ ∧ t.id = id := by
  induction hbelow with
  | root => exact ⟨H, .root, T, rfl, ht.root⟩
  | child above page pointer ih =>
      obtain ⟨h, c, t, hplug, rfl⟩ := ih
      cases h with
      | zero =>
          obtain ⟨l, hl⟩ := t.exists_leaf
          rw [hl] at hplug page
          cases (ht.page_leaf hplug).symm.trans page
      | succ h =>
          obtain ⟨n, hn⟩ := t.exists_node
          rw [hn] at hplug page
          cases (ht.page_node hplug).symm.trans page
          rw [children_eq] at pointer
          obtain ⟨x, hx, rfl⟩ := List.mem_map.mp pointer
          obtain ⟨f, rfl⟩ := exists_frame_of_child hx
          exact ⟨h, .inside f c, x, hplug, rfl⟩

theorem mem_children_fill (f : Frame Int (TableTree h)) (t : TableTree h) :
    t.id ∈ childrenOfInterior (((f.fill t).map LevelTree.id).kids.map tableFormat.cell)
      ((f.fill t).map LevelTree.id).last := by
  rw [children_eq]
  exact List.mem_map_of_mem (List.mem_of_getElem? (f.fill_children_get t))

theorem TableAt.below (ht : TableAt s root others T) (hplug : c.plug t = ⟨H, T⟩) :
    Below s root t.id := by
  induction c with
  | root =>
      cases hplug
      rw [ht.root]
      exact .root
  | inside f up ih =>
      have hup : up.plug (.node (f.fill t)) = ⟨H, T⟩ := hplug
      exact .child (ih hup) (ht.page_node hup) (mem_children_fill f t)

/-- If every node has a cell, so has every page of the tree. -/
theorem TableAt.celled_subtree (ht : TableAt s root others T) (hcells : InteriorsHaveCells s root)
    (hfilled : ∀ rows ∈ T.leaves, rows ≠ []) (hplug : c.plug t = ⟨H, T⟩) : Celled t.image := by
  induction h with
  | zero =>
      obtain ⟨l, hl⟩ := t.exists_leaf
      rw [hl] at hplug ⊢
      have hleaves := c.leaves_plug (.leaf l)
      rw [hplug] at hleaves
      refine celled_leaf l.id (hfilled l.items ?_)
      rw [hleaves]
      exact List.mem_append_left _ (List.mem_append_right _ (List.mem_singleton_self _))
  | succ h ih =>
      obtain ⟨n, hn⟩ := t.exists_node
      rw [hn] at hplug ⊢
      have hchild (x : TableTree h) (hx : x ∈ n.children) : Celled x.image := by
        obtain ⟨f, rfl⟩ := exists_frame_of_child hx
        exact @ih (.inside f c) x hplug
      intro p hp
      rcases List.mem_cons.mp hp with rfl | hp
      · have hne := hcells n.id _ _ (ht.below hplug) (ht.page_node hplug)
        exact tableFormat.nodeBody_hasCells.mpr fun hnil => hne (List.map_eq_nil_iff.mpr hnil)
      · rcases List.mem_append.mp hp with hp | hp
        · obtain ⟨q, hq, hp⟩ := List.mem_flatMap.mp hp
          have hp : p ∈ TableTree.image q.1 := (List.mem_append.mp hp).resolve_right fun h => nomatch h
          exact hchild q.1 (List.mem_append_left _ (List.mem_map_of_mem hq)) p hp
        · exact hchild n.last (List.mem_append_right _ (List.mem_singleton_self _)) p hp

theorem TableAt.interiorsHaveCells_iff (ht : TableAt s root others T) :
    InteriorsHaveCells s root ↔ Branching T := by
  constructor
  · intro hcells
    exact ht.filled.imp_right fun hfilled => @celled_subtree _ _ _ _ _ _ .root T ht hcells hfilled rfl
  · intro hbranching id cells right hbelow page
    obtain ⟨h, c, t, hplug, rfl⟩ := ht.exists_subtree hbelow
    cases h with
    | zero =>
        obtain ⟨l, hl⟩ := t.exists_leaf
        rw [hl] at hplug page
        cases (ht.page_leaf hplug).symm.trans page
    | succ h =>
        obtain ⟨n, hn⟩ := t.exists_node
        rw [hn] at hplug page
        cases (ht.page_node hplug).symm.trans page
        have hheight := Ctx.height_of_plug hplug
        have hcelled := hbranching.resolve_left (by omega)
        have hpage := (Ctx.image_of_plug hplug tableFormat.layout).mem_iff.mpr
          (List.mem_append_right _ (List.mem_cons_self ..))
        have hkids := tableFormat.nodeBody_hasCells.mp (hcelled _ hpage)
        exact fun hnil => hkids (List.map_eq_nil_iff.mp hnil)

end Subtrees

/-! ## The descent to a leaf -/

section Descent

variable {s : PageStore} {root : Nat} {others : Image} {H h : Nat} {T : TableTree H}
variable {c : Ctx Row Int h} {t : TableTree h} {k : Int}

/-- The separators on either side of the hole put the lower bound there. -/
theorem interiorSlot_fill (f : Frame Int (TableTree h)) (t : TableTree h)
    (hbefore : ∀ a ∈ f.inorderBefore, atOrBehind k a = false)
    (hafter : ∀ a ∈ f.inorderAfter, atOrBehind k a = true) :
    BinarySearch.lowerBound (fun d => atOrBehind k (.inr d)) (f.fill t).dividers = f.pre.length := by
  have hpre : ∀ d ∈ f.pre.map Prod.snd, atOrBehind k (.inr d) = false := by
    intro d hd
    obtain ⟨q, hq, rfl⟩ := List.mem_map.mp hd
    exact hbefore _ (List.mem_flatMap.mpr ⟨q, hq, List.mem_append_right _ (List.mem_singleton_self _)⟩)
  have hpost : ∀ d ∈ f.post.map Prod.fst, atOrBehind k (.inr d) = true := by
    intro d hd
    obtain ⟨q, hq, rfl⟩ := List.mem_map.mp hd
    exact hafter _ (List.mem_flatMap.mpr ⟨q, hq, List.mem_append_left _ (List.mem_singleton_self _)⟩)
  rw [f.fill_dividers, BinarySearch.lowerBound_append hpre hpost, List.length_map]

theorem findLeafFrom_plug (ht : TableAt s root others T) (hplug : c.plug t = ⟨H, T⟩)
    (hbefore : ∀ a ∈ c.inorderBefore, atOrBehind k a = false)
    (hafter : ∀ a ∈ c.inorderAfter, atOrBehind k a = true) {fuel : Nat} (hfuel : H < fuel) :
    ∃ fuel', h < fuel' ∧
      BTree.findLeafFrom k fuel T.id [] s = BTree.findLeafFrom k fuel' t.id c.path s := by
  induction c with
  | root =>
      cases hplug
      exact ⟨fuel, hfuel, rfl⟩
  | inside f up ih =>
      rw [inorderBefore_inside] at hbefore
      rw [inorderAfter_inside] at hafter
      have hup : up.plug (.node (f.fill t)) = ⟨H, T⟩ := hplug
      obtain ⟨hbeforeUp, hbefore⟩ := List.forall_mem_append.mp hbefore
      obtain ⟨hafter, hafterUp⟩ := List.forall_mem_append.mp hafter
      obtain ⟨fuel', hlt, heq⟩ := ih hup hbeforeUp hafterUp
      obtain ⟨fuel', rfl⟩ : ∃ n, fuel' = n + 1 := ⟨fuel' - 1, by omega⟩
      have hsub : TableTree.image (.node (f.fill t)) ⊆ T.image ++ others := fun p hp =>
        List.mem_append_left _ ((Ctx.image_of_plug hup tableFormat.layout).mem_iff.mpr
          (List.mem_append_right _ hp))
      refine ⟨fuel', by omega, heq.trans ?_⟩
      rw [BTree.findLeafFrom, LevelTree.id_node, bind_of_ok (readBody_node ht.live hsub)]
      simp only
      rw [interiorSlot_eq, interiorSlot_fill f t hbefore hafter, children_eq, childAt_fill]
      rfl

/-- `_find_leaf` ends in the leaf that a row's order puts it in. -/
theorem Reached.findLeaf {c : Ctx Row Int 0} {l : Leaf Row} (hr : Reached k T c l)
    (ht : TableAt s root others T) :
    BTree.findLeaf root k s = (.ok ((l.id, leafSlot k l.items) :: c.path), s) := by
  have hheight := T.height_lt_image tableFormat.layout
  have hlen := ht.live.length_lt
  have himage : (T.image ++ others).length = (LevelTree.image tableFormat.layout T).length +
      others.length := List.length_append
  obtain ⟨fuel, hlt, heq⟩ := findLeafFrom_plug ht hr.plug hr.before hr.after
    (show H < s.pageCount + 1 by omega)
  obtain ⟨fuel, rfl⟩ : ∃ n, fuel = n + 1 := ⟨fuel - 1, by omega⟩
  have hleaf : TableTree.image (.leaf l) ⊆ T.image ++ others := fun p hp =>
    List.mem_append_left _ (hr.leaf_subset hp)
  rw [BTree.findLeaf, bind_of_ok (state_apply s), ← ht.root, heq, BTree.findLeafFrom,
    LevelTree.id_leaf, bind_of_ok (readBody_leaf ht.live hleaf)]
  simp only
  rw [leafSlot_eq]
  rfl

/-- A row lies where the descent for its rowid ends. -/
theorem reached_of_row {c : Ctx Row Int 0} {l : Leaf Row} (ht : TableAt s root others T)
    (hplug : c.plug (.leaf l) = ⟨H, T⟩) {row : Row} (hrow : row ∈ l.items) :
    Reached row.rowid T c l := by
  have hasc := ht.ascending
  have hinorder := inorder_plug c (.leaf l)
  rw [hplug] at hinorder
  have hinorder : T.inorder = c.inorderBefore ++ l.items.map .inl ++ c.inorderAfter := hinorder
  rw [hinorder] at hasc
  obtain ⟨hleft, -, hcross⟩ := List.pairwise_append.mp hasc
  have hmem : .inl row ∈ l.items.map (Sum.inl : Row → Row ⊕ Int) := List.mem_map_of_mem hrow
  have hplace : place (.inl row) = 2 * row.rowid := rfl
  refine ⟨hplug, fun a ha => ?_, fun a ha => ?_⟩
  · have hlt := (List.pairwise_append.mp hleft).2.2 a ha _ hmem
    rw [← Bool.not_eq_true, atOrBehind_iff]
    omega
  · have hlt := hcross _ (List.mem_append_right _ hmem) a ha
    rw [atOrBehind_iff]
    omega

end Descent

/-! ## One call -/

section Step

variable {s : PageStore} {root : Nat} {others : Image} {H : Nat} {T : TableTree H}
variable {c : Ctx Row Int 0} {l : Leaf Row} {k : Int}

theorem map_cell_singleton {rows : List Row} {cell : TableLeafCell} (h : rows.map Row.cell = [cell]) :
    ∃ row, rows = [row] ∧ row.rowid = cell.rowid := by
  obtain ⟨row, rest, rfl, hcell, hrest⟩ := List.map_eq_cons_iff.mp h
  rw [List.map_eq_nil_iff.mp hrest]
  exact ⟨row, rfl, congrArg TableLeafCell.rowid hcell⟩

/-- In terms of the leaf that the descent reaches. -/
theorem takesLastCell_iff (ht : TableAt s root others T) (hr : Reached k T c l) :
    TakesLastCell s root (.delete k) ↔ (∃ f up, c = .inside f up ∧ f.pre.length + f.post.length = 1) ∧
      ∃ row, l.items = [row] ∧ row.rowid = k := by
  constructor
  · rintro ⟨parent, leaf, right, cell, rowCell, hbelow, hparent, hchild, hleaf, rfl⟩
    obtain ⟨h, c', t, hplug, rfl⟩ := ht.exists_subtree hbelow
    cases h with
    | zero =>
        obtain ⟨l', hl'⟩ := t.exists_leaf
        rw [hl'] at hplug hparent
        cases (ht.page_leaf hplug).symm.trans hparent
    | succ h =>
        obtain ⟨n, hn⟩ := t.exists_node
        rw [hn] at hplug hparent
        have hpage := ht.page_node hplug
        rw [LevelTree.id_node, hpage] at hparent
        injection hparent with hbody
        injection hbody with hcells hlast
        rw [← hcells, ← hlast, children_eq] at hchild
        obtain ⟨x, hx, rfl⟩ := List.mem_map.mp hchild
        obtain ⟨f, rfl⟩ := exists_frame_of_child hx
        have hplug' : (Ctx.inside f c').plug x = ⟨H, T⟩ := hplug
        cases h with
        | succ h =>
            obtain ⟨m, hm⟩ := x.exists_node
            rw [hm] at hplug' hleaf
            cases (ht.page_node hplug').symm.trans hleaf
        | zero =>
            obtain ⟨l', hl'⟩ := x.exists_leaf
            rw [hl'] at hplug' hleaf
            have hleaf' := ht.page_leaf hplug'
            have hsame := hleaf'.symm.trans hleaf
            injection hsame with hsame
            injection hsame with hcell
            obtain ⟨row, hrow, hid⟩ := map_cell_singleton hcell
            have hr' := reached_of_row ht hplug' (hrow ▸ List.mem_singleton_self row)
            rw [hid] at hr'
            have hpath := (hr.findLeaf ht).symm.trans (hr'.findLeaf ht)
            obtain ⟨hhead, htail⟩ := List.cons.inj (Except.ok.inj (Prod.mk.inj hpath).1)
            have hleafId : l.id = l'.id := (Prod.mk.inj hhead).1
            cases c with
            | root => cases htail
            | inside g up =>
                obtain ⟨hparentId, -⟩ := List.cons.inj htail
                have hparentId : g.id = f.id := (Prod.mk.inj hparentId).1
                have hup : up.plug (.node (g.fill (.leaf l))) = ⟨H, T⟩ := hr.plug
                have hpage' := ht.page_node hup
                rw [Frame.fill_id, hparentId] at hpage'
                have hsame := hpage'.symm.trans hpage
                injection hsame with hsame
                injection hsame with hkids
                have hlen := congrArg List.length (hkids.trans hcells)
                rw [List.length_map, Node.map, List.length_map, Frame.fill_kids_length] at hlen
                have hown := ht.page_leaf hr.plug
                rw [hleafId] at hown
                have hsame := hown.symm.trans hleaf
                injection hsame with hsame
                injection hsame with hitems
                exact ⟨⟨g, up, rfl, hlen⟩, map_cell_singleton hitems⟩
  · rintro ⟨⟨f, up, rfl, hone⟩, row, hitems, rfl⟩
    have hup : up.plug (.node (f.fill (.leaf l))) = ⟨H, T⟩ := hr.plug
    have hparent := ht.page_node hup
    have hlen : (((f.fill (.leaf l)).map LevelTree.id).kids.map tableFormat.cell).length = 1 := by
      rw [List.length_map, Node.map, List.length_map, Frame.fill_kids_length, hone]
    have hchild := mem_children_fill f (.leaf l)
    obtain ⟨cell, hcells⟩ := List.length_eq_one_iff.mp hlen
    rw [hcells] at hparent hchild
    have hleaf := ht.page_leaf hr.plug
    rw [hitems] at hleaf
    exact ⟨f.id, l.id, _, cell, row.cell, ht.below hup, hparent, hchild, hleaf, rfl⟩

/-- What is left of the tree when a leaf goes and its parent stays. -/
theorem Reached.branching_close {f : Frame Int (TableTree 0)} {up : Ctx Row Int 1}
    {n : Node Int (TableTree 0)} (hr : Reached k T (.inside f up) l) (hT : Branching T)
    (hclose : f.close = some n) : Branching (up.plug (.node n)).2 ↔ n.kids ≠ [] := by
  have himage := tableFormat.image_plug_node up n
  have hheight := up.le_plug (.node n)
  have hctx := hr.celled_ctx hT
  constructor
  · intro hbranching
    have hcelled := hbranching.resolve_left (by omega)
    have hpage := hcelled _ (himage.mem_iff.mpr (List.mem_append_right _ (List.mem_cons_self ..)))
    exact fun hnil => tableFormat.nodeBody_hasCells.mp hpage (by rw [Node.map, hnil, List.map_nil])
  · intro hne
    refine .inr fun p hp => ?_
    rw [(Frame.close_some hclose).1] at himage
    rcases List.mem_append.mp (himage.mem_iff.mp hp) with hp | hp
    · exact hctx p (List.mem_append_right _ hp)
    · rcases List.mem_cons.mp hp with rfl | hp
      · refine tableFormat.nodeBody_hasCells.mpr fun hnil => hne ?_
        exact List.map_eq_nil_iff.mp hnil
      · rw [image_close hclose] at hp
        exact hctx p (List.mem_append_left _ (List.mem_cons_of_mem _ hp))

/-- A deletion leaves an interior page without cells if and only if it takes the last. -/
theorem branching_removeRow (ht : TableAt s root others T) (hT : Branching T) (hr : Reached k T c l)
    {row : Row} (hfound : l.items[leafSlot k l.items]? = some row) (hrow : row.rowid = k) :
    Branching (removeRow c l (leafSlot k l.items)).2 ↔ ¬ TakesLastCell s root (.delete k) := by
  rw [takesLastCell_iff ht hr]
  obtain ⟨hlt, hget⟩ := List.getElem?_eq_some_iff.mp hfound
  have hlen := List.length_eraseIdx_of_lt hlt
  rcases Classical.em (l.items.eraseIdx (leafSlot k l.items) = []) with hempty | hkept
  · rw [hempty, List.length_nil] at hlen
    obtain ⟨row', hitems⟩ := List.length_eq_one_iff.mp (show l.items.length = 1 by omega)
    obtain rfl : row' = row := by
      rw [hitems] at hfound
      exact List.mem_singleton.mp (List.mem_of_getElem? hfound) |>.symm
    cases c with
    | root =>
        rw [removeRow_kept (.inr rfl)]
        exact iff_of_true (.inl rfl) fun h => nomatch h.1
    | inside f up =>
        have hpath : (Ctx.inside f up).path ≠ [] := List.cons_ne_nil _ _
        rw [removeRow_unlinked hempty hpath]
        rcases hclose : f.close with _ | n
        · -- a parent without cells is none of this tree
          obtain ⟨hpre, hpost⟩ := Frame.close_none hclose
          have hpage := hr.celled_ctx hT _ (List.mem_append_left _ (List.mem_cons_self ..))
          have hkids := tableFormat.nodeBody_hasCells.mp hpage
          refine absurd (List.length_eq_zero_iff.mp ?_) hkids
          rw [Frame.fill_kids_length, Frame.map, hpre, hpost]
          rfl
        · have hcount := Frame.close_kids_length hclose
          rw [unlink_closed hclose, hr.branching_close hT hclose, Ne, ← List.length_eq_zero_iff]
          refine not_congr ⟨fun hzero => ⟨⟨f, up, rfl, by omega⟩, row', hitems, hrow⟩, fun h => ?_⟩
          obtain ⟨⟨g, up', hctx, hone⟩, -⟩ := h
          cases hctx
          omega
  · rw [removeRow_kept (.inl hkept)]
    refine iff_of_true (hr.branching_leaf hkept hT) ?_
    rintro ⟨-, row', hitems, -⟩
    have hone := congrArg List.length hitems
    rw [List.length_singleton] at hone
    exact hkept (List.length_eq_zero_iff.mp (by omega))

theorem not_takesLastCell_of_absent (ht : TableAt s root others T) (hr : Reached k T c l)
    (habsent : Absent k l.items) : ¬ TakesLastCell s root (.delete k) := by
  rw [takesLastCell_iff ht hr]
  rintro ⟨-, row, hitems, hrow⟩
  refine hr.not_mem ht.ascending habsent row ?_ hrow
  rw [hr.items, hitems]
  exact List.mem_append_left _ (List.mem_append_right _ (List.mem_singleton_self _))

/-- One call. -/
theorem RangedAt.run_branching (ht : RangedAt s root others T) (hT : Branching T) {call : TableCall}
    (hcall : call.InRange) : ∃ (H' : Nat) (T' : TableTree H'),
      RangedAt ((call.run root).exec s) root others T' ∧ (Branching T' ↔ ¬ TakesLastCell s root call) := by
  cases call with
  | insert k payload =>
      obtain ⟨H', T', hT', hbranching⟩ := ht.insert hcall payload
      exact ⟨H', T', hT', iff_of_true (hbranching hT) id⟩
  | delete k =>
      let P : PageStore → Prop := fun s' => ∃ (H' : Nat) (T' : TableTree H'), RangedAt s' root others T' ∧
        (Branching T' ↔ ¬ TakesLastCell s root (.delete k))
      have ht₀ := ht.toTableAt
      obtain ⟨c, l, hr, hfind⟩ := findLeaf_spec ht₀ k
      rcases Classical.em (Absent k l.items) with habsent | hpresent
      · have hrun : (TableCall.delete k).run root s = (.ok (), s) := by
          rw [TableCall.run, bind_of_ok (delete_absent ht₀ hr hfind habsent)]
          rfl
        rw [Prog.exec, hrun]
        exact ⟨H, T, ht, iff_of_true hT (not_takesLastCell_of_absent ht₀ hr habsent)⟩
      · obtain ⟨row, hfound, hrow⟩ := exists_of_not_absent hpresent
        obtain ⟨lost, hlost⟩ := ht₀.exists_lost
        have hdelete : Post (TableCall.run root (.delete k)) s
            (fun _ s' => TableAt s' root others (removeRow c l (leafSlot k l.items)).2) fun _ _ => False :=
          (delete_found hlost hr hfind hfound hrow).bind (fun _ s' hs' => hs'.2.1.toTableAt)
            fun _ _ he => he
        refine exec_of_post (P := P) hdelete (fun _ s' hs' => ?_) fun _ _ he => he.elim
        exact ⟨_, _, ⟨hs', fun q hq => ht.int64 q (mem_items_removeRow hr hq)⟩,
          branching_removeRow ht₀ hT hr hfound hrow⟩

theorem runCalls_branching (ht : RangedAt s root others T) (hT : Branching T) {calls : List TableCall}
    (hcalls : ∀ call ∈ calls, call.InRange) :
    (∀ n ≤ calls.length, InteriorsHaveCells (runCalls root (calls.take n) s) root) ↔
      ∀ n (hn : n < calls.length), ¬ TakesLastCell (runCalls root (calls.take n) s) root calls[n] := by
  induction calls generalizing s others H T with
  | nil =>
      refine iff_of_true (fun n _ => ?_) fun n hn => absurd hn (Nat.not_lt_zero n)
      rw [List.take_nil]
      exact ht.interiorsHaveCells_iff.mpr hT
  | cons call calls ih =>
      obtain ⟨H', T', ht', hstep⟩ := ht.run_branching hT (hcalls call (List.mem_cons_self ..))
      have ht' := ht'.reread
      have ih := fun hT' => ih ht' hT' fun other hother => hcalls other (List.mem_cons_of_mem _ hother)
      constructor
      · intro hall n hn
        have hT' := ht'.interiorsHaveCells_iff.mp (hall 1 (Nat.succ_le_succ (Nat.zero_le _)))
        cases n with
        | zero => exact hstep.mp hT'
        | succ n =>
            exact (ih hT').mp (fun m hm => hall (m + 1) (Nat.succ_le_succ hm)) n
              (Nat.lt_of_succ_lt_succ hn)
      · intro hnone n hn
        have hT' := hstep.mpr (hnone 0 (Nat.zero_lt_succ _))
        cases n with
        | zero => exact ht.interiorsHaveCells_iff.mpr hT
        | succ n =>
            exact (ih hT').mpr (fun m hm => hnone (m + 1) (Nat.succ_lt_succ hm)) n
              (Nat.le_of_succ_le_succ hn)

end Step

/-! ## Runs -/

/-- In a run from an empty leaf, with rowids in the int64 range, every interior page has a
cell throughout if and only if no call takes the last cell of one. -/
theorem interiors_have_cells_iff (s : PageStore) (root : Nat) (others : Image) (hroot : root < 2 ^ 32)
    (hlive : Live s ((root, .body (.tableLeaf [])) :: others)) (calls : List TableCall)
    (hcalls : ∀ call ∈ calls, call.InRange) :
    (∀ n ≤ calls.length, InteriorsHaveCells (runCalls root (calls.take n) s) root) ↔
      ∀ n (hn : n < calls.length), ¬ TakesLastCell (runCalls root (calls.take n) s) root calls[n] :=
  runCalls_branching (rangedAt_empty hroot hlive) (.inl rfl) hcalls

/-- Two leaves below the root, and the right one emptied. -/
def thinningCalls : List TableCall :=
  [.insert 1 (List.replicate 2000 1), .insert 2 (List.replicate 2000 2),
    .insert 3 (List.replicate 2000 3), .delete 3]

theorem interiors_have_cells_iff_thinning :
    (∀ n ≤ thinningCalls.length, InteriorsHaveCells (runCalls 2 (thinningCalls.take n) emptyTable) 2) ↔
      ∀ n (hn : n < thinningCalls.length),
        ¬ TakesLastCell (runCalls 2 (thinningCalls.take n) emptyTable) 2 thinningCalls[n] :=
  interiors_have_cells_iff emptyTable 2 [] (by decide) emptyTable_live thinningCalls (by decide)

/-- The root keeps its right child only. -/
theorem delete_leaves_thin_root : ¬ InteriorsHaveCells (runCalls 2 thinningCalls emptyTable) 2 := by
  have hpage : (runCalls 2 thinningCalls emptyTable).pages 2 = .body (.tableInterior [] 4) := by
    decide +kernel
  exact fun h => h 2 [] 4 .root hpage rfl

end QuillDb
