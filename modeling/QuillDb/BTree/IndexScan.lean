/-
  BTree/IndexScan.lean --- the entries of an index tree, in order.

  Source: `IndexBTree.scan`, `_descend_leftmost` and `_scan_forward` of
  `quilldb/btree/index.py`.

  A path of the scan is a context of the tree, so the ascent is a step from one
  context to the next; each step leaves one leaf fewer.
-/
import QuillDb.BTree.IndexInsert

set_option autoImplicit false

namespace QuillDb

open Prog PageStore PageTree

section Scan

variable {s : PageStore} {root : Nat} {others img : Image} {h H : Nat} {T : IndexTree H}

theorem childAt_first (n : Node Entry (IndexTree h)) :
    childAt (n.children.map LevelTree.id) 0 = .ok (unlink n.kids n.last).1.id := by
  rcases n with ⟨i, _ | ⟨⟨t, d⟩, kids⟩, last⟩ <;> rfl

theorem child_subset (n : Node Entry (IndexTree h)) :
    IndexTree.image (unlink n.kids n.last).1 ⊆ IndexTree.image (.node n) := by
  have hchild := indexImage_child ⟨n.id, [], (unlink n.kids n.last).2⟩ (unlink n.kids n.last).1
  rwa [Ctx.fill_first] at hchild

theorem descendLeftmostFrom_live (hlive : Live s img) {t : IndexTree h} (c : Ctx Entry Entry h)
    (hsub : t.image ⊆ img) {fuel : Nat} (hfuel : h < fuel) :
    IndexBTree.descendLeftmostFrom fuel c.path t.id s =
      (.ok ((t.firstLeaf.id, 0) :: (c.first t).path), s) := by
  induction h generalizing fuel with
  | zero =>
      obtain ⟨fuel, rfl⟩ : ∃ n, fuel = n + 1 := ⟨fuel - 1, by omega⟩
      obtain ⟨l, hl⟩ := t.exists_leaf
      rw [hl] at hsub ⊢
      rw [IndexBTree.descendLeftmostFrom, LevelTree.id_leaf,
        bind_of_ok (readBody_indexLeaf hlive hsub)]
      rfl
  | succ h ih =>
      obtain ⟨fuel, rfl⟩ : ∃ n, fuel = n + 1 := ⟨fuel - 1, by omega⟩
      obtain ⟨n, hn⟩ := t.exists_node
      rw [hn] at hsub ⊢
      rw [IndexBTree.descendLeftmostFrom, LevelTree.id_node,
        bind_of_ok (readBody_indexNode hlive hsub)]
      simp only
      rw [indexChildren_eq, childAt_first, bind_of_ok (lift_apply _ _)]
      exact @ih (unlink n.kids n.last).1 (.inside ⟨n.id, [], (unlink n.kids n.last).2⟩ c)
        (fun p hp => hsub (child_subset n hp)) fuel (by omega)

theorem descendLeftmost_live (hlive : Live s img) {t : IndexTree h} (c : Ctx Entry Entry h)
    (hsub : t.image ⊆ img) (hheight : h < s.pageCount + 1) :
    IndexBTree.descendLeftmost c.path t.id s =
      (.ok ((t.firstLeaf.id, 0) :: (c.first t).path), s) := by
  rw [IndexBTree.descendLeftmost, bind_of_ok (state_apply s)]
  exact descendLeftmostFrom_live hlive c hsub hheight

/-- The child behind the next divider. -/
theorem childAt_next (f : Frame Entry (IndexTree h)) {t right : IndexTree h} {d : Entry}
    {post : List (Entry × IndexTree h)} (hpost : f.post = (d, right) :: post) :
    childAt ((f.fill t).children.map LevelTree.id) (f.pre.length + 1) = .ok right.id := by
  have hchild := indexChildAt_fill ⟨f.id, f.pre ++ [(t, d)], post⟩ right
  rwa [Ctx.fill_snoc f hpost, List.length_append, List.length_singleton] at hchild

/-- `ascend` goes to the next context. -/
theorem ascend_live (ht : IndexStored s root others T) {t : IndexTree h} {c : Ctx Entry Entry h}
    (hplug : c.plug t = ⟨H, T⟩) : IndexBTree.ascend c.path s =
      (.ok ((c.next t).map fun p => (p.1.key, (p.2.2.id, 0) :: p.2.1.path)), s) := by
  induction c with
  | root => rw [Ctx.path_root, IndexBTree.ascend, Ctx.next, pure_apply, Option.map_none]
  | inside f up ih =>
      have hnode : up.plug (.node (f.fill t)) = ⟨H, T⟩ := hplug
      have hsub : IndexTree.image (.node (f.fill t)) ⊆ T.image := fun p hp =>
        (Ctx.image_of_plug hnode indexFormat.layout).mem_iff.mpr (List.mem_append_right _ hp)
      have hread := readBody_indexNode ht.live fun p hp => List.mem_append_left _ (hsub hp)
      have hcells : indexInteriorCells f.id s = (.ok
          (((f.fill t).map LevelTree.id).kids.map indexFormat.cell,
            ((f.fill t).map LevelTree.id).last), s) := indexInteriorCells_of_read hread
      rw [Ctx.path, IndexBTree.ascend, bind_of_ok hcells]
      simp only
      rcases hpost : f.post with _ | ⟨⟨d, right⟩, post⟩
      · rw [cellAt_last hpost, Ctx.next, hpost]
        exact ih hnode
      · obtain ⟨g, rfl⟩ : ∃ g, f = TreeFormat.split g d right :=
          ⟨{ f with post := post }, by rw [TreeFormat.split, ← hpost]⟩
        have hget : ((((TreeFormat.split g d right).fill t).map LevelTree.id).kids.map
            indexFormat.cell)[(TreeFormat.split g d right).pre.length]? = some ⟨t.id, d.cell⟩ :=
          cellAt_split g d t right
        have hd : d ∈ T.entries := by
          refine (sublist_of_plug hnode).subset ?_
          rw [entries_fill, entriesAfter_split]
          exact List.mem_append_right _ (List.mem_cons_self ..)
        have hright : IndexTree.image right ⊆ T.image := fun p hp => by
          have hchild := indexImage_child
            ⟨g.id, (TreeFormat.split g d right).pre ++ [(t, d)], post⟩ right hp
          have hfill := Ctx.fill_snoc (TreeFormat.split g d right) (t := t) hpost
          rw [show g.id = (TreeFormat.split g d right).id from rfl, hfill] at hchild
          exact hsub hchild
        rw [hget]
        simp only
        rw [bind_of_ok (ht.readable d hd), indexChildren_eq, childAt_next _ hpost,
          bind_of_ok (lift_apply _ _)]
        have hpath : (g.id, (TreeFormat.split g d right).pre.length + 1) :: up.path =
            (Ctx.inside ⟨g.id, (TreeFormat.split g d right).pre ++ [(t, d)], post⟩ up).path := by
          rw [Ctx.path, List.length_append, List.length_singleton]
        have hheight := ht.height_lt
        have hle := up.le_plug (.node ((TreeFormat.split g d right).fill t))
        rw [hnode] at hle
        have hdown := descendLeftmost_live ht.live (Ctx.inside
          ⟨g.id, (TreeFormat.split g d right).pre ++ [(t, d)], post⟩ up)
          (fun p hp => List.mem_append_left _ (hright hp)) (by
            have hle : _ + 1 ≤ H := hle
            omega)
        rw [← hpath] at hdown
        have hid : (TreeFormat.split g d right).id = g.id := rfl
        rw [hid, bind_of_ok hdown, Ctx.next, hpost]
        rfl

/-- The rest of a scan, from a slot of a leaf on. -/
theorem scanForwardFrom_live (ht : IndexStored s root others T) {c : Ctx Entry Entry 0}
    {l : Leaf Entry} {fuel : Nat} (hplug : c.plug (.leaf l) = ⟨H, T⟩)
    (hfuel : (c.after (fun items => [items]) fun _ => []).length < fuel) (slot : Nat) :
    IndexBTree.scanForwardFrom fuel ((l.id, slot) :: c.path) s =
      (.ok ((l.items.drop slot ++ c.entriesAfter).map Entry.key), s) := by
  induction fuel generalizing c l slot with
  | zero => exact absurd hfuel (Nat.not_lt_zero _)
  | succ fuel ih =>
      have hmem : IndexTree.image (.leaf l) ⊆ T.image ++ others := fun p hp =>
        List.mem_append_left _ ((Ctx.image_of_plug hplug indexFormat.layout).mem_iff.mpr
          (List.mem_append_right _ hp))
      have hkeys := decodeKeys_live (ht.readable.subset fun e (he : e ∈ l.items.drop slot) =>
        (sublist_of_plug hplug).subset (List.mem_of_mem_drop he))
      rw [List.map_drop] at hkeys
      rw [IndexBTree.scanForwardFrom, bind_of_ok (indexLeafCells_live ht.live hmem), bind_of_ok hkeys,
        bind_of_ok (ascend_live ht hplug)]
      rcases hnext : c.next (.leaf l) with _ | ⟨d, c', l'⟩
      · rw [Ctx.entriesAfter, Ctx.after_of_next_none hnext, List.append_nil]
        rfl
      · obtain ⟨hplug', hafter⟩ := Ctx.next_some hnext
        have hleaves := hafter (fun items => [items]) fun _ => []
        have hentries : c.entriesAfter = d :: (l'.items ++ c'.entriesAfter) :=
          hafter (fun items => items) fun d => [d]
        rw [hleaves, List.nil_append, List.length_append, List.length_singleton] at hfuel
        have hrest := ih (hplug'.trans hplug) (by omega) 0
        rw [List.drop_zero] at hrest
        simp only [Option.map_some]
        rw [bind_of_ok hrest, pure_apply, hentries, List.map_append, List.map_append, List.map_cons,
          List.map_append]

/-- `IndexBTree.scan`: the entries of the tree, in order. -/
theorem scan_live (ht : IndexStored s root others T) :
    IndexBTree.scan root s = (.ok (T.entries.map Entry.key), s) := by
  have hfirst := descendLeftmost_live ht.live (t := T) .root (List.subset_append_left _ _)
    ht.height_lt
  have hafter := Ctx.after_first (fun items => items) (fun d => [d]) .root T
  have hleaves := Ctx.after_first (fun items => [items]) (fun _ => []) .root T
  have hlen := T.leaves_length_le indexFormat.layout
  have hpages := ht.live.length_lt
  rw [Ctx.after, List.append_nil] at hafter hleaves
  rw [Ctx.path_root, ht.root] at hfirst
  rw [IndexBTree.scan, bind_of_ok (state_apply s), bind_of_ok hfirst]
  have hscan : IndexBTree.scanForwardFrom (s.pageCount + 1)
      ((T.firstLeaf.id, 0) :: (Ctx.root.first T).path) s = _ :=
    scanForwardFrom_live ht (Ctx.plug_first (.root : Ctx Entry Entry H) T) (by
      have hcount := congrArg List.length hleaves
      rw [List.length_append, List.length_singleton] at hcount
      have hall : (T.walk (fun items => [items]) fun _ => []).length ≤ T.image.length := hlen
      rw [List.length_append] at hpages
      omega) 0
  rw [hscan, List.drop_zero, Ctx.entriesAfter, hafter]
  rfl

end Scan

end QuillDb
