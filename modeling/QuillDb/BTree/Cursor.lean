/-
  BTree/Cursor.lean --- the rows of a table tree, one after the other.

  Source: `quilldb/btree/cursor.py`, and the loops over a cursor in
  `quilldb/exec/operators.py`, `quilldb/catalog/catalog.py` and
  `quilldb/plan/analyze.py`.

  A path keeps the pages as they were parsed on the way down, the leaf first, so a
  row is read from the page it was found on.  A loop over a cursor may write to
  other trees between two rows.
-/
import QuillDb.BTree.TableTree

set_option autoImplicit false

namespace QuillDb

open Prog PageStore PageTree

/-- `TableCursor.path`: the pages, with the slot that was taken in each. -/
abbrev CursorPath : Type := List (Nat × Nat × PageBody)

namespace TableCursor

/-! ## Moving -/

def descendToLeafFrom (rightmost : Bool) : Nat → CursorPath → Nat → StoreM CursorPath
  | 0, _, _ => raise (.btreeInvariant "the descent does not end")
  | fuel + 1, path, pageId => do
      match ← readBody pageId with
      | .tableLeaf cells =>
          -- an empty leaf is not a position
          if cells = [] then return path
          else return (pageId, if rightmost then cells.length - 1 else 0, .tableLeaf cells) :: path
      | .tableInterior cells rightChild =>
          let kids := childrenOfInterior cells rightChild
          let slot := if rightmost then kids.length - 1 else 0
          let child ← lift (childAt kids slot)
          descendToLeafFrom rightmost fuel ((pageId, slot, .tableInterior cells rightChild) :: path) child
      | _ => raise (.malformedCell "not a table interior cell")

/-- `_descend_to_leaf`. -/
def descendToLeaf (rightmost : Bool) (path : CursorPath) (pageId : Nat) : StoreM CursorPath := do
  let s ← state
  descendToLeafFrom rightmost (s.pageCount + 1) path pageId

def first (root : Nat) : StoreM CursorPath := descendToLeaf false [] root

def last (root : Nat) : StoreM CursorPath := descendToLeaf true [] root

/-- `_advance`: up to a page with a next child, and down to the first leaf there. -/
def advance : CursorPath → StoreM CursorPath
  | [] => return []
  | (pageId, slot, .tableInterior cells rightChild) :: path =>
      match (childrenOfInterior cells rightChild)[slot + 1]? with
      | some child =>
          descendToLeaf false ((pageId, slot + 1, .tableInterior cells rightChild) :: path) child
      | none => advance path
  | _ :: path => advance path

def next : CursorPath → StoreM CursorPath
  | [] => return []
  | (pageId, slot, body) :: path =>
      if slot + 1 < body.cellSizes.length then return (pageId, slot + 1, body) :: path
      else advance ((pageId, slot, body) :: path)

/-! ## Reading -/

/-- The cell at the position. -/
def cell : CursorPath → Except DbError TableLeafCell
  | [] => .error (.valueError "cursor is not positioned")
  | (_, slot, .tableLeaf cells) :: _ =>
      match cells[slot]? with
      | some cell => .ok cell
      | none => .error (.indexError "list index out of range")
  | _ => .error (.malformedCell "not a table leaf cell")

def rowid (path : CursorPath) : Except DbError Int := TableLeafCell.rowid <$> cell path

def record (path : CursorPath) : StoreM Bytes := do
  let cell ← lift (cell path)
  readPayload cell.payload

/-- A loop from a position to the last row; a file has fewer rows than bytes. -/
def eachFrom {α : Type} (visit : Int → Bytes → StoreM α) : Nat → CursorPath → StoreM (List α)
  | _, [] => return []
  | 0, _ :: _ => raise (.btreeInvariant "the scan does not end")
  | fuel + 1, top :: above => do
      let payload ← record (top :: above)
      let rowid ← lift (rowid (top :: above))
      let a ← visit rowid payload
      let path ← next (top :: above)
      let rest ← eachFrom visit fuel path
      return a :: rest

/-- `cursor.first()` and a loop to the last row. -/
def each {α : Type} (root : Nat) (visit : Int → Bytes → StoreM α) : StoreM (List α) := do
  let path ← first root
  let s ← state
  eachFrom visit (s.pageCount * pageSize + 1) path

/-- `_next_rowid`: one more than the last rowid, or 1. -/
def nextRowid (root : Nat) : StoreM Int := do
  match ← last root with
  | [] => return 1
  | path => do
      let rowid ← lift (rowid path)
      return rowid + 1

end TableCursor

/-! ## Positions in a tree -/

section Cursor

variable {s : PageStore} {root : Nat} {others img : Image} {h H : Nat} {T : TableTree H}

/-- The page of a leaf, parsed. -/
def leafBody (l : Leaf Row) : PageBody := .tableLeaf (l.items.map Row.cell)

/-- The page of a node, parsed. -/
def nodeBody (n : Node Int (TableTree h)) : PageBody :=
  .tableInterior ((n.map LevelTree.id).kids.map tableFormat.cell) (n.map LevelTree.id).last

/-- The pages above a subtree, as a cursor keeps them. -/
def climb : {h : Nat} → Ctx Row Int h → TableTree h → CursorPath
  | _, .root, _ => []
  | _, .inside f up, t =>
      (f.id, f.pre.length, nodeBody (f.fill t)) :: climb up (.node (f.fill t))

/-- The cursor at a slot of a leaf. -/
def position (c : Ctx Row Int 0) (l : Leaf Row) (slot : Nat) : CursorPath :=
  (l.id, slot, leafBody l) :: climb c (.leaf l)

theorem climb_first (n : Node Int (TableTree h)) (c : Ctx Row Int (h + 1)) :
    climb (.inside ⟨n.id, [], (unlink n.kids n.last).2⟩ c) (unlink n.kids n.last).1 =
      (n.id, 0, nodeBody n) :: climb c (.node n) := by
  rw [climb, Ctx.fill_first]
  rfl

theorem childAt_tableFirst (n : Node Int (TableTree h)) :
    childAt (n.children.map LevelTree.id) 0 = .ok (unlink n.kids n.last).1.id := by
  have hchild := childAt_fill ⟨n.id, [], (unlink n.kids n.last).2⟩ (unlink n.kids n.last).1
  rwa [Ctx.fill_first] at hchild

theorem tableChild_subset (n : Node Int (TableTree h)) :
    TableTree.image (unlink n.kids n.last).1 ⊆ TableTree.image (.node n) := by
  have hchild := image_child ⟨n.id, [], (unlink n.kids n.last).2⟩ (unlink n.kids n.last).1
  rwa [Ctx.fill_first] at hchild

/-! ## Descents -/

theorem descendToLeafFrom_live (hlive : Live s img) {t : TableTree h} (c : Ctx Row Int h)
    (hsub : t.image ⊆ img) (hne : t.firstLeaf.items ≠ []) {fuel : Nat} (hfuel : h < fuel) :
    TableCursor.descendToLeafFrom false fuel (climb c t) t.id s =
      (.ok (position (c.first t) t.firstLeaf 0), s) := by
  induction h generalizing fuel with
  | zero =>
      obtain ⟨fuel, rfl⟩ : ∃ n, fuel = n + 1 := ⟨fuel - 1, by omega⟩
      obtain ⟨l, hl⟩ := t.exists_leaf
      rw [hl] at hsub hne ⊢
      have hcells : l.items.map Row.cell ≠ [] := fun hnil => hne (List.map_eq_nil_iff.mp hnil)
      rw [TableCursor.descendToLeafFrom, LevelTree.id_leaf, bind_of_ok (readBody_leaf hlive hsub)]
      simp only
      rw [if_neg hcells]
      rfl
  | succ h ih =>
      obtain ⟨fuel, rfl⟩ : ∃ n, fuel = n + 1 := ⟨fuel - 1, by omega⟩
      obtain ⟨n, hn⟩ := t.exists_node
      rw [hn] at hsub hne ⊢
      have hdown := @ih (unlink n.kids n.last).1 (.inside ⟨n.id, [], (unlink n.kids n.last).2⟩ c)
        (fun p hp => hsub (tableChild_subset n hp)) hne fuel (by omega)
      rw [climb_first] at hdown
      rw [TableCursor.descendToLeafFrom, LevelTree.id_node, bind_of_ok (readBody_node hlive hsub)]
      simp only [Bool.false_eq_true, if_false]
      rw [children_eq, childAt_tableFirst, bind_of_ok (lift_apply _ _)]
      exact hdown

theorem TableAt.height_le (ht : TableAt s root others T) : H < s.pageCount + 1 := by
  have hheight := T.height_lt_image tableFormat.layout
  have hpages := ht.live.length_lt
  have hlen : (T.image ++ others).length = (LevelTree.image tableFormat.layout T).length +
      others.length := List.length_append
  omega

theorem descendToLeaf_live (hlive : Live s img) {t : TableTree h} (c : Ctx Row Int h)
    (hsub : t.image ⊆ img) (hne : t.firstLeaf.items ≠ []) (hheight : h < s.pageCount + 1) :
    TableCursor.descendToLeaf false (climb c t) t.id s =
      (.ok (position (c.first t) t.firstLeaf 0), s) := by
  rw [TableCursor.descendToLeaf, bind_of_ok (state_apply s)]
  exact descendToLeafFrom_live hlive c hsub hne hheight

/-! ## The next row -/

/-- The leaf behind a divider, and the cursor on its first row. -/
def nextPosition : Option (Int × Ctx Row Int 0 × Leaf Row) → CursorPath
  | none => []
  | some (_, c, l) => position c l 0

theorem children_get (f : Frame Int (TableTree h)) {t right : TableTree h} {d : Int}
    {post : List (Int × TableTree h)} (hpost : f.post = (d, right) :: post) :
    ((f.fill t).children.map LevelTree.id)[f.pre.length + 1]? = some right.id := by
  have hchild := Frame.fill_children_get ⟨f.id, f.pre ++ [(t, d)], post⟩ right
  rw [Ctx.fill_snoc f hpost, List.length_append, List.length_singleton] at hchild
  rw [List.getElem?_map, hchild]
  rfl

theorem children_get_last (f : Frame Int (TableTree h)) (t : TableTree h) (hpost : f.post = []) :
    ((f.fill t).children.map LevelTree.id)[f.pre.length + 1]? = none := by
  rw [List.getElem?_eq_none_iff, List.length_map, Node.children, List.length_append, List.length_map,
    f.fill_kids_length, hpost]
  exact Nat.le_refl _

/-- Leaves that follow another leaf are not empty. -/
theorem TableAt.next_filled (ht : TableAt s root others T) {t : TableTree h} {c : Ctx Row Int h}
    (hplug : c.plug t = ⟨H, T⟩) {d : Int} {c' : Ctx Row Int 0} {l : Leaf Row}
    (hnext : c.next t = some (d, c', l)) : l.items ≠ [] := by
  obtain ⟨hplug', -⟩ := Ctx.next_some hnext
  have hleaves := Ctx.walk_of_plug (hplug'.trans hplug) (fun rows => [rows]) fun _ => []
  rcases ht.filled with hheight | hfilled
  · have hpath := Ctx.eq_root_of_plug hplug hheight
    cases c with
    | root => cases hnext
    | inside f up => cases hpath
  · refine hfilled _ ?_
    rw [LevelTree.leaves, hleaves]
    exact List.mem_append_left _ (List.mem_append_right _ (List.mem_singleton_self _))

/-- `_advance` goes to the first row behind a subtree. -/
theorem advance_live (ht : TableAt s root others T) {t : TableTree h} {c : Ctx Row Int h}
    (hplug : c.plug t = ⟨H, T⟩) :
    TableCursor.advance (climb c t) s = (.ok (nextPosition (c.next t)), s) := by
  induction c with
  | root => rfl
  | inside f up ih =>
      have hnode : up.plug (.node (f.fill t)) = ⟨H, T⟩ := hplug
      rw [climb, nodeBody, TableCursor.advance, children_eq]
      rcases hpost : f.post with _ | ⟨⟨d, right⟩, post⟩
      · rw [children_get_last f t hpost, Ctx.next, hpost]
        exact ih hnode
      · have hfill := Ctx.fill_snoc f (t := t) hpost
        have hright : TableTree.image right ⊆ T.image := fun p hp => by
          have hchild := image_child ⟨f.id, f.pre ++ [(t, d)], post⟩ right hp
          rw [hfill] at hchild
          exact (Ctx.image_of_plug hnode tableFormat.layout).mem_iff.mpr (List.mem_append_right _ hchild)
        have hnext : (Ctx.inside f up).next t = some (d,
            (Ctx.inside ⟨f.id, f.pre ++ [(t, d)], post⟩ up).first right, right.firstLeaf) := by
          rw [Ctx.next, hpost]
        have hle := up.le_plug (.node (f.fill t))
        have hheight := ht.height_le
        rw [hnode] at hle
        have hdown := descendToLeaf_live ht.live (Ctx.inside ⟨f.id, f.pre ++ [(t, d)], post⟩ up)
          (fun p hp => List.mem_append_left _ (hright hp)) (ht.next_filled hplug hnext) (by
            have hle : _ + 1 ≤ H := hle
            omega)
        rw [climb, hfill, List.length_append, List.length_singleton] at hdown
        rw [children_get f hpost, hnext]
        exact hdown

/-! ## A loop over all rows -/

theorem leafBody_cells (l : Leaf Row) : (leafBody l).cellSizes.length = l.items.length := by
  rw [leafBody, PageBody.cellSizes, List.length_map, List.length_map]

/-- The row at a position. -/
theorem cell_position {c : Ctx Row Int 0} {l : Leaf Row} {slot : Nat} {r : Row}
    (hr : l.items[slot]? = some r) : TableCursor.cell (position c l slot) = .ok r.cell := by
  rw [position, leafBody, TableCursor.cell, List.getElem?_map, hr]
  rfl

/-- A row reads back whole. -/
theorem TableAt.readable (ht : TableAt s root others T) {c : Ctx Row Int 0} {l : Leaf Row} {r : Row}
    (hplug : c.plug (.leaf l) = ⟨H, T⟩) (hr : r ∈ l.items) :
    readPayload r.cell.payload s = (.ok r.stored.data, s) := by
  have himage := Ctx.image_of_plug hplug tableFormat.layout
  have hown : r.stored.image ⊆ T.image ++ others := fun p hp => by
    refine List.mem_append_left _ (himage.mem_iff.mpr (List.mem_append_right _ ?_))
    exact List.mem_cons_of_mem _ (List.mem_flatMap.mpr ⟨r, hr, hp⟩)
  have hnodup := (himage.map Prod.fst).nodup_iff.mp ht.live.forget_right.ids_nodup
  rw [List.map_append] at hnodup
  have hleaf := (List.nodup_cons.mp (List.nodup_append.mp hnodup).2.1).2
  have hchain := (sublist_flatMap (f := tableFormat.layout.leafExtra) hr).map Prod.fst
  rw [show tableFormat.layout.leafExtra r = r.stored.image from rfl, Stored.image_ids] at hchain
  exact readPayload_live ht.live r.stored hown (hchain.nodup hleaf)

/-- `next` goes to the row behind the position. -/
theorem next_live (ht : TableAt s root others T) {c : Ctx Row Int 0} {l : Leaf Row} {slot : Nat}
    (hplug : c.plug (.leaf l) = ⟨H, T⟩) :
    TableCursor.next (position c l slot) s =
      (.ok (if slot + 1 < l.items.length then position c l (slot + 1) else
        nextPosition (c.next (.leaf l))), s) := by
  rw [position, TableCursor.next, leafBody_cells]
  split
  · rfl
  · have hleaf : TableCursor.advance ((l.id, slot, leafBody l) :: climb c (.leaf l)) =
        TableCursor.advance (climb c (.leaf l)) := rfl
    rw [hleaf]
    exact advance_live ht hplug

theorem first_emptyLeaf {l : Leaf Row} (ht : TableAt s root others (.leaf l)) (hnil : l.items = []) :
    TableCursor.first root s = (.ok [], s) := by
  have hread := readBody_leaf ht.live (List.subset_append_left _ _)
  have hid : l.id = root := ht.root
  rw [TableCursor.first, TableCursor.descendToLeaf, bind_of_ok (state_apply s),
    TableCursor.descendToLeafFrom, ← hid, bind_of_ok hread, hnil]
  rfl

/-- Only a root leaf is empty. -/
theorem first_empty (ht : TableAt s root others T) (hempty : T.firstLeaf.items = []) :
    T.items = [] ∧ TableCursor.first root s = (.ok [], s) := by
  cases H with
  | zero => exact ⟨hempty, first_emptyLeaf (l := T) ht hempty⟩
  | succ H =>
      have hleaves := Ctx.walk_of_plug (Ctx.plug_first (.root : Ctx Row Int (H + 1)) T)
        (fun rows => [rows]) fun _ => []
      rcases ht.filled with hheight | hfilled
      · cases hheight
      · refine absurd hempty (hfilled _ ?_)
        rw [LevelTree.leaves]
        refine hleaves ▸ ?_
        exact List.mem_append_left _ (List.mem_append_right _ (List.mem_singleton_self _))

section Each

variable {α : Type} {visit : Int → Bytes → StoreM α} {E : DbError → PageStore → Prop}
variable {I : List Row → List α → PageStore → Prop}

/-- The rest of a loop, from a slot of a leaf on.  `I seen as` is what holds when `seen`
has been visited with the results `as`; the pages of the tree stay as they are. -/
theorem eachFrom_post
    (hat : ∀ seen as s, I seen as s → ∃ root others, TableAt s root others T)
    (hvisit : ∀ seen r rest as s, T.items = seen ++ r :: rest → I seen as s →
      Post (visit r.rowid r.stored.data) s (fun a s' => I (seen ++ [r]) (as ++ [a]) s') E)
    {fuel : Nat} {c : Ctx Row Int 0} {l : Leaf Row} {slot : Nat} {seen : List Row} {as : List α}
    (hplug : c.plug (.leaf l) = ⟨H, T⟩) (hslot : slot < l.items.length)
    (hseen : T.items = seen ++ (l.items.drop slot ++ c.itemsAfter))
    (hfuel : (l.items.drop slot ++ c.itemsAfter).length < fuel) (hI : I seen as s) :
    Post (TableCursor.eachFrom visit fuel (position c l slot)) s
      (fun as' s' => I T.items (as ++ as') s') E := by
  induction fuel generalizing c l slot seen as s with
  | zero => exact absurd hfuel (Nat.not_lt_zero _)
  | succ fuel ih =>
      obtain ⟨root, others, ht⟩ := hat seen as s hI
      have hr : l.items[slot]? = some l.items[slot] := List.getElem?_eq_getElem hslot
      have hcons : l.items.drop slot = l.items[slot] :: l.items.drop (slot + 1) :=
        List.drop_eq_getElem_cons hslot
      rw [hcons, List.cons_append] at hseen hfuel
      generalize l.items[slot] = r at hr hseen hfuel
      have hrecord : TableCursor.record (position c l slot) s = (.ok r.stored.data, s) := by
        rw [TableCursor.record, cell_position hr]
        exact ht.readable hplug (List.mem_of_getElem? hr)
      have hrowid : TableCursor.rowid (position c l slot) = .ok r.rowid := by
        rw [TableCursor.rowid, cell_position hr]
        rfl
      have hpos : position c l slot = (l.id, slot, leafBody l) :: climb c (.leaf l) := rfl
      rw [hpos, TableCursor.eachFrom, ← hpos, post_bind]
      refine Post.of_eq hrecord ?_
      rw [hrowid, post_bind, post_lift_ok, post_bind]
      refine (hvisit seen r _ as s hseen hI).mono (fun a s₁ h₁ => ?_) fun _ _ he => he
      obtain ⟨root₁, others₁, ht₁⟩ := hat _ _ _ h₁
      rw [post_bind]
      refine Post.of_eq (next_live ht₁ hplug) ?_
      have hsplit : T.items = (seen ++ [r]) ++ (l.items.drop (slot + 1) ++ c.itemsAfter) := by
        rw [hseen, List.append_assoc, List.singleton_append]
      rw [List.length_cons] at hfuel
      have hlast : l.items.length ≤ slot + 1 → l.items.drop (slot + 1) = [] :=
        List.drop_eq_nil_of_le
      rw [post_bind]
      have hcollect : Post (TableCursor.eachFrom visit fuel (if slot + 1 < l.items.length then
          position c l (slot + 1) else nextPosition (c.next (.leaf l)))) s₁
          (fun as' s' => I T.items (as ++ [a] ++ as') s') E := by
        split
        · rename_i hmore
          exact ih hplug hmore hsplit (by omega) h₁
        · rename_i hmore
          rw [hlast (by omega), List.nil_append] at hsplit hfuel
          rcases hnext : c.next (.leaf l) with _ | ⟨d, c', l'⟩
          · -- the last row
            have hafter : c.itemsAfter = [] := Ctx.after_of_next_none hnext _ _
            rw [hafter, List.append_nil] at hsplit
            rw [nextPosition, TableCursor.eachFrom, post_pure, hsplit, List.append_nil]
            exact h₁
          · obtain ⟨hplug', hafter⟩ := Ctx.next_some hnext
            have hne := ht.next_filled hplug hnext
            have hitems : c.itemsAfter = l'.items ++ c'.itemsAfter :=
              hafter (fun items => items) fun _ => []
            rw [hitems] at hsplit hfuel
            exact ih (hplug'.trans hplug) (List.length_pos_iff.mpr hne) hsplit (by
              rw [List.drop_zero]
              omega) h₁
      refine hcollect.mono (fun as' s' hs' => ?_) fun _ _ he => he
      rw [post_pure]
      rwa [List.append_assoc, List.singleton_append] at hs'

/-- A row takes at least a byte of a page. -/
theorem TableAt.length_items_lt (ht : TableAt s root others T) : T.items.length < s.pageCount * pageSize + 1 := by
  have hitems := T.items_length_le tableFormat.layout pageSize fun i rows hmem => by
    have hfits := ht.live.fits _ (List.mem_append_left _ hmem)
    have hfits : leafHeaderSize + 2 * (List.map _ (rows.map Row.cell)).length + _ ≤ pageSize := hfits
    rw [List.length_map, List.length_map] at hfits
    omega
  have hpages := ht.live.length_lt
  rw [List.length_append] at hpages
  have hmul : T.image.length * pageSize ≤ s.pageCount * pageSize :=
    Nat.mul_le_mul_right pageSize (by omega)
  have hitems : T.items.length ≤ T.image.length * pageSize := hitems
  omega

/-- A loop over a table visits its rows in order. -/
theorem each_post
    (hat : ∀ seen as s, I seen as s → ∃ root others, TableAt s root others T)
    (hvisit : ∀ seen r rest as s, T.items = seen ++ r :: rest → I seen as s →
      Post (visit r.rowid r.stored.data) s (fun a s' => I (seen ++ [r]) (as ++ [a]) s') E)
    (ht : TableAt s root others T) (hI : I [] [] s) :
    Post (TableCursor.each root visit) s (fun as s' => I T.items as s') E := by
  have hbound := ht.length_items_lt
  have hafter := Ctx.after_first (fun items => items) (fun _ => []) .root T
  have hitems : T.items = T.firstLeaf.items ++ (Ctx.root.first T).itemsAfter := by
    rw [Ctx.after, List.append_nil] at hafter
    exact hafter.symm
  rw [TableCursor.each, post_bind]
  by_cases hempty : T.firstLeaf.items = []
  · -- an empty tree: there is no position
    obtain ⟨hnil, hfirst⟩ := first_empty ht hempty
    refine Post.of_eq hfirst ?_
    rw [post_bind, post_state, TableCursor.eachFrom, post_pure, hnil]
    exact hI
  · have hfirst := descendToLeaf_live ht.live (.root : Ctx Row Int H)
      (List.subset_append_left T.image others) hempty ht.height_le
    rw [ht.root] at hfirst
    refine Post.of_eq hfirst ?_
    rw [post_bind, post_state]
    rw [hitems] at hbound
    exact eachFrom_post hat hvisit (Ctx.plug_first (.root : Ctx Row Int H) T)
      (List.length_pos_iff.mpr hempty) hitems hbound hI

end Each

end Cursor

end QuillDb
