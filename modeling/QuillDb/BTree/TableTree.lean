/-
  BTree/TableTree.lean --- the tree that the pages of a table store.

  Source: `quilldb/btree/btree.py`, `quilldb/btree/validate.py`.

  Rows and separators are compared by one order: a separator comes right behind
  its own key, so that an equal key lies to its left.  A tree is sorted if its
  rows and separators are, in order.
-/
import QuillDb.BTree.Table

set_option autoImplicit false

namespace QuillDb

open Prog PageStore PageTree

/-! ## Rows and pages -/

/-- A row of a table tree. -/
structure Row where
  rowid : Int
  stored : Stored .leafTable

def Row.cell (r : Row) : TableLeafCell := ⟨r.rowid, r.stored.payload⟩

theorem rowidSize_le (rowid : Int) : rowidSize rowid ≤ 9 := uvarintSize_le _

/-- The pages of a table tree. -/
def tableFormat : TreeFormat Row Int Int where
  toInteriorFormat := tableInteriorFormat
  leafBody rows := .tableLeaf (rows.map Row.cell)
  key := id
  leafExtra r := r.stored.image
  dividerExtra _ := []
  key_cap := by
    intro d
    have hsize := rowidSize_le d
    have hcap : interiorCap = 1021 := rfl
    show rowidSize d + 6 ≤ interiorCap
    omega

abbrev TableTree : Nat → Type := LevelTree Row Int

/-- The pages of a tree. -/
abbrev TableTree.image {h : Nat} (t : TableTree h) : Image := tableFormat.image t

/-! ## The order -/

/-- Rows at even places, separators right behind their keys. -/
def place : Row ⊕ Int → Int
  | .inl r => 2 * r.rowid
  | .inr s => 2 * s + 1

/-- Rows and separators ascend. -/
def Ascending (xs : List (Row ⊕ Int)) : Prop := xs.Pairwise fun a b => place a < place b

/-- At or behind the rowid `k`, as the searches compare. -/
def atOrBehind (k : Int) : Row ⊕ Int → Bool
  | .inl r => k ≤ r.rowid
  | .inr s => k ≤ s

theorem atOrBehind_iff (k : Int) (a : Row ⊕ Int) : atOrBehind k a = true ↔ 2 * k ≤ place a := by
  cases a with
  | inl r =>
      rw [atOrBehind, place, decide_eq_true_eq]
      omega
  | inr s =>
      rw [atOrBehind, place, decide_eq_true_eq]
      omega

theorem Ascending.monotone {xs : List (Row ⊕ Int)} (h : Ascending xs) (k : Int) :
    Monotone (atOrBehind k) xs := by
  refine List.Pairwise.imp (fun hab ha => ?_) h
  rw [atOrBehind_iff] at ha ⊢
  omega

/-! ## The invariant -/

/-- The table tree at `root`, and the other pages in use. -/
structure TableAt (s : PageStore) (root : Nat) (others : Image) {h : Nat} (t : TableTree h) :
    Prop where
  root : t.id = root
  ascending : Ascending t.inorder
  filled : h = 0 ∨ ∀ l ∈ t.leaves, l ≠ []
  small : Small t.image
  live : Live s (t.image ++ others)

/-- Every interior page of the tree has a cell, if no leaf below the root is empty. -/
def Branching {h : Nat} (t : TableTree h) : Prop := h = 0 ∨ Celled t.image

/-- So is it, and no page is lost but those of `lost`. -/
structure TableAtBut (lost : Residue) (s : PageStore) (root : Nat) (others : Image) {h : Nat}
    (t : TableTree h) : Prop extends TableAt s root others t where
  kept : LiveBut lost s (t.image ++ others)

theorem TableAt.exists_lost {s : PageStore} {root : Nat} {others : Image} {h : Nat} {t : TableTree h}
    (ht : TableAt s root others t) : ∃ lost, TableAtBut lost s root others t :=
  ht.live.exists_lost.imp fun _ hlost => ⟨ht, hlost⟩

/-- The rows ascend. -/
theorem TableAt.items_ascending {s : PageStore} {root : Nat} {others : Image} {h : Nat} {t : TableTree h}
    (ht : TableAt s root others t) : t.items.Pairwise fun a b => a.rowid < b.rowid := by
  rw [LevelTree.items_eq]
  refine List.Pairwise.filterMap _ (fun a b hab r hr q hq => ?_) ht.ascending
  rw [Sum.getLeft?_eq_some_iff] at hr hq
  rw [hr, hq] at hab
  have hab : 2 * r.rowid < 2 * q.rowid := hab
  omega

/-! ## Descents -/

/-- The slot of `k` in a leaf. -/
def leafSlot (k : Int) (rows : List Row) : Nat :=
  BinarySearch.lowerBound (fun r => atOrBehind k (.inl r)) rows

/-- The row at the slot of `k` is another one. -/
def Absent (k : Int) (rows : List Row) : Prop := ∀ r, rows[leafSlot k rows]? = some r → r.rowid ≠ k

theorem exists_of_not_absent {k : Int} {rows : List Row} (h : ¬ Absent k rows) :
    ∃ r, rows[leafSlot k rows]? = some r ∧ r.rowid = k := by
  unfold Absent at h
  push Not at h
  exact h

section Descend

variable {h : Nat} {s : PageStore} {img : Image} {k : Int}

theorem interiorSlot_eq (n : Node Int (TableTree h)) :
    interiorSlotForKey ((n.map LevelTree.id).kids.map tableFormat.cell) k =
      BinarySearch.lowerBound (fun d => atOrBehind k (.inr d)) n.dividers := by
  have hcells : (n.map LevelTree.id).kids.map tableFormat.cell =
      n.kids.map fun p => (⟨p.1.id, p.2⟩ : InteriorCell Int) := by
    rw [Node.map, List.map_map]
    rfl
  rw [interiorSlotForKey, hcells, BinarySearch.lowerBound_map, Node.dividers,
    BinarySearch.lowerBound_map]
  rfl

theorem leafSlot_eq (rows : List Row) :
    leafSlotLowerBound (rows.map Row.cell) k =
      leafSlot k rows := by
  rw [leafSlotLowerBound, BinarySearch.lowerBound_map]
  rfl

theorem children_eq (n : Node Int (TableTree h)) :
    childrenOfInterior ((n.map LevelTree.id).kids.map tableFormat.cell) (n.map LevelTree.id).last =
      n.children.map LevelTree.id := by
  rw [childrenOfInterior, Node.children, List.map_append, Node.map, List.map_map, List.map_map,
    List.map_map]
  rfl

theorem childAt_fill (f : Frame Int (TableTree h)) (t : TableTree h) :
    childAt ((f.fill t).children.map LevelTree.id) f.pre.length = .ok t.id := by
  rw [childAt, List.getElem?_map, f.fill_children_get]
  rfl

/-- The page of a node. -/
theorem readBody_node (hlive : Live s img) {n : Node Int (TableTree h)}
    (hsub : TableTree.image (.node n) ⊆ img) :
    readBody n.id s = (.ok (.tableInterior ((n.map LevelTree.id).kids.map tableFormat.cell)
      (n.map LevelTree.id).last), s) :=
  readBody_live hlive (hsub (List.mem_cons_self ..))

theorem readBody_leaf (hlive : Live s img) {l : Leaf Row}
    (hsub : TableTree.image (.leaf l) ⊆ img) :
    readBody l.id s = (.ok (.tableLeaf (l.items.map Row.cell)), s) :=
  readBody_live hlive (hsub (List.mem_cons_self ..))

theorem image_child (f : Frame Int (TableTree h)) (t : TableTree h) :
    t.image ⊆ TableTree.image (.node (f.fill t)) := by
  intro p hp
  exact (Ctx.image_fill tableFormat.layout f t).mem_iff.mpr (List.mem_append_right _ hp)

/-- Where a descent for `k` ends. -/
structure Reached (k : Int) {H : Nat} (T : TableTree H) (c : Ctx Row Int 0) (l : Leaf Row) :
    Prop where
  plug : c.plug (.leaf l) = ⟨H, T⟩
  before : ∀ a ∈ c.inorderBefore, atOrBehind k a = false
  after : ∀ a ∈ c.inorderAfter, atOrBehind k a = true

theorem findLeafFrom_spec {H : Nat} {T : TableTree H} (hlive : Live s img) {t : TableTree h}
    {c : Ctx Row Int h} {fuel : Nat} (hfuel : h < fuel) (hplug : c.plug t = ⟨H, T⟩)
    (hsub : t.image ⊆ img) (hmono : Monotone (atOrBehind k) t.inorder)
    (hbefore : ∀ a ∈ c.inorderBefore, atOrBehind k a = false)
    (hafter : ∀ a ∈ c.inorderAfter, atOrBehind k a = true) :
    ∃ c' l, Reached k T c' l ∧ BTree.findLeafFrom k fuel t.id c.path s =
      (.ok ((l.id, leafSlot k l.items) :: c'.path),
        s) := by
  induction h generalizing fuel with
  | zero =>
      obtain ⟨fuel, rfl⟩ : ∃ n, fuel = n + 1 := ⟨fuel - 1, by omega⟩
      obtain ⟨l, hl⟩ := t.exists_leaf
      rw [hl] at hplug hsub ⊢
      refine ⟨c, l, ⟨hplug, hbefore, hafter⟩, ?_⟩
      rw [BTree.findLeafFrom, LevelTree.id_leaf, bind_of_ok (readBody_leaf hlive hsub)]
      simp only
      rw [leafSlot_eq]
      rfl
  | succ h ih =>
      obtain ⟨fuel, rfl⟩ : ∃ n, fuel = n + 1 := ⟨fuel - 1, by omega⟩
      obtain ⟨n, hn⟩ := t.exists_node
      rw [hn] at hplug hsub hmono ⊢
      obtain ⟨f, child, rfl, hslot⟩ := exists_frame_lowerBound _ n
      obtain ⟨hpre, hpost⟩ := frame_lowerBound hslot hmono
      have hchild := @ih child (.inside f c) fuel (by omega) hplug
        (fun p hp => hsub (image_child f child hp)) ?_ ?_ ?_
      · obtain ⟨c', l, hreached, hfind⟩ := hchild
        refine ⟨c', l, hreached, ?_⟩
        rw [BTree.findLeafFrom, LevelTree.id_node, bind_of_ok (readBody_node hlive hsub)]
        simp only
        rw [interiorSlot_eq, ← hslot, children_eq, childAt_fill]
        exact hfind
      · rw [inorder_fill] at hmono
        exact hmono.of_sublist ((List.sublist_append_right _ _).trans (List.sublist_append_left _ _))
      · intro a ha
        rw [inorderBefore_inside] at ha
        rcases List.mem_append.mp ha with ha | ha
        · exact hbefore a ha
        · exact hpre a ha
      · intro a ha
        rw [inorderAfter_inside] at ha
        rcases List.mem_append.mp ha with ha | ha
        · exact hpost a ha
        · exact hafter a ha

/-- `_find_leaf` in a stored table tree. -/
theorem findLeaf_spec {root : Nat} {others : Image} {t : TableTree h}
    (ht : TableAt s root others t) (k : Int) :
    ∃ c l, Reached k t c l ∧ BTree.findLeaf root k s =
      (.ok ((l.id, leafSlot k l.items) :: c.path),
        s) := by
  have hheight := t.height_lt_image tableFormat.layout
  have hlen := ht.live.length_lt
  have himage : (t.image ++ others).length = (LevelTree.image tableFormat.layout t).length +
      others.length := List.length_append
  rw [BTree.findLeaf, bind_of_ok (state_apply s), ← ht.root]
  exact findLeafFrom_spec (c := .root) ht.live (by omega) rfl (List.subset_append_left _ _)
    (ht.ascending.monotone k) (fun a ha => by cases ha) (fun a ha => by cases ha)

end Descend

/-! ## Around a reached leaf -/

theorem Ascending.insert {xs ys : List (Row ⊕ Int)} {a : Row ⊕ Int} (h : Ascending (xs ++ ys))
    (hxs : ∀ b ∈ xs, place b < place a) (hys : ∀ b ∈ ys, place a < place b) :
    Ascending (xs ++ a :: ys) := by
  obtain ⟨hleft, hright, hcross⟩ := List.pairwise_append.mp h
  refine List.pairwise_append.mpr ⟨hleft, List.pairwise_cons.mpr ⟨hys, hright⟩, ?_⟩
  intro b hb d hd
  rcases List.mem_cons.mp hd with rfl | hd
  · exact hxs b hb
  · exact hcross b hb d hd

/-- A separator behind the last row of a left half. -/
theorem Ascending.divider {xs ys : List (Row ⊕ Int)} {left right : List Row} {row : Row}
    (h : Ascending (xs ++ ((left ++ [row]) ++ right).map .inl ++ ys)) (hright : right ≠ []) :
    Ascending (xs ++ ((left ++ [row]).map .inl ++ .inr row.rowid :: right.map .inl) ++ ys) := by
  obtain ⟨next, rest, rfl⟩ := List.exists_cons_of_ne_nil hright
  have hrow : place (.inl row) = 2 * row.rowid := rfl
  have hnext : place (.inl next) = 2 * next.rowid := rfl
  have hsep : place (.inr row.rowid) = 2 * row.rowid + 1 := rfl
  simp only [List.map_append, List.map_cons, List.map_nil, List.append_assoc, List.cons_append,
    List.nil_append] at h ⊢
  rw [← List.append_assoc] at h
  obtain ⟨-, htail, hcross⟩ := List.pairwise_append.mp h
  obtain ⟨hfirst, htail⟩ := List.pairwise_cons.mp htail
  have hlt := hfirst _ (List.mem_cons_self ..)
  have hsplit : xs ++ (left.map Sum.inl ++ Sum.inl row :: Sum.inr row.rowid :: Sum.inl next ::
      (rest.map Sum.inl ++ ys)) = (xs ++ left.map Sum.inl ++ [Sum.inl row]) ++
        Sum.inr row.rowid :: (Sum.inl next :: (rest.map Sum.inl ++ ys)) := by
    simp only [List.append_assoc, List.cons_append, List.nil_append]
  rw [hsplit]
  refine Ascending.insert ?_ (fun a ha => ?_) fun a ha => ?_
  · simp only [List.append_assoc, List.cons_append, List.nil_append] at h ⊢
    exact h
  · rcases List.mem_append.mp ha with ha | ha
    · have := hcross a ha _ (List.mem_cons_self ..)
      omega
    · rw [List.mem_singleton.mp ha]
      omega
  · rcases List.mem_cons.mp ha with rfl | ha
    · omega
    · have := (List.pairwise_cons.mp htail).1 a ha
      omega

namespace Reached

variable {k : Int} {H : Nat} {T : TableTree H} {c : Ctx Row Int 0} {l : Leaf Row}

theorem walk (hr : Reached k T c l) {β : Type} (f : List Row → List β) (g : Int → List β) :
    T.walk f g = c.before f g ++ f l.items ++ c.after f g := by
  have hwalk := c.walk_plug f g (.leaf l)
  rwa [hr.plug] at hwalk

theorem inorder (hr : Reached k T c l) :
    T.inorder = c.inorderBefore ++ l.items.map .inl ++ c.inorderAfter :=
  hr.walk _ _

theorem items (hr : Reached k T c l) : T.items = c.itemsBefore ++ l.items ++ c.itemsAfter :=
  hr.walk _ _

theorem image (hr : Reached k T c l) :
    T.image.Perm (c.image tableFormat.layout l.id ++ TableTree.image (.leaf l)) := by
  have himage := c.image_plug tableFormat.layout (.leaf l)
  rwa [hr.plug] at himage

theorem id (hr : Reached k T c l) : T.id = c.rootId l.id := by
  have hid := c.id_plug (.leaf l)
  rwa [hr.plug] at hid

theorem leaves (hr : Reached k T c l) :
    T.leaves = c.before (fun rows => [rows]) (fun _ => []) ++ [l.items] ++
      c.after (fun rows => [rows]) fun _ => [] :=
  hr.walk _ _

/-- Only the root has no page above it. -/
theorem isRoot {s : PageStore} {root : Nat} {others : Image} (ht : TableAt s root others T)
    (hr : Reached k T c l) : l.id = root ↔ c.path = [] := by
  rw [← ht.root, hr.id]
  constructor
  · intro hid
    by_contra hne
    have hmem := c.rootId_mem tableFormat.layout l.id hne
    have hnodup := (hr.image.map Prod.fst).nodup_iff.mp (ht.live.forget_right.ids_nodup)
    rw [List.map_append] at hnodup
    exact (List.nodup_append.mp hnodup).2.2 _ hmem l.id (List.mem_cons_self ..) hid.symm
  · intro hpath
    cases c with
    | root => rfl
    | inside f up => cases hpath

/-- The other leaves are not empty. -/
theorem siblings_filled {s : PageStore} {root : Nat} {others : Image} (ht : TableAt s root others T)
    (hr : Reached k T c l) : ∀ x ∈ c.before (fun rows => [rows]) (fun _ => []) ++
      c.after (fun rows => [rows]) (fun _ => []), x ≠ [] := by
  intro x hx
  rcases ht.filled with hheight | hleaves
  · cases c with
    | root => cases hx
    | inside f up =>
        have hle := up.le_plug (.node (f.fill (.leaf l)))
        have hplug : up.plug (.node (f.fill (.leaf l))) = ⟨H, T⟩ := hr.plug
        rw [hplug] at hle
        exact absurd hheight (Nat.ne_of_gt hle)
  · rw [hr.leaves] at hleaves
    refine hleaves x ?_
    rcases List.mem_append.mp hx with hx | hx
    · exact List.mem_append_left _ (List.mem_append_left _ hx)
    · exact List.mem_append_right _ hx

/-- The pages around the leaf. -/
theorem celled_ctx (hr : Reached k T c l) (hbranching : Branching T) :
    Celled (c.image tableFormat.layout l.id) := by
  rcases hbranching with hheight | hcelled
  · have hroot := Ctx.eq_root_of_plug hr.plug hheight
    cases c with
    | root => exact fun p hp => by cases hp
    | inside f up => cases hroot
  · exact fun p hp => hcelled p (hr.image.mem_iff.mpr (List.mem_append_left _ hp))

theorem before_lt (hr : Reached k T c l) : ∀ a ∈ c.inorderBefore, place a < 2 * k := by
  intro a ha
  have hfalse := hr.before a ha
  rw [← Bool.not_eq_true, atOrBehind_iff] at hfalse
  omega

/-- What follows the leaf starts with a separator, so it lies strictly behind. -/
theorem lt_after (hr : Reached k T c l) (hasc : Ascending T.inorder) :
    ∀ a ∈ c.inorderAfter, 2 * k < place a := by
  have hafter := hr.after
  rw [hr.inorder] at hasc
  have hright := (List.pairwise_append.mp hasc).2.1
  rcases hlist : c.inorderAfter with _ | ⟨a, rest⟩
  · intro b hb
    cases hb
  · obtain ⟨d, rfl⟩ := c.inorderAfter_head hlist
    rw [hlist] at hafter hright
    have hd := (atOrBehind_iff k (.inr d)).mp (hafter _ (List.mem_cons_self ..))
    have hplace : place (.inr d) = 2 * d + 1 := rfl
    intro b hb
    rcases List.mem_cons.mp hb with rfl | hb
    · omega
    · have := (List.pairwise_cons.mp hright).1 b hb
      omega

theorem itemsBefore_lt (hr : Reached k T c l) : ∀ r ∈ c.itemsBefore, r.rowid < k := by
  intro r hmem
  rw [Ctx.itemsBefore_eq] at hmem
  obtain ⟨a, ha, hleft⟩ := List.mem_filterMap.mp hmem
  cases a with
  | inl row =>
      obtain rfl := Option.some.inj hleft
      have : 2 * row.rowid < 2 * k := hr.before_lt _ ha
      omega
  | inr d => cases hleft

theorem lt_itemsAfter (hr : Reached k T c l) (hasc : Ascending T.inorder) :
    ∀ r ∈ c.itemsAfter, k < r.rowid := by
  intro r hmem
  rw [Ctx.itemsAfter_eq] at hmem
  obtain ⟨a, ha, hleft⟩ := List.mem_filterMap.mp hmem
  cases a with
  | inl row =>
      obtain rfl := Option.some.inj hleft
      have : 2 * k < 2 * row.rowid := hr.lt_after hasc _ ha
      omega
  | inr d => cases hleft

/-- A row with the rowid is in the leaf. -/
theorem mem_leaf (hr : Reached k T c l) (hasc : Ascending T.inorder) {r : Row} (hmem : r ∈ T.items)
    (hrowid : r.rowid = k) : r ∈ l.items := by
  rw [hr.items] at hmem
  rcases List.mem_append.mp hmem with hmem | hmem
  · rcases List.mem_append.mp hmem with hmem | hmem
    · have hlt := hr.itemsBefore_lt r hmem
      omega
    · exact hmem
  · have hlt := hr.lt_itemsAfter hasc r hmem
    omega

/-- The slot cuts the rows of the leaf at `k`. -/
theorem slot (hr : Reached k T c l) (hasc : Ascending T.inorder) :
    let i := leafSlot k l.items
    i ≤ l.items.length ∧ (∀ r ∈ l.items.take i, r.rowid < k) ∧ ∀ r ∈ l.items.drop i, k ≤ r.rowid := by
  rw [hr.inorder] at hasc
  have hleaf := (hasc.monotone k).of_sublist
    ((List.sublist_append_right _ _).trans (List.sublist_append_left _ _))
  obtain ⟨hle, hfalse, htrue⟩ := BinarySearch.lowerBound_spec (List.pairwise_map.mp hleaf)
  refine ⟨hle, fun r hr => ?_, fun r hr => ?_⟩
  · have := hfalse r hr
    rw [atOrBehind, decide_eq_false_iff_not] at this
    omega
  · have := htrue r hr
    rwa [atOrBehind, decide_eq_true_eq] at this

theorem rows_ascending (hr : Reached k T c l) (hasc : Ascending T.inorder) :
    l.items.Pairwise fun a b => a.rowid < b.rowid := by
  rw [hr.inorder] at hasc
  have hleaf := hasc.sublist ((List.sublist_append_right _ _).trans (List.sublist_append_left _ _))
  refine (List.pairwise_map.mp hleaf).imp @fun a b hab => ?_
  have hab : 2 * a.rowid < 2 * b.rowid := hab
  omega

/-- A rowid that is not at the slot is not in the leaf. -/
theorem lt_drop (hr : Reached k T c l) (hasc : Ascending T.inorder)
    (habsent : Absent k l.items) :
    ∀ r ∈ l.items.drop (leafSlot k l.items),
      k < r.rowid := by
  obtain ⟨-, -, hge⟩ := hr.slot hasc
  have hrows := hr.rows_ascending hasc
  have habsent : ∀ r, l.items[leafSlot k l.items]? = some r → r.rowid ≠ k := habsent
  generalize leafSlot k l.items = i at habsent hge ⊢
  have hdrop := hrows.sublist (List.drop_sublist i l.items)
  have hhead : l.items[i]? = (l.items.drop i)[0]? := by rw [List.getElem?_drop, Nat.add_zero]
  rw [hhead] at habsent
  generalize l.items.drop i = rows at habsent hge hdrop ⊢
  rcases rows with _ | ⟨r, rows⟩
  · intro a ha
    cases ha
  · have hr := hge r (List.mem_cons_self ..)
    have hne := habsent r rfl
    intro a ha
    rcases List.mem_cons.mp ha with rfl | ha
    · omega
    · have := (List.pairwise_cons.mp hdrop).1 a ha
      omega

/-- The new row goes to the slot. -/
theorem insert_ascending (hr : Reached k T c l) (hasc : Ascending T.inorder)
    (habsent : Absent k l.items) (st : Stored .leafTable) :
    Ascending (c.inorderBefore ++ (BTree.insertAt l.items
      (leafSlot k l.items) ⟨k, st⟩).map .inl ++
        c.inorderAfter) := by
  have hdrop := hr.lt_drop hasc habsent
  have hafter := hr.lt_after hasc
  have hbefore := hr.before_lt
  obtain ⟨-, htake, -⟩ := hr.slot hasc
  rw [hr.inorder] at hasc
  generalize leafSlot k l.items = i at htake hdrop ⊢
  have hplace : place (.inl ⟨k, st⟩) = 2 * k := rfl
  rw [← List.take_append_drop i l.items, List.map_append] at hasc
  rw [BTree.insertAt, List.map_append, List.map_cons]
  simp only [List.append_assoc, List.cons_append] at hasc ⊢
  rw [← List.append_assoc] at hasc ⊢
  refine hasc.insert (fun a ha => ?_) fun a ha => ?_
  · rcases List.mem_append.mp ha with ha | ha
    · rw [hplace]
      exact hbefore a ha
    · obtain ⟨row, hrow, rfl⟩ := List.mem_map.mp ha
      have hlt := htake row hrow
      have hrow : place (.inl row) = 2 * row.rowid := rfl
      omega
  · rcases List.mem_append.mp ha with ha | ha
    · obtain ⟨row, hrow, rfl⟩ := List.mem_map.mp ha
      have hlt := hdrop row hrow
      have hrow : place (.inl row) = 2 * row.rowid := rfl
      omega
    · rw [hplace]
      exact hafter a ha

end Reached

end QuillDb
