/-
  BTree/Lookup.lean --- the last row of a table, and a row by its rowid.

  Source: `TableCursor.last` of `quilldb/btree/cursor.py`, `BTree.search` of
  `quilldb/btree/btree.py`, and `Insert._next_rowid` of `quilldb/exec/operators.py`.
-/
import QuillDb.BTree.Reads
import QuillDb.BTree.Forest

set_option autoImplicit false

namespace QuillDb

open Prog PageStore PageTree

section Lookup

variable {s : PageStore} {root : Nat} {others img : Image} {h H : Nat} {T : TableTree H}

/-! ## The last row -/

theorem climb_last (n : Node Int (TableTree h)) (c : Ctx Row Int (h + 1)) :
    climb (.inside ⟨n.id, n.kids, []⟩ c) n.last =
      (n.id, n.kids.length, nodeBody n) :: climb c (.node n) := by
  rw [climb, Ctx.fill_last]

theorem childAt_tableLast (n : Node Int (TableTree h)) :
    childAt (n.children.map LevelTree.id) n.kids.length = .ok n.last.id := by
  have hchild := childAt_fill ⟨n.id, n.kids, []⟩ n.last
  rwa [Ctx.fill_last] at hchild

theorem lastChild_subset (n : Node Int (TableTree h)) :
    TableTree.image n.last ⊆ TableTree.image (.node n) := by
  have hchild := image_child ⟨n.id, n.kids, []⟩ n.last
  rwa [Ctx.fill_last] at hchild

theorem descendToLast_live (hlive : Live s img) {t : TableTree h} (c : Ctx Row Int h)
    (hsub : t.image ⊆ img) (hne : t.lastLeaf.items ≠ []) {fuel : Nat} (hfuel : h < fuel) :
    TableCursor.descendToLeafFrom true fuel (climb c t) t.id s =
      (.ok (position (c.last t) t.lastLeaf (t.lastLeaf.items.length - 1)), s) := by
  induction h generalizing fuel with
  | zero =>
      obtain ⟨fuel, rfl⟩ : ∃ n, fuel = n + 1 := ⟨fuel - 1, by omega⟩
      obtain ⟨l, hl⟩ := t.exists_leaf
      rw [hl] at hsub hne ⊢
      have hlast : (LevelTree.leaf l : TableTree 0).lastLeaf = l := rfl
      rw [hlast] at hne ⊢
      have hcells : l.items.map Row.cell ≠ [] := fun hnil => hne (List.map_eq_nil_iff.mp hnil)
      rw [TableCursor.descendToLeafFrom, LevelTree.id_leaf, bind_of_ok (readBody_leaf hlive hsub)]
      simp only [if_neg hcells, if_true, List.length_map]
      rfl
  | succ h ih =>
      obtain ⟨fuel, rfl⟩ : ∃ n, fuel = n + 1 := ⟨fuel - 1, by omega⟩
      obtain ⟨n, hn⟩ := t.exists_node
      rw [hn] at hsub hne ⊢
      have hdown := @ih n.last (.inside ⟨n.id, n.kids, []⟩ c)
        (fun p hp => hsub (lastChild_subset n hp)) hne fuel (by omega)
      rw [climb_last] at hdown
      have hslot : (n.children.map LevelTree.id).length - 1 = n.kids.length := by
        simp [Node.children]
      rw [TableCursor.descendToLeafFrom, LevelTree.id_node, bind_of_ok (readBody_node hlive hsub)]
      simp only [if_true]
      rw [children_eq, hslot, childAt_tableLast, bind_of_ok (lift_apply _ _)]
      exact hdown

/-- `_next_rowid` of a list of rows: one more than the last, or 1. -/
def nextOf (rows : List Row) : Int :=
  match rows.getLast? with
  | none => 1
  | some r => r.rowid + 1

theorem last_emptyLeaf {l : Leaf Row} (ht : TableAt s root others (.leaf l)) (hnil : l.items = []) :
    TableCursor.last root s = (.ok [], s) := by
  have hread := readBody_leaf ht.live (List.subset_append_left _ _)
  have hid : l.id = root := ht.root
  rw [TableCursor.last, TableCursor.descendToLeaf, bind_of_ok (state_apply s),
    TableCursor.descendToLeafFrom, ← hid, bind_of_ok hread, hnil]
  rfl

theorem last_live (ht : TableAt s root others T) (hne : T.lastLeaf.items ≠ []) :
    TableCursor.last root s =
      (.ok (position (Ctx.root.last T) T.lastLeaf (T.lastLeaf.items.length - 1)), s) := by
  rw [TableCursor.last, TableCursor.descendToLeaf, bind_of_ok (state_apply s), ← ht.root]
  exact descendToLast_live ht.live .root (List.subset_append_left _ _) hne ht.height_le

/-- The last leaf ends with the last row. -/
theorem items_getLast (hne : T.lastLeaf.items ≠ []) : T.items.getLast? = T.lastLeaf.items.getLast? := by
  have hlast := (Ctx.before_last (fun items => items) (fun _ => []) (.root : Ctx Row Int H) T).1
  rw [Ctx.before, List.nil_append] at hlast
  have hitems : T.items = T.walk (fun items => items) fun _ => [] := rfl
  rw [hitems, ← hlast, List.getLast?_append_of_ne_nil _ hne]

/-- `_next_rowid` in a stored table. -/
theorem nextRowid_live (ht : TableAt s root others T) :
    TableCursor.nextRowid root s = (.ok (nextOf T.items), s) := by
  by_cases hempty : H = 0 ∧ T.items = []
  · obtain ⟨rfl, hnil⟩ := hempty
    rw [TableCursor.nextRowid, bind_of_ok (last_emptyLeaf (l := T) ht hnil), nextOf, hnil]
    rfl
  · have hne := (ht.ends_filled fun h0 hnil => hempty ⟨h0, hnil⟩).2
    obtain ⟨rows, r, hrows⟩ := (List.eq_nil_or_concat' T.lastLeaf.items).resolve_left hne
    have hrow : T.lastLeaf.items[T.lastLeaf.items.length - 1]? = some r := by simp [hrows]
    have hrowid : TableCursor.rowid (position (Ctx.root.last T) T.lastLeaf
        (T.lastLeaf.items.length - 1)) = .ok r.rowid := by
      rw [TableCursor.rowid, cell_position hrow]
      rfl
    have hnext : nextOf T.items = r.rowid + 1 := by
      rw [nextOf, items_getLast hne, hrows, List.getLast?_concat]
    rw [TableCursor.nextRowid, bind_of_ok (last_live ht hne), hnext]
    simp only [position] at hrowid ⊢
    rw [hrowid]
    rfl

end Lookup

end QuillDb
