/-
  Lib/TreeCounts.lean --- how many items, dividers and leaves a tree has.

  Between two leaves that follow one another there is one divider.
-/
import QuillDb.Lib.PageTree
import Mathlib.Algebra.Order.BigOperators.Group.List

set_option autoImplicit false

namespace PageTree

section Counts

variable {α δ τ β β₁ β₂ : Type} {h : Nat}

/-- How many pages the leaves and the nodes take. -/
def LevelTree.nodeCount : {h : Nat} → LevelTree α δ h → Nat
  | 0, _ => 1
  | _ + 1, t => ((Node.children t).map LevelTree.nodeCount).sum + 1

theorem LevelTree.nodeCount_node (n : Node δ (LevelTree α δ h)) :
    (LevelTree.node n).nodeCount = (n.children.map LevelTree.nodeCount).sum + 1 := rfl

/-- The dividers, in order. -/
def LevelTree.dividers (t : LevelTree α δ h) : List δ := t.walk (fun _ => []) fun d => [d]

/-- What a node lists is in its children and its dividers. -/
theorem Node.length_flatten (f : τ → List β) (g : δ → List β) (n : Node δ τ) :
    (n.flatten f g).length =
      (n.children.map fun t => (f t).length).sum + (n.dividers.map fun d => (g d).length).sum := by
  obtain ⟨i, kids, last⟩ := n
  have hkids : (kids.flatMap fun p => f p.1 ++ g p.2).length =
      (kids.map fun p => (f p.1).length).sum + (kids.map fun p => (g p.2).length).sum := by
    induction kids with
    | nil => rfl
    | cons p kids ih =>
        simp only [List.flatMap_cons, List.length_append, ih, List.map_cons, List.sum_cons]
        omega
  simp only [Node.flatten, Node.children, Node.dividers, List.length_append, hkids, List.map_append, List.map_map,
    List.map_singleton, List.sum_append, List.sum_singleton, Function.comp_def]
  omega

theorem sum_map_add {xs : List β} {f g k : β → Nat} (h : ∀ x ∈ xs, f x = g x + k x) :
    (xs.map f).sum = (xs.map g).sum + (xs.map k).sum := by
  induction xs with
  | nil => rfl
  | cons x xs ih =>
      have hrest := ih fun y hy => h y (List.mem_cons_of_mem _ hy)
      have hx := h x (List.mem_cons_self ..)
      simp only [List.map_cons, List.sum_cons]
      omega

/-- What two walks list together, if they do at each leaf and each divider. -/
theorem LevelTree.length_walk_add {f : List α → List β} {f₁ : List α → List β₁} {f₂ : List α → List β₂}
    {g : δ → List β} {g₁ : δ → List β₁} {g₂ : δ → List β₂}
    (hf : ∀ items, (f items).length = (f₁ items).length + (f₂ items).length)
    (hg : ∀ d, (g d).length = (g₁ d).length + (g₂ d).length) (t : LevelTree α δ h) :
    (t.walk f g).length = (t.walk f₁ g₁).length + (t.walk f₂ g₂).length := by
  induction h with
  | zero => exact hf t.items
  | succ h ih =>
      obtain ⟨n, hn⟩ := t.exists_node
      simp only [hn, LevelTree.walk_node, Node.length_flatten]
      rw [sum_map_add fun t _ => ih t, sum_map_add fun d _ => hg d]
      omega

theorem LevelTree.length_leaves_node (n : Node δ (LevelTree α δ h)) :
    (LevelTree.node n).leaves.length = (n.children.map fun t : LevelTree α δ h => t.leaves.length).sum := by
  have hleaves : (LevelTree.node n).leaves.length =
      (n.children.map fun t : LevelTree α δ h => t.leaves.length).sum + (n.dividers.map fun _ => 0).sum :=
    Node.length_flatten (fun t : LevelTree α δ h => t.leaves) (fun _ => []) n
  simpa using hleaves

/-- One leaf more than dividers. -/
theorem LevelTree.length_leaves (t : LevelTree α δ h) : t.leaves.length = t.dividers.length + 1 := by
  induction h with
  | zero => rfl
  | succ h ih =>
      obtain ⟨n, hn⟩ := t.exists_node
      rw [hn]
      have hchildren : (n.children.map fun t : LevelTree α δ h => t.leaves.length).sum =
          (n.children.map fun t : LevelTree α δ h => t.dividers.length).sum + n.children.length := by
        rw [sum_map_add fun t _ => ih t]
        simp
      have hlength : n.children.length = n.dividers.length + 1 := by simp [Node.children, Node.dividers]
      have hdividers : (LevelTree.node n).dividers.length =
          (n.children.map fun t : LevelTree α δ h => t.dividers.length).sum + (n.dividers.map fun _ => 1).sum :=
        Node.length_flatten (fun t : LevelTree α δ h => t.dividers) (fun d => [d]) n
      rw [LevelTree.length_leaves_node, hdividers, hchildren, hlength]
      simp
      omega

/-- Items and dividers together. -/
theorem LevelTree.length_entries (t : LevelTree α α h) : t.entries.length = t.items.length + t.dividers.length :=
  t.length_walk_add (fun _ => (Nat.add_zero _).symm) fun _ => (Nat.zero_add _).symm

/-- The items of a node are those of its children. -/
theorem LevelTree.items_node (n : Node δ (LevelTree α δ h)) :
    (LevelTree.node n).items = n.children.flatMap LevelTree.items := by
  have hitems : (LevelTree.node n).items = n.flatten (fun t : LevelTree α δ h => t.items) fun _ => [] := rfl
  rw [hitems, Node.flatten, Node.children, List.flatMap_append, List.flatMap_singleton, List.flatMap_map]
  simp

/-- The items are some of the entries. -/
theorem LevelTree.items_sublist (t : LevelTree α α h) : t.items.Sublist t.entries := by
  induction h with
  | zero => exact List.Sublist.refl _
  | succ h ih =>
      obtain ⟨n, hn⟩ := t.exists_node
      have hitems : (LevelTree.node n).items = n.flatten (fun t : LevelTree α α h => t.items) fun _ => [] := rfl
      have hentries : (LevelTree.node n).entries = n.flatten (fun t : LevelTree α α h => t.entries) fun d => [d] := rfl
      rw [hn, hitems, hentries, Node.flatten, Node.flatten]
      refine List.Sublist.append ?_ (ih n.last)
      generalize n.kids = kids
      induction kids with
      | nil => exact List.Sublist.refl _
      | cons p kids ihs =>
          rw [List.flatMap_cons, List.flatMap_cons, List.append_nil]
          exact ((ih p.1).trans (List.sublist_append_left _ _)).append ihs

theorem LevelTree.height_lt_nodeCount (t : LevelTree α δ h) : h < t.nodeCount := by
  induction h with
  | zero => exact Nat.one_pos
  | succ h ih =>
      obtain ⟨n, hn⟩ := t.exists_node
      have hlast := ih n.last
      rw [hn, LevelTree.nodeCount_node, Node.children, List.map_append, List.sum_append, List.map_singleton,
        List.sum_singleton]
      omega

theorem LevelTree.nodeCount_le {C : Type} (L : Layout α δ C) (t : LevelTree α δ h) :
    t.nodeCount ≤ (t.image L).length := by
  induction h with
  | zero => exact Nat.succ_pos _
  | succ h ih =>
      obtain ⟨n, hn⟩ := t.exists_node
      have hsum : (n.children.map LevelTree.nodeCount).sum ≤
          (n.children.map fun t : LevelTree α δ h => (t.image L).length).sum :=
        List.sum_le_sum fun u _ => ih u
      rw [hn, LevelTree.nodeCount_node, LevelTree.image_node, List.length_cons, Node.length_flatten]
      omega

end Counts

end PageTree
