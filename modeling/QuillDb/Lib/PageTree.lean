/-
  Lib/PageTree.lean --- multiway trees of numbered pages, and their contexts.

  All leaves of a tree lie at the same depth, so a tree is indexed by its height.
  A node keeps its children with the divider to the right of each, and its last
  child.  `walk` lists what a tree holds in order; `image` lists the pages that
  store it.  A context is the path from a subtree up to the root; plugging a
  subtree into it gives the whole tree back.
-/
import QuillDb.Lib.BinarySearch
import Mathlib.Data.List.Perm.Basic
import Mathlib.Tactic.Linarith

set_option autoImplicit false

namespace PageTree

variable {α δ τ τ' β C : Type}

/-! ## Leaves, nodes and trees -/

structure Leaf (α : Type) where
  id : Nat
  items : List α

/-- An interior page: its children, each with the divider that follows it, and
the last child. -/
structure Node (δ τ : Type) where
  id : Nat
  kids : List (τ × δ)
  last : τ

namespace Node

/-- What the children and the dividers list, in order. -/
def flatten (f : τ → List β) (g : δ → List β) (n : Node δ τ) : List β :=
  n.kids.flatMap (fun p => f p.1 ++ g p.2) ++ f n.last

def map (k : τ → τ') (n : Node δ τ) : Node δ τ' :=
  ⟨n.id, n.kids.map fun p => (k p.1, p.2), k n.last⟩

def dividers (n : Node δ τ) : List δ := n.kids.map Prod.snd

def children (n : Node δ τ) : List τ := n.kids.map Prod.fst ++ [n.last]

/-- Cutting a node at one of its dividers. -/
theorem flatten_cut (f : τ → List β) (g : δ → List β) {n : Node δ τ} {kids rest : List (τ × δ)}
    {x : τ} {d : δ} (h : n.kids = kids ++ (x, d) :: rest) (i j : Nat) :
    n.flatten f g = (⟨i, kids, x⟩ : Node δ τ).flatten f g ++
      (g d ++ (⟨j, rest, n.last⟩ : Node δ τ).flatten f g) := by
  simp only [flatten, h, List.flatMap_append, List.flatMap_cons, List.append_assoc]

@[simp] theorem map_id (k : τ → τ') (n : Node δ τ) : (n.map k).id = n.id := rfl

end Node

/-- A tree whose leaves lie `h` levels below its root. -/
def LevelTree (α δ : Type) : Nat → Type
  | 0 => Leaf α
  | h + 1 => Node δ (LevelTree α δ h)

namespace LevelTree

def leaf (t : Leaf α) : LevelTree α δ 0 := t

def node {h : Nat} (n : Node δ (LevelTree α δ h)) : LevelTree α δ (h + 1) := n

theorem exists_leaf (t : LevelTree α δ 0) : ∃ l, t = leaf l := ⟨t, rfl⟩

theorem exists_node {h : Nat} (t : LevelTree α δ (h + 1)) : ∃ n, t = node n := ⟨t, rfl⟩

/-- The number of the page at the root. -/
def id : {h : Nat} → LevelTree α δ h → Nat
  | 0, t => Leaf.id t
  | _ + 1, t => Node.id t

/-- What the leaves and the dividers list, in order. -/
def walk (f : List α → List β) (g : δ → List β) : {h : Nat} → LevelTree α δ h → List β
  | 0, t => f (Leaf.items t)
  | _ + 1, t => Node.flatten (walk f g) g t

/-- Items and dividers, in order. -/
def inorder {h : Nat} (t : LevelTree α δ h) : List (α ⊕ δ) :=
  t.walk (fun items => items.map .inl) fun d => [.inr d]

/-- The items of each leaf. -/
def leaves {h : Nat} (t : LevelTree α δ h) : List (List α) := t.walk (fun items => [items]) fun _ => []

/-- The items, in order. -/
def items {h : Nat} (t : LevelTree α δ h) : List α := t.walk (fun items => items) fun _ => []

section Equations

variable {h : Nat} (f : List α → List β) (g : δ → List β)

@[simp] theorem id_leaf (t : Leaf α) : (leaf t : LevelTree α δ 0).id = t.id := rfl

@[simp] theorem id_node (n : Node δ (LevelTree α δ h)) : (node n).id = n.id := rfl

@[simp] theorem walk_leaf (t : Leaf α) : (leaf t).walk f g = f t.items := rfl

@[simp] theorem walk_node (n : Node δ (LevelTree α δ h)) :
    (node n).walk f g = n.flatten (walk f g) g := rfl

theorem inorder_node (n : Node δ (LevelTree α δ h)) :
    (node n).inorder = n.flatten inorder fun d => [.inr d] := rfl

end Equations

end LevelTree

/-- How pages store a tree: the page of a leaf, the page of a node, and the
further pages that an item or a divider owns. -/
structure Layout (α δ C : Type) where
  leaf : List α → C
  node : List (Nat × δ) → Nat → C
  leafExtra : α → List (Nat × C)
  dividerExtra : δ → List (Nat × C)

/-- The page of a node, given the page numbers of its children. -/
def Layout.nodePage (L : Layout α δ C) (n : Node δ Nat) : C := L.node n.kids n.last

/-- The pages of a leaf. -/
def Layout.leafImage (L : Layout α δ C) (t : Leaf α) : List (Nat × C) :=
  (t.id, L.leaf t.items) :: t.items.flatMap L.leafExtra

/-- The pages that store a tree. -/
def LevelTree.image (L : Layout α δ C) : {h : Nat} → LevelTree α δ h → List (Nat × C)
  | 0, t => L.leafImage t
  | _ + 1, t =>
      (Node.id t, L.nodePage (Node.map LevelTree.id t)) ::
        Node.flatten (LevelTree.image L) L.dividerExtra t

@[simp] theorem LevelTree.image_leaf (L : Layout α δ C) (t : Leaf α) :
    (leaf t).image L = L.leafImage t := rfl

@[simp] theorem LevelTree.image_node (L : Layout α δ C) {h : Nat} (n : Node δ (LevelTree α δ h)) :
    (node n).image L =
      (n.id, L.nodePage (n.map LevelTree.id)) :: n.flatten (LevelTree.image L) L.dividerExtra := rfl

theorem LevelTree.id_mem_image (L : Layout α δ C) {h : Nat} (t : LevelTree α δ h) :
    t.id ∈ (t.image L).map Prod.fst := by
  cases h with
  | zero => exact List.mem_cons_self ..
  | succ h => exact List.mem_cons_self ..

theorem LevelTree.height_lt_image (L : Layout α δ C) {h : Nat} (t : LevelTree α δ h) :
    h < (t.image L).length := by
  induction h with
  | zero => exact Nat.succ_pos _
  | succ h ih =>
      obtain ⟨n, hn⟩ := exists_node t
      have hlast := ih n.last
      simp only [hn, image_node, Node.flatten, List.length_cons, List.length_append]
      omega

/-! ## One level of context -/

/-- A node with a hole where one child was. -/
structure Frame (δ τ : Type) where
  id : Nat
  pre : List (τ × δ)
  post : List (δ × τ)

/-- A child and what follows it, as kids and a last child. -/
def linkPost (x : τ) : List (δ × τ) → List (τ × δ) × τ
  | [] => ([], x)
  | (d, y) :: post => ((x, d) :: (linkPost y post).1, (linkPost y post).2)

namespace Frame

def fill (f : Frame δ τ) (x : τ) : Node δ τ :=
  ⟨f.id, f.pre ++ (linkPost x f.post).1, (linkPost x f.post).2⟩

def map (k : τ → τ') (f : Frame δ τ) : Frame δ τ' :=
  ⟨f.id, f.pre.map fun p => (k p.1, p.2), f.post.map fun p => (p.1, k p.2)⟩

/-- What comes before the hole. -/
def before (f : τ → List β) (g : δ → List β) (fr : Frame δ τ) : List β :=
  fr.pre.flatMap fun p => f p.1 ++ g p.2

/-- What comes after the hole. -/
def after (f : τ → List β) (g : δ → List β) (fr : Frame δ τ) : List β :=
  fr.post.flatMap fun p => g p.1 ++ f p.2

@[simp] theorem fill_id (f : Frame δ τ) (x : τ) : (f.fill x).id = f.id := rfl

theorem linkPost_map (k : τ → τ') (x : τ) (post : List (δ × τ)) :
    linkPost (k x) (post.map fun p => (p.1, k p.2)) =
      ((linkPost x post).1.map fun p => (k p.1, p.2), k (linkPost x post).2) := by
  induction post generalizing x with
  | nil => rfl
  | cons p post ih =>
      simp only [List.map_cons, linkPost, ih]

theorem map_fill (k : τ → τ') (f : Frame δ τ) (x : τ) : (f.fill x).map k = (f.map k).fill (k x) := by
  simp only [Node.map, fill, map, linkPost_map, List.map_append]

theorem flatten_linkPost (f : τ → List β) (g : δ → List β) (x : τ) (post : List (δ × τ)) :
    (linkPost x post).1.flatMap (fun p => f p.1 ++ g p.2) ++ f (linkPost x post).2 =
      f x ++ post.flatMap fun p => g p.1 ++ f p.2 := by
  induction post generalizing x with
  | nil => rw [linkPost, List.flatMap_nil, List.flatMap_nil, List.append_nil, List.nil_append]
  | cons p post ih =>
      simp only [linkPost, List.flatMap_cons, List.append_assoc, ih]

theorem flatten_fill (f : τ → List β) (g : δ → List β) (fr : Frame δ τ) (x : τ) :
    (fr.fill x).flatten f g = fr.before f g ++ f x ++ fr.after f g := by
  simp only [Node.flatten, fill, before, after, List.flatMap_append, List.append_assoc,
    flatten_linkPost]

theorem linkPost_length (x : τ) (post : List (δ × τ)) :
    (linkPost x post).1.length = post.length := by
  induction post generalizing x with
  | nil => rfl
  | cons p post ih => rw [linkPost, List.length_cons, List.length_cons, ih]

theorem linkPost_dividers (x : τ) (post : List (δ × τ)) :
    (linkPost x post).1.map Prod.snd = post.map Prod.fst := by
  induction post generalizing x with
  | nil => rfl
  | cons p post ih => rw [linkPost, List.map_cons, List.map_cons, ih]

theorem fill_kids_length (f : Frame δ τ) (x : τ) :
    (f.fill x).kids.length = f.pre.length + f.post.length := by
  rw [fill, List.length_append, linkPost_length]

theorem fill_dividers (f : Frame δ τ) (x : τ) :
    (f.fill x).dividers = f.pre.map Prod.snd ++ f.post.map Prod.fst := by
  rw [Node.dividers, fill, List.map_append, linkPost_dividers]

theorem linkPost_head (x : τ) (post : List (δ × τ)) :
    ((linkPost x post).1.map Prod.fst ++ [(linkPost x post).2])[0]? = some x := by
  cases post <;> rfl

/-- The child in the hole. -/
theorem fill_children_get (f : Frame δ τ) (x : τ) :
    (f.fill x).children[f.pre.length]? = some x := by
  have hhead := linkPost_head x f.post
  simp only [Node.children, fill, List.map_append, List.append_assoc]
  rw [List.getElem?_append_right (by rw [List.length_map]), List.length_map, Nat.sub_self]
  exact hhead

end Frame

/-- The first child of some kids, and what follows it. -/
def unlink : List (τ × δ) → τ → τ × List (δ × τ)
  | [], last => (last, [])
  | (x, d) :: kids, last => (x, (d, (unlink kids last).1) :: (unlink kids last).2)

theorem unlink_linkPost (x : τ) (post : List (δ × τ)) :
    unlink (linkPost x post).1 (linkPost x post).2 = (x, post) := by
  induction post generalizing x with
  | nil => rfl
  | cons p post ih => rw [linkPost, unlink, ih]

theorem linkPost_unlink (kids : List (τ × δ)) (last : τ) :
    linkPost (unlink kids last).1 (unlink kids last).2 = (kids, last) := by
  induction kids with
  | nil => rfl
  | cons p kids ih => rw [unlink, linkPost, ih]

/-- A node with the child at a slot taken out. -/
def Node.cut (n : Node δ τ) (i : Nat) : Frame δ τ × τ :=
  (⟨n.id, n.kids.take i, (unlink (n.kids.drop i) n.last).2⟩, (unlink (n.kids.drop i) n.last).1)

theorem Node.cut_fill (f : Frame δ τ) (x : τ) : (f.fill x).cut f.pre.length = (f, x) := by
  rw [Node.cut, Frame.fill, List.take_left, List.drop_left, unlink_linkPost]

/-- Any child of a node can be taken out. -/
theorem Node.exists_frame (n : Node δ τ) {i : Nat} (hi : i ≤ n.kids.length) :
    ∃ (f : Frame δ τ) (x : τ), f.fill x = n ∧ f.pre.length = i := by
  refine ⟨(n.cut i).1, (n.cut i).2, ?_, ?_⟩
  · rw [Node.cut, Frame.fill, linkPost_unlink, List.take_append_drop]
  · rw [Node.cut, List.length_take, Nat.min_eq_left hi]

/-! ## Closing a hole -/

/-- The node without its hole: the divider behind the hole goes with it, or the
one before it if the hole was last. -/
def Frame.close (f : Frame δ τ) : Option (Node δ τ) :=
  match f.post with
  | (_, y) :: post => some ⟨f.id, f.pre ++ (linkPost y post).1, (linkPost y post).2⟩
  | [] =>
      match f.pre.getLast? with
      | some (y, _) => some ⟨f.id, f.pre.dropLast, y⟩
      | none => none

theorem Frame.close_map (k : τ → τ') (f : Frame δ τ) :
    (f.map k).close = f.close.map (Node.map k) := by
  obtain ⟨id, pre, post⟩ := f
  rcases post with _ | ⟨⟨d, y⟩, post⟩
  · rcases hlast : pre.getLast? with _ | ⟨y, d⟩
    · simp only [Frame.close, Frame.map, List.map_nil, List.getLast?_map, hlast, Option.map_none]
    · simp only [Frame.close, Frame.map, List.map_nil, List.getLast?_map, hlast, Option.map_some,
        Node.map, List.map_dropLast]
  · simp only [Frame.close, Frame.map, List.map_cons, Option.map_some, Node.map, Frame.linkPost_map,
      List.map_append]

/-- A hole that closes takes one divider along. -/
theorem Frame.close_some {f : Frame δ τ} {n : Node δ τ} (h : f.close = some n) :
    n.id = f.id ∧ n.dividers.Sublist (f.pre.map Prod.snd ++ f.post.map Prod.fst) ∧
      ∃ d, ∀ (β : Type) (k : τ → List β) (g : δ → List β), ∃ xs ys,
        f.before k g ++ f.after k g = xs ++ (g d ++ ys) ∧ n.flatten k g = xs ++ ys := by
  unfold Frame.close at h
  split at h
  · rename_i d y post hpost
    obtain rfl := Option.some.inj h
    refine ⟨rfl, ?_, d, fun β k g => ⟨f.before k g, k y ++ post.flatMap fun q => g q.1 ++ k q.2, ?_, ?_⟩⟩
    · rw [Node.dividers, List.map_append, linkPost_dividers, hpost, List.map_cons]
      exact (List.sublist_cons_self _ _).append_left _
    · rw [Frame.after, hpost, List.flatMap_cons, List.append_assoc]
    · rw [Node.flatten, List.flatMap_append, List.append_assoc, flatten_linkPost]
      rfl
  · rename_i hpost
    split at h
    · rename_i y d hlast
      obtain rfl := Option.some.inj h
      have hpre : f.pre = f.pre.dropLast ++ [(y, d)] :=
        (List.dropLast_append_getLast? (y, d) hlast).symm
      refine ⟨rfl, ?_, d, fun β k g => ⟨f.pre.dropLast.flatMap (fun q => k q.1 ++ g q.2) ++ k y, [],
        ?_, ?_⟩⟩
      · rw [Node.dividers, hpost, List.map_nil, List.append_nil]
        exact (List.dropLast_sublist f.pre).map _
      · rw [Frame.before, Frame.after, hpost]
        nth_rewrite 1 [hpre]
        simp only [List.flatMap_append, List.flatMap_cons, List.flatMap_nil, List.append_nil,
          List.append_assoc]
      · rw [Node.flatten, List.append_nil]
    · cases h

theorem Frame.close_kids_length {f : Frame δ τ} {n : Node δ τ} (h : f.close = some n) :
    n.kids.length + 1 = f.pre.length + f.post.length := by
  unfold Frame.close at h
  split at h
  · rename_i d y post hpost
    obtain rfl := Option.some.inj h
    rw [List.length_append, Frame.linkPost_length, hpost, List.length_cons, Nat.add_assoc]
  · rename_i hpost
    split at h
    · rename_i y d hlast
      obtain rfl := Option.some.inj h
      have hne : 0 < f.pre.length := List.length_pos_of_mem (List.mem_of_getLast? hlast)
      rw [List.length_dropLast, hpost, List.length_nil]
      omega
    · cases h

/-- Only the hole of an only child does not close. -/
theorem Frame.close_none {f : Frame δ τ} (h : f.close = none) : f.pre = [] ∧ f.post = [] := by
  unfold Frame.close at h
  split at h
  · cases h
  · rename_i hpost
    split at h
    · cases h
    · rename_i hlast
      exact ⟨List.getLast?_eq_none_iff.mp hlast, hpost⟩

/-! ## Contexts -/

/-- The path from a subtree of height `h` up to the root, the nearest node
first. -/
inductive Ctx (α δ : Type) : Nat → Type where
  | root {h : Nat} : Ctx α δ h
  | inside {h : Nat} (f : Frame δ (LevelTree α δ h)) (up : Ctx α δ (h + 1)) : Ctx α δ h

namespace Ctx

/-- The whole tree. -/
def plug : {h : Nat} → Ctx α δ h → LevelTree α δ h → (H : Nat) × LevelTree α δ H
  | h, root, t => ⟨h, t⟩
  | _, inside f up, t => up.plug (.node (f.fill t))

/-- What the tree lists before the hole. -/
def before (f : List α → List β) (g : δ → List β) : {h : Nat} → Ctx α δ h → List β
  | _, root => []
  | _, inside fr up => up.before f g ++ fr.before (LevelTree.walk f g) g

/-- What the tree lists after the hole. -/
def after (f : List α → List β) (g : δ → List β) : {h : Nat} → Ctx α δ h → List β
  | _, root => []
  | _, inside fr up => fr.after (LevelTree.walk f g) g ++ up.after f g

/-- The page number of the whole tree's root, given the one in the hole. -/
def rootId : {h : Nat} → Ctx α δ h → Nat → Nat
  | _, root, hole => hole
  | _, inside f up, _ => up.rootId f.id

/-- The page and the slot at each level, the nearest first. -/
def path : {h : Nat} → Ctx α δ h → List (Nat × Nat)
  | _, root => []
  | _, inside f up => (f.id, f.pre.length) :: up.path

/-- The pages of a frame, given the page number in the hole. -/
def frameImage (L : Layout α δ C) {h : Nat} (f : Frame δ (LevelTree α δ h)) (hole : Nat) :
    List (Nat × C) :=
  (f.id, L.nodePage ((f.map LevelTree.id).fill hole)) ::
    (f.before (LevelTree.image L) L.dividerExtra ++ f.after (LevelTree.image L) L.dividerExtra)

/-- The pages of the tree outside the hole. -/
def image (L : Layout α δ C) : {h : Nat} → Ctx α δ h → Nat → List (Nat × C)
  | _, root, _ => []
  | _, inside f up, hole => frameImage L f hole ++ up.image L f.id

variable {h : Nat}

@[simp] theorem path_root : (root : Ctx α δ h).path = [] := by rw [path]

theorem walk_plug (f : List α → List β) (g : δ → List β) (c : Ctx α δ h) (t : LevelTree α δ h) :
    (c.plug t).2.walk f g = c.before f g ++ t.walk f g ++ c.after f g := by
  induction c with
  | root => rw [plug, before, after, List.nil_append, List.append_nil]
  | inside fr up ih =>
      rw [plug, ih, LevelTree.walk_node, fr.flatten_fill, before, after]
      simp only [List.append_assoc]

/-- A path has one page for each level above the hole. -/
theorem height_plug (c : Ctx α δ h) (t : LevelTree α δ h) : (c.plug t).1 = c.path.length + h := by
  induction c with
  | root => exact (Nat.zero_add _).symm
  | inside fr up ih =>
      rw [plug, ih, path, List.length_cons]
      omega

theorem le_plug (c : Ctx α δ h) (t : LevelTree α δ h) : h ≤ (c.plug t).1 :=
  c.height_plug t ▸ Nat.le_add_left _ _

theorem leaves_plug (c : Ctx α δ h) (t : LevelTree α δ h) :
    (c.plug t).2.leaves = c.before (fun items => [items]) (fun _ => []) ++ t.leaves ++
      c.after (fun items => [items]) fun _ => [] :=
  c.walk_plug _ _ t

theorem id_plug (c : Ctx α δ h) (t : LevelTree α δ h) : (c.plug t).2.id = c.rootId t.id := by
  induction c with
  | root => rfl
  | inside fr up ih => exact ih (.node (fr.fill t))

/-- The pages of a node, split at one child. -/
theorem image_fill (L : Layout α δ C) (f : Frame δ (LevelTree α δ h)) (t : LevelTree α δ h) :
    ((LevelTree.node (f.fill t)).image L).Perm (frameImage L f t.id ++ t.image L) := by
  have hpage : (f.fill t).map LevelTree.id = (f.map LevelTree.id).fill t.id := Frame.map_fill _ f t
  have hkids : (f.fill t).flatten (LevelTree.image L) L.dividerExtra =
      f.before (LevelTree.image L) L.dividerExtra ++ t.image L ++
        f.after (LevelTree.image L) L.dividerExtra := f.flatten_fill _ _ t
  rw [LevelTree.image_node, frameImage, hpage, hkids, List.cons_append]
  refine List.Perm.cons _ ?_
  simp only [List.append_assoc]
  exact List.Perm.append_left _ List.perm_append_comm

/-- The root of a tree is outside any hole below it. -/
theorem rootId_mem (L : Layout α δ C) (c : Ctx α δ h) (hole : Nat) (hne : c.path ≠ []) :
    c.rootId hole ∈ (c.image L hole).map Prod.fst := by
  induction c generalizing hole with
  | root => exact absurd rfl hne
  | inside fr up ih =>
      rw [image, List.map_append]
      cases up with
      | root => exact List.mem_append_left _ (List.mem_cons_self ..)
      | inside fr' up' => exact List.mem_append_right _ (ih fr.id (List.cons_ne_nil _ _))

theorem image_plug (L : Layout α δ C) (c : Ctx α δ h) (t : LevelTree α δ h) :
    ((c.plug t).2.image L).Perm (c.image L t.id ++ t.image L) := by
  induction c with
  | root => exact List.Perm.refl _
  | inside fr up ih =>
      have hfill := (image_fill L fr t).append_left (up.image L fr.id)
      refine ((ih (.node (fr.fill t))).trans hfill).trans ?_
      rw [image]
      simp only [← List.append_assoc]
      exact List.Perm.append_right _ List.perm_append_comm

section Plugged

variable {H : Nat} {T : LevelTree α δ H} {c : Ctx α δ h} {t : LevelTree α δ h}

theorem walk_of_plug (hplug : c.plug t = ⟨H, T⟩) (f : List α → List β) (g : δ → List β) :
    T.walk f g = c.before f g ++ t.walk f g ++ c.after f g := by
  have hwalk := c.walk_plug f g t
  rwa [hplug] at hwalk

theorem image_of_plug (hplug : c.plug t = ⟨H, T⟩) (L : Layout α δ C) :
    (T.image L).Perm (c.image L t.id ++ t.image L) := by
  have himage := c.image_plug L t
  rwa [hplug] at himage

theorem id_of_plug (hplug : c.plug t = ⟨H, T⟩) : T.id = c.rootId t.id := by
  have hid := c.id_plug t
  rwa [hplug] at hid

theorem height_of_plug (hplug : c.plug t = ⟨H, T⟩) : H = c.path.length + h := by
  have hheight := c.height_plug t
  rwa [hplug] at hheight

/-- A tree in a proper context has a node above it. -/
theorem eq_root_of_plug (hplug : c.plug t = ⟨H, T⟩) (hheight : H = 0) : c.path = [] := by
  cases c with
  | root => exact path_root
  | inside f up =>
      have hle := up.le_plug (.node (f.fill t))
      have hplug : up.plug (.node (f.fill t)) = ⟨H, T⟩ := hplug
      rw [hplug] at hle
      have hle : h + 1 ≤ H := hle
      omega

end Plugged

/-- Down to the last leaf of a subtree. -/
def last : {h : Nat} → Ctx α δ h → LevelTree α δ h → Ctx α δ 0
  | 0, c, _ => c
  | _ + 1, c, t => last (.inside ⟨Node.id t, Node.kids t, []⟩ c) (Node.last t)

end Ctx

/-- The last leaf. -/
def LevelTree.lastLeaf : {h : Nat} → LevelTree α δ h → Leaf α
  | 0, t => t
  | _ + 1, t => LevelTree.lastLeaf (Node.last t)

namespace Ctx

variable {h : Nat}

theorem fill_last {n : Node δ (LevelTree α δ h)} :
    (⟨n.id, n.kids, []⟩ : Frame δ (LevelTree α δ h)).fill n.last = n := by
  rw [Frame.fill, linkPost, List.append_nil]

/-- The way down goes through the same slots from anywhere. -/
theorem path_last (c c' : Ctx α δ h) (hpath : c.path = c'.path) (t : LevelTree α δ h) :
    (c.last t).path = (c'.last t).path := by
  induction h with
  | zero => exact hpath
  | succ h ih =>
      refine ih _ _ ?_ (Node.last t)
      rw [path, path, hpath]

theorem plug_last (c : Ctx α δ h) (t : LevelTree α δ h) :
    (c.last t).plug (.leaf t.lastLeaf) = c.plug t := by
  induction h with
  | zero => rfl
  | succ h ih =>
      obtain ⟨n, hn⟩ := t.exists_node
      rw [hn]
      refine (ih (.inside ⟨n.id, n.kids, []⟩ c) n.last).trans ?_
      rw [plug, fill_last]

/-- The way down to the last leaf has the same pages from anywhere. -/
theorem exists_last_image (L : Layout α δ C) (t : LevelTree α δ h) :
    ∃ way : List (Nat × C), (t.image L).Perm (way ++ L.leafImage t.lastLeaf) ∧
      ∀ c : Ctx α δ h, ((c.last t).image L t.lastLeaf.id).Perm (way ++ c.image L t.id) := by
  induction h with
  | zero => exact ⟨[], List.Perm.refl _, fun c => List.Perm.refl _⟩
  | succ h ih =>
      obtain ⟨n, hn⟩ := t.exists_node
      obtain ⟨way, himage, hway⟩ := ih n.last
      have hfill := image_fill L ⟨n.id, n.kids, []⟩ n.last
      rw [fill_last] at hfill
      rw [hn]
      refine ⟨way ++ frameImage L ⟨n.id, n.kids, []⟩ n.last.id, hfill.trans ?_, fun c => ?_⟩
      · refine (himage.append_left _).trans ?_
        rw [← List.append_assoc]
        exact List.perm_append_comm.append_right _
      · have hdown := hway (.inside ⟨n.id, n.kids, []⟩ c)
        rw [image, ← List.append_assoc] at hdown
        exact hdown

theorem before_last (f : List α → List β) (g : δ → List β) (c : Ctx α δ h) (t : LevelTree α δ h) :
    (c.last t).before f g ++ f t.lastLeaf.items = c.before f g ++ t.walk f g ∧
      (c.last t).after f g = c.after f g := by
  induction h with
  | zero => exact ⟨rfl, rfl⟩
  | succ h ih =>
      obtain ⟨n, hn⟩ := t.exists_node
      obtain ⟨hbefore, hafter⟩ := ih (.inside ⟨n.id, n.kids, []⟩ c) n.last
      rw [hn]
      refine ⟨hbefore.trans ?_, hafter⟩
      rw [before, Frame.before, LevelTree.walk_node, Node.flatten, List.append_assoc]

theorem rootId_last (c : Ctx α δ h) (t : LevelTree α δ h) :
    (c.last t).rootId t.lastLeaf.id = c.rootId t.id := by
  rw [← LevelTree.id_leaf (δ := δ), ← id_plug, plug_last, id_plug]

end Ctx

/-! ## The leaves in order -/

/-- The first leaf. -/
def LevelTree.firstLeaf : {h : Nat} → LevelTree α δ h → Leaf α
  | 0, t => t
  | _ + 1, t => LevelTree.firstLeaf (unlink (Node.kids t) (Node.last t)).1

namespace Ctx

variable {h : Nat}

/-- Down to the first leaf of a subtree. -/
def first : {h : Nat} → Ctx α δ h → LevelTree α δ h → Ctx α δ 0
  | 0, c, _ => c
  | _ + 1, c, t =>
      first (.inside ⟨Node.id t, [], (unlink (Node.kids t) (Node.last t)).2⟩ c)
        (unlink (Node.kids t) (Node.last t)).1

/-- From a subtree to the next divider and the leaf behind it. -/
def next : {h : Nat} → Ctx α δ h → LevelTree α δ h → Option (δ × Ctx α δ 0 × Leaf α)
  | _, root, _ => none
  | _, inside f up, t =>
      match f.post with
      | [] => up.next (.node (f.fill t))
      | (d, right) :: post =>
          some (d, (Ctx.inside ⟨f.id, f.pre ++ [(t, d)], post⟩ up).first right, right.firstLeaf)

theorem fill_first (n : Node δ τ) :
    (⟨n.id, [], (unlink n.kids n.last).2⟩ : Frame δ τ).fill (unlink n.kids n.last).1 = n := by
  rw [Frame.fill, linkPost_unlink, List.nil_append]

theorem plug_first (c : Ctx α δ h) (t : LevelTree α δ h) :
    (c.first t).plug (.leaf t.firstLeaf) = c.plug t := by
  induction h with
  | zero => rfl
  | succ h ih =>
      obtain ⟨n, hn⟩ := t.exists_node
      rw [hn]
      refine (ih (.inside ⟨n.id, [], (unlink n.kids n.last).2⟩ c) (unlink n.kids n.last).1).trans ?_
      rw [plug, fill_first]

theorem after_first (f : List α → List β) (g : δ → List β) (c : Ctx α δ h) (t : LevelTree α δ h) :
    f t.firstLeaf.items ++ (c.first t).after f g = t.walk f g ++ c.after f g := by
  induction h with
  | zero => rfl
  | succ h ih =>
      obtain ⟨n, hn⟩ := t.exists_node
      rw [hn]
      refine (ih (.inside ⟨n.id, [], (unlink n.kids n.last).2⟩ c) (unlink n.kids n.last).1).trans ?_
      have hnode := Frame.flatten_fill (LevelTree.walk f g) g
        ⟨n.id, [], (unlink n.kids n.last).2⟩ (unlink n.kids n.last).1
      rw [fill_first, Frame.before, List.flatMap_nil, List.nil_append] at hnode
      rw [after, LevelTree.walk_node, hnode, List.append_assoc]

theorem fill_snoc (f : Frame δ τ) {t right : τ} {d : δ} {post : List (δ × τ)}
    (hpost : f.post = (d, right) :: post) :
    (⟨f.id, f.pre ++ [(t, d)], post⟩ : Frame δ τ).fill right = f.fill t := by
  simp only [Frame.fill, hpost, linkPost, List.append_assoc, List.singleton_append]

/-- The last leaf has nothing behind it. -/
theorem after_of_next_none {c : Ctx α δ h} {t : LevelTree α δ h} (hnext : c.next t = none)
    (f : List α → List β) (g : δ → List β) : c.after f g = [] := by
  induction c with
  | root => rfl
  | inside fr up ih =>
      rw [next] at hnext
      split at hnext
      · rename_i hpost
        rw [after, Frame.after, hpost, List.flatMap_nil, List.nil_append]
        exact ih hnext
      · cases hnext

/-- The next divider and the leaf behind it come first in what follows. -/
theorem next_some {c : Ctx α δ h} {t : LevelTree α δ h} {d : δ} {c' : Ctx α δ 0} {l : Leaf α}
    (hnext : c.next t = some (d, c', l)) : c'.plug (.leaf l) = c.plug t ∧
      ∀ {β : Type} (f : List α → List β) (g : δ → List β),
        c.after f g = g d ++ (f l.items ++ c'.after f g) := by
  induction c with
  | root => cases hnext
  | inside fr up ih =>
      rw [next] at hnext
      split at hnext
      · rename_i hpost
        obtain ⟨hplug, hafter⟩ := ih hnext
        refine ⟨hplug, fun f g => ?_⟩
        rw [after, Frame.after, hpost, List.flatMap_nil, List.nil_append]
        exact hafter f g
      · rename_i e right post hpost
        obtain ⟨rfl, rfl, rfl⟩ : _ ∧ _ ∧ _ := by simpa using Option.some.inj hnext
        refine ⟨?_, fun f g => ?_⟩
        · rw [plug_first, plug, plug, fill_snoc fr hpost]
        · rw [after_first, after, after, Frame.after, Frame.after, hpost, List.flatMap_cons]
          simp only [List.append_assoc]

/-- From a subtree to the divider before it and the leaf before that. -/
def prev : {h : Nat} → Ctx α δ h → LevelTree α δ h → Option (δ × Ctx α δ 0 × Leaf α)
  | _, root, _ => none
  | _, inside f up, t =>
      match f.pre.getLast? with
      | none => up.prev (.node (f.fill t))
      | some (left, d) =>
          some (d, (Ctx.inside ⟨f.id, f.pre.dropLast, (d, t) :: f.post⟩ up).last left, left.lastLeaf)

theorem fill_unsnoc (f : Frame δ τ) {left t : τ} {d : δ} {pre : List (τ × δ)}
    (hpre : f.pre = pre ++ [(left, d)]) :
    (⟨f.id, pre, (d, t) :: f.post⟩ : Frame δ τ).fill left = f.fill t := by
  simp only [Frame.fill, hpre, linkPost, List.append_assoc, List.singleton_append]

/-- The first leaf has nothing before it. -/
theorem before_of_prev_none {c : Ctx α δ h} {t : LevelTree α δ h} (hprev : c.prev t = none)
    (f : List α → List β) (g : δ → List β) : c.before f g = [] := by
  induction c with
  | root => rfl
  | inside fr up ih =>
      rw [prev] at hprev
      split at hprev
      · rename_i hpre
        rw [before, Frame.before, List.getLast?_eq_none_iff.mp hpre, List.flatMap_nil, List.append_nil]
        exact ih hprev
      · cases hprev

/-- The divider before and the leaf before that come last in what precedes. -/
theorem prev_some {c : Ctx α δ h} {t : LevelTree α δ h} {d : δ} {c' : Ctx α δ 0} {l : Leaf α}
    (hprev : c.prev t = some (d, c', l)) : c'.plug (.leaf l) = c.plug t ∧
      ∀ {β : Type} (f : List α → List β) (g : δ → List β),
        c.before f g = (c'.before f g ++ f l.items) ++ g d := by
  induction c with
  | root => cases hprev
  | inside fr up ih =>
      rw [prev] at hprev
      split at hprev
      · rename_i hpre
        obtain ⟨hplug, hbefore⟩ := ih hprev
        refine ⟨hplug, fun f g => ?_⟩
        rw [before, Frame.before, List.getLast?_eq_none_iff.mp hpre, List.flatMap_nil, List.append_nil]
        exact hbefore f g
      · rename_i left e hpre
        obtain ⟨rfl, rfl, rfl⟩ : _ ∧ _ ∧ _ := by simpa using Option.some.inj hprev
        have hcut : fr.pre = fr.pre.dropLast ++ [(left, e)] :=
          (List.dropLast_append_getLast? _ hpre).symm
        refine ⟨?_, fun f g => ?_⟩
        · rw [plug_last, plug, plug, fill_unsnoc fr hcut]
        · rw [(before_last f g _ left).1, before, before, Frame.before, Frame.before]
          conv => lhs; rw [hcut]
          rw [List.flatMap_append, List.flatMap_singleton]
          simp only [List.append_assoc]

end Ctx

/-- Each leaf has a page. -/
theorem LevelTree.leaves_length_le (L : Layout α δ C) {h : Nat} (t : LevelTree α δ h) :
    t.leaves.length ≤ (t.image L).length := by
  induction h with
  | zero => exact Nat.succ_le_succ (Nat.zero_le _)
  | succ h ih =>
      obtain ⟨n, hn⟩ := t.exists_node
      have hkids : ∀ kids : List (LevelTree α δ h × δ),
          (kids.flatMap fun p => p.1.leaves ++ []).length ≤
            (kids.flatMap fun p => p.1.image L ++ L.dividerExtra p.2).length := by
        intro kids
        induction kids with
        | nil => exact Nat.le_refl _
        | cons p kids ihKids =>
            have hp := ih p.1
            simp only [List.flatMap_cons, List.length_append, List.length_nil] at ihKids ⊢
            omega
      have hlast := ih n.last
      have hall := hkids n.kids
      have hleaves : t.leaves = n.flatten LevelTree.leaves fun _ => [] := by rw [hn]; rfl
      rw [hleaves, hn, image_node, Node.flatten, Node.flatten]
      simp only [List.length_cons, List.length_append] at hall ⊢
      omega

/-! ## Parts of a walk -/

/-- A tree has at most as many items as its pages have room for. -/
theorem LevelTree.items_length_le (L : Layout α δ C) (room : Nat) {h : Nat} (t : LevelTree α δ h)
    (hroom : ∀ i items, (i, L.leaf items) ∈ t.image L → items.length ≤ room) :
    t.items.length ≤ (t.image L).length * room := by
  induction h with
  | zero =>
      obtain ⟨l, hl⟩ := t.exists_leaf
      have hitems := hroom l.id l.items (by rw [hl]; exact List.mem_cons_self ..)
      have hpage : 1 * room ≤ (t.image L).length * room :=
        Nat.mul_le_mul_right room (Nat.succ_le_of_lt (t.height_lt_image L))
      have hlen : t.items.length = l.items.length := by rw [hl]; rfl
      omega
  | succ h ih =>
      obtain ⟨n, hn⟩ := t.exists_node
      rw [hn, image_node] at hroom
      have hkids : ∀ kids : List (LevelTree α δ h × δ), (∀ p ∈ kids, ∀ i items,
          (i, L.leaf items) ∈ p.1.image L → items.length ≤ room) →
          (kids.flatMap fun p => p.1.items ++ []).length ≤
            (kids.flatMap fun p => p.1.image L ++ L.dividerExtra p.2).length * room := by
        intro kids hkids
        induction kids with
        | nil => exact Nat.zero_le _
        | cons p kids ihKids =>
            have hp := ih p.1 (hkids p (List.mem_cons_self ..))
            have hrest := ihKids fun q hq => hkids q (List.mem_cons_of_mem _ hq)
            simp only [List.flatMap_cons, List.length_append, List.length_nil, Nat.add_mul] at hrest ⊢
            omega
      have hlast := ih n.last fun i items hmem => hroom i items
        (List.mem_cons_of_mem _ (List.mem_append_right _ hmem))
      have hall := hkids n.kids fun p hp i items hmem => hroom i items
        (List.mem_cons_of_mem _ (List.mem_append_left _
          (List.mem_flatMap.mpr ⟨p, hp, List.mem_append_left _ hmem⟩)))
      have hitems : t.items = n.flatten LevelTree.items fun _ => [] := by rw [hn]; rfl
      rw [hitems, hn, image_node, Node.flatten, Node.flatten]
      simp only [List.length_cons, List.length_append, Nat.succ_mul, Nat.add_mul] at hall ⊢
      omega

section FlatMap

variable {γ : Type} {h : Nat} (φ : β → List γ) (f : List α → List β) (g : δ → List β)

theorem Node.flatten_flatMap (k : τ → List β) (n : Node δ τ) :
    (n.flatten k g).flatMap φ = n.flatten (fun x => (k x).flatMap φ) fun d => (g d).flatMap φ := by
  simp only [Node.flatten, List.flatMap_append, List.flatMap_assoc]

theorem LevelTree.walk_flatMap (t : LevelTree α δ h) :
    (t.walk f g).flatMap φ =
      t.walk (fun items => (f items).flatMap φ) fun d => (g d).flatMap φ := by
  induction h with
  | zero => rfl
  | succ h ih =>
      obtain ⟨n, hn⟩ := t.exists_node
      rw [hn, LevelTree.walk_node, Node.flatten_flatMap, LevelTree.walk_node]
      congr 1
      funext x
      exact ih x

theorem Ctx.before_flatMap (c : Ctx α δ h) :
    (c.before f g).flatMap φ =
      c.before (fun items => (f items).flatMap φ) fun d => (g d).flatMap φ := by
  induction c with
  | root => rfl
  | inside fr up ih =>
      simp only [Ctx.before, Frame.before, List.flatMap_append, ih, List.flatMap_assoc,
        LevelTree.walk_flatMap]

theorem Ctx.after_flatMap (c : Ctx α δ h) :
    (c.after f g).flatMap φ =
      c.after (fun items => (f items).flatMap φ) fun d => (g d).flatMap φ := by
  induction c with
  | root => rfl
  | inside fr up ih =>
      simp only [Ctx.after, Frame.after, List.flatMap_append, ih, List.flatMap_assoc,
        LevelTree.walk_flatMap]

end FlatMap

section Subset

variable {h : Nat} {f f' : List α → List β} {g : δ → List β}

theorem Node.flatten_subset {k k' : τ → List β} (hk : ∀ x, k x ⊆ k' x) (n : Node δ τ) :
    n.flatten k g ⊆ n.flatten k' g := by
  intro b hb
  rcases List.mem_append.mp hb with hb | hb
  · obtain ⟨p, hp, hb⟩ := List.mem_flatMap.mp hb
    refine List.mem_append_left _ (List.mem_flatMap.mpr ⟨p, hp, ?_⟩)
    rcases List.mem_append.mp hb with hb | hb
    · exact List.mem_append_left _ (hk p.1 hb)
    · exact List.mem_append_right _ hb
  · exact List.mem_append_right _ (hk n.last hb)

/-- A walk that lists more of the leaves. -/
theorem LevelTree.walk_subset (hf : ∀ items, f items ⊆ f' items) (t : LevelTree α δ h) :
    t.walk f g ⊆ t.walk f' g := by
  induction h with
  | zero => exact hf _
  | succ h ih =>
      obtain ⟨n, hn⟩ := t.exists_node
      rw [hn, LevelTree.walk_node, LevelTree.walk_node]
      exact Node.flatten_subset ih n

theorem Ctx.before_subset (hf : ∀ items, f items ⊆ f' items) (c : Ctx α δ h) :
    c.before f g ⊆ c.before f' g := by
  induction c with
  | root => exact List.Subset.refl _
  | inside fr up ih =>
      refine List.append_subset.mpr ⟨fun b hb => List.mem_append_left _ (ih hb), fun b hb => ?_⟩
      obtain ⟨p, hp, hb⟩ := List.mem_flatMap.mp hb
      refine List.mem_append_right _ (List.mem_flatMap.mpr ⟨p, hp, ?_⟩)
      rcases List.mem_append.mp hb with hb | hb
      · exact List.mem_append_left _ (LevelTree.walk_subset hf p.1 hb)
      · exact List.mem_append_right _ hb

theorem Ctx.after_subset (hf : ∀ items, f items ⊆ f' items) (c : Ctx α δ h) :
    c.after f g ⊆ c.after f' g := by
  induction c with
  | root => exact List.Subset.refl _
  | inside fr up ih =>
      refine List.append_subset.mpr ⟨fun b hb => ?_, fun b hb => List.mem_append_right _ (ih hb)⟩
      obtain ⟨p, hp, hb⟩ := List.mem_flatMap.mp hb
      refine List.mem_append_left _ (List.mem_flatMap.mpr ⟨p, hp, ?_⟩)
      rcases List.mem_append.mp hb with hb | hb
      · exact List.mem_append_left _ hb
      · exact List.mem_append_right _ (LevelTree.walk_subset hf p.2 hb)

end Subset

section Items

variable {h : Nat}

theorem flatMap_inl (items : List α) :
    (items.map (Sum.inl : α → α ⊕ δ)).flatMap (fun a => a.getLeft?.toList) = items := by
  rw [← List.filterMap_eq_flatMap_toList, List.filterMap_map]
  exact List.filterMap_some

/-- The items are the left entries of the inorder list. -/
theorem LevelTree.items_eq (t : LevelTree α δ h) : t.items = t.inorder.filterMap Sum.getLeft? := by
  rw [LevelTree.inorder, List.filterMap_eq_flatMap_toList, LevelTree.walk_flatMap, LevelTree.items]
  simp only [flatMap_inl]
  rfl

/-- The items before the hole. -/
def Ctx.itemsBefore (c : Ctx α δ h) : List α := c.before (fun items => items) fun _ => []

def Ctx.itemsAfter (c : Ctx α δ h) : List α := c.after (fun items => items) fun _ => []

def Ctx.inorderBefore (c : Ctx α δ h) : List (α ⊕ δ) :=
  c.before (fun items => items.map .inl) fun d => [.inr d]

def Ctx.inorderAfter (c : Ctx α δ h) : List (α ⊕ δ) :=
  c.after (fun items => items.map .inl) fun d => [.inr d]

theorem Ctx.itemsBefore_eq (c : Ctx α δ h) :
    c.itemsBefore = c.inorderBefore.filterMap Sum.getLeft? := by
  rw [Ctx.inorderBefore, List.filterMap_eq_flatMap_toList, Ctx.before_flatMap, Ctx.itemsBefore]
  simp only [flatMap_inl]
  rfl

theorem Ctx.itemsAfter_eq (c : Ctx α δ h) :
    c.itemsAfter = c.inorderAfter.filterMap Sum.getLeft? := by
  rw [Ctx.inorderAfter, List.filterMap_eq_flatMap_toList, Ctx.after_flatMap, Ctx.itemsAfter]
  simp only [flatMap_inl]
  rfl

/-- The items before the hole, leaf by leaf. -/
theorem Ctx.flatten_leavesBefore (c : Ctx α δ h) :
    (c.before (fun items => [items]) fun _ => []).flatten = c.itemsBefore := by
  rw [← List.flatMap_id, Ctx.before_flatMap, Ctx.itemsBefore]
  simp only [List.flatMap_singleton, id_eq]
  rfl

theorem Ctx.flatten_leavesAfter (c : Ctx α δ h) :
    (c.after (fun items => [items]) fun _ => []).flatten = c.itemsAfter := by
  rw [← List.flatMap_id, Ctx.after_flatMap, Ctx.itemsAfter]
  simp only [List.flatMap_singleton, id_eq]
  rfl

theorem items_plug (c : Ctx α δ h) (t : LevelTree α δ h) :
    (c.plug t).2.items = c.itemsBefore ++ t.items ++ c.itemsAfter :=
  c.walk_plug _ _ t

theorem inorder_plug (c : Ctx α δ h) (t : LevelTree α δ h) :
    (c.plug t).2.inorder = c.inorderBefore ++ t.inorder ++ c.inorderAfter :=
  c.walk_plug _ _ t

/-- What follows a hole starts with a divider. -/
theorem Ctx.inorderAfter_head (c : Ctx α δ h) {a : α ⊕ δ} {rest : List (α ⊕ δ)}
    (hafter : c.inorderAfter = a :: rest) : ∃ d, a = .inr d := by
  induction c with
  | root => cases hafter
  | inside fr up ih =>
      have hsplit : (Ctx.inside fr up).inorderAfter =
          fr.after LevelTree.inorder (fun d => [.inr d]) ++ up.inorderAfter := rfl
      rw [hsplit, Frame.after] at hafter
      rcases hpost : fr.post with _ | ⟨q, post⟩
      · rw [hpost] at hafter
        exact ih hafter
      · rw [hpost, List.flatMap_cons] at hafter
        exact ⟨q.1, (List.cons.inj hafter).1.symm⟩

end Items

/-! ## Descents by a monotone predicate -/

section Descend

variable {h : Nat} {p : α ⊕ δ → Bool}

/-- Once it holds, it holds of everything that follows. -/
def Monotone (p : β → Bool) (xs : List β) : Prop :=
  xs.Pairwise fun a b => p a = true → p b = true

theorem Monotone.of_sublist {p : β → Bool} {xs ys : List β} (h : Monotone p ys)
    (hsub : xs.Sublist ys) : Monotone p xs :=
  List.Pairwise.sublist hsub h

/-- What precedes an element where the predicate fails. -/
theorem Monotone.before_false {p : β → Bool} {xs ys : List β} {b : β}
    (h : Monotone p (xs ++ b :: ys)) (hb : p b = false) : ∀ a ∈ xs, p a = false := by
  intro a ha
  have hab := (List.pairwise_append.mp h).2.2 a ha b (List.mem_cons_self ..)
  refine Bool.eq_false_iff.mpr fun hpa => ?_
  rw [hab hpa] at hb
  cases hb

/-- What follows an element where the predicate holds. -/
theorem Monotone.after_true {p : β → Bool} {xs ys : List β} {b : β}
    (h : Monotone p (xs ++ b :: ys)) (hb : p b = true) : ∀ a ∈ ys, p a = true := by
  intro a ha
  have htail := (List.pairwise_append.mp h).2.1
  exact (List.pairwise_cons.mp htail).1 a ha hb

/-- What a whole tree lists, seen by the descents. -/
def Frame.inorderBefore (f : Frame δ (LevelTree α δ h)) : List (α ⊕ δ) :=
  f.before LevelTree.inorder fun d => [.inr d]

def Frame.inorderAfter (f : Frame δ (LevelTree α δ h)) : List (α ⊕ δ) :=
  f.after LevelTree.inorder fun d => [.inr d]

theorem inorder_fill (f : Frame δ (LevelTree α δ h)) (t : LevelTree α δ h) :
    (LevelTree.node (f.fill t)).inorder = f.inorderBefore ++ t.inorder ++ f.inorderAfter := by
  rw [LevelTree.inorder_node, Frame.flatten_fill, Frame.inorderBefore, Frame.inorderAfter]

theorem inorderBefore_inside (f : Frame δ (LevelTree α δ h)) (up : Ctx α δ (h + 1)) :
    (Ctx.inside f up).inorderBefore = up.inorderBefore ++ f.inorderBefore := rfl

theorem inorderAfter_inside (f : Frame δ (LevelTree α δ h)) (up : Ctx α δ (h + 1)) :
    (Ctx.inside f up).inorderAfter = f.inorderAfter ++ up.inorderAfter := rfl

theorem dividers_sublist (n : Node δ (LevelTree α δ h)) :
    (n.dividers.map Sum.inr).Sublist (LevelTree.node n).inorder := by
  have hkids : ∀ kids : List (LevelTree α δ h × δ),
      ((kids.map Prod.snd).map Sum.inr).Sublist
        (kids.flatMap fun q => q.1.inorder ++ [Sum.inr q.2]) := by
    intro kids
    induction kids with
    | nil => exact List.Sublist.refl _
    | cons q kids ih =>
        rw [List.map_cons, List.map_cons, List.flatMap_cons, List.append_assoc]
        exact (List.Sublist.cons_cons _ ih).trans (List.sublist_append_right _ _)
  exact (hkids n.kids).trans (List.sublist_append_left _ _)

/-- The child at the lower bound among the dividers: what precedes it is below the
bound and what follows it is not. -/
theorem frame_lowerBound {f : Frame δ (LevelTree α δ h)} {t : LevelTree α δ h}
    (hlen : f.pre.length = BinarySearch.lowerBound (fun d => p (.inr d)) (f.fill t).dividers)
    (hmono : Monotone p (LevelTree.node (f.fill t)).inorder) :
    (∀ a ∈ f.inorderBefore, p a = false) ∧ ∀ a ∈ f.inorderAfter, p a = true := by
  have hdividers : (f.fill t).dividers.Pairwise fun a b => p (.inr a) = true → p (.inr b) = true :=
    List.pairwise_map.mp (hmono.of_sublist (dividers_sublist (f.fill t)))
  obtain ⟨-, hfalse, htrue⟩ := BinarySearch.lowerBound_spec hdividers
  rw [← hlen] at hfalse htrue
  rw [inorder_fill] at hmono
  rw [f.fill_dividers t, List.take_left' (List.length_map _)] at hfalse
  rw [f.fill_dividers t, List.drop_left' (List.length_map _)] at htrue
  refine ⟨?_, ?_⟩
  · -- everything before the hole precedes the last divider there
    rcases List.eq_nil_or_concat f.pre with hnil | ⟨pre, q, hpre⟩
    · intro a ha
      rw [Frame.inorderBefore, Frame.before, hnil] at ha
      cases ha
    · have hb : f.inorderBefore =
          (pre.flatMap (fun q => q.1.inorder ++ [Sum.inr q.2]) ++ q.1.inorder) ++ [Sum.inr q.2] := by
        rw [Frame.inorderBefore, Frame.before, hpre, List.concat_eq_append, List.flatMap_append,
          List.flatMap_singleton, List.append_assoc]
      have hq : p (.inr q.2) = false := hfalse _ (List.mem_map.mpr ⟨q, by
        rw [hpre, List.concat_eq_append]
        exact List.mem_append_right _ (List.mem_singleton_self q), rfl⟩)
      rw [hb]
      rw [hb, List.append_assoc, List.append_assoc] at hmono
      intro a ha
      rcases List.mem_append.mp ha with ha | ha
      · exact hmono.before_false hq a ha
      · rwa [List.mem_singleton.mp ha]
  · rcases hpost : f.post with _ | ⟨q, post⟩
    · intro a ha
      rw [Frame.inorderAfter, Frame.after, hpost] at ha
      cases ha
    · have hb : f.inorderAfter = Sum.inr q.1 ::
          (q.2.inorder ++ post.flatMap fun q => Sum.inr q.1 :: q.2.inorder) := by
        rw [Frame.inorderAfter, Frame.after, hpost, List.flatMap_cons]
        rfl
      have hq : p (.inr q.1) = true := htrue _ (by
        rw [hpost, List.map_cons]
        exact List.mem_cons_self ..)
      rw [hb] at hmono ⊢
      intro a ha
      rcases List.mem_cons.mp ha with rfl | ha
      · exact hq
      · exact hmono.after_true hq a ha

/-- One level of a descent. -/
theorem exists_frame_lowerBound (q : δ → Bool) (n : Node δ (LevelTree α δ h)) :
    ∃ (f : Frame δ (LevelTree α δ h)) (t : LevelTree α δ h), f.fill t = n ∧
      f.pre.length = BinarySearch.lowerBound q n.dividers := by
  refine Node.exists_frame n ?_
  have hle := BinarySearch.lowerBound_le q n.dividers
  rwa [Node.dividers, List.length_map] at hle

end Descend

/-! ## Trees whose dividers are items -/

section Entries

variable {h : Nat}

/-- Items and dividers, in order. -/
def LevelTree.entries {h : Nat} (t : LevelTree α α h) : List α :=
  t.walk (fun items => items) fun d => [d]

def Ctx.entriesBefore (c : Ctx α α h) : List α := c.before (fun items => items) fun d => [d]

def Ctx.entriesAfter (c : Ctx α α h) : List α := c.after (fun items => items) fun d => [d]

def Frame.entriesBefore (f : Frame α (LevelTree α α h)) : List α :=
  f.before LevelTree.entries fun d => [d]

def Frame.entriesAfter (f : Frame α (LevelTree α α h)) : List α :=
  f.after LevelTree.entries fun d => [d]

/-- An item or a divider. -/
def join : α ⊕ α → α := Sum.elim id id

theorem join_inl (items : List α) : (items.map (Sum.inl : α → α ⊕ α)).map join = items := by
  rw [List.map_map]
  exact List.map_id _

theorem LevelTree.entries_eq (t : LevelTree α α h) : t.entries = t.inorder.map join := by
  rw [List.map_eq_flatMap, LevelTree.inorder, LevelTree.walk_flatMap]
  simp only [← List.map_eq_flatMap, join_inl]
  rfl

theorem Frame.entriesBefore_eq (f : Frame α (LevelTree α α h)) :
    f.entriesBefore = f.inorderBefore.map join := by
  simp only [Frame.entriesBefore, Frame.inorderBefore, Frame.before, List.map_flatMap,
    List.map_append, LevelTree.entries_eq]
  rfl

theorem Frame.entriesAfter_eq (f : Frame α (LevelTree α α h)) :
    f.entriesAfter = f.inorderAfter.map join := by
  simp only [Frame.entriesAfter, Frame.inorderAfter, Frame.after, List.map_flatMap,
    List.map_append, LevelTree.entries_eq]
  rfl

theorem entries_plug (c : Ctx α α h) (t : LevelTree α α h) :
    (c.plug t).2.entries = c.entriesBefore ++ t.entries ++ c.entriesAfter :=
  c.walk_plug _ _ t

theorem entries_fill (f : Frame α (LevelTree α α h)) (t : LevelTree α α h) :
    (LevelTree.node (f.fill t)).entries = f.entriesBefore ++ t.entries ++ f.entriesAfter :=
  f.flatten_fill LevelTree.entries (fun d => [d]) t

theorem entriesBefore_inside (f : Frame α (LevelTree α α h)) (up : Ctx α α (h + 1)) :
    (Ctx.inside f up).entriesBefore = up.entriesBefore ++ f.entriesBefore := rfl

theorem entriesAfter_inside (f : Frame α (LevelTree α α h)) (up : Ctx α α (h + 1)) :
    (Ctx.inside f up).entriesAfter = f.entriesAfter ++ up.entriesAfter := rfl

/-- What the entries around the child at the lower bound satisfy. -/
theorem frame_entries {q : α → Bool} {f : Frame α (LevelTree α α h)} {t : LevelTree α α h}
    (hlen : f.pre.length = BinarySearch.lowerBound q (f.fill t).dividers)
    (hmono : Monotone q (LevelTree.node (f.fill t)).entries) :
    (∀ a ∈ f.entriesBefore, q a = false) ∧ ∀ a ∈ f.entriesAfter, q a = true := by
  rw [LevelTree.entries_eq] at hmono
  obtain ⟨hbefore, hafter⟩ := @frame_lowerBound _ _ _ (fun a => q (join a)) f t hlen
    (List.pairwise_map.mp hmono)
  refine ⟨fun a ha => ?_, fun a ha => ?_⟩
  · rw [Frame.entriesBefore_eq] at ha
    obtain ⟨b, hb, rfl⟩ := List.mem_map.mp ha
    exact hbefore b hb
  · rw [Frame.entriesAfter_eq] at ha
    obtain ⟨b, hb, rfl⟩ := List.mem_map.mp ha
    exact hafter b hb

theorem sublist_flatMap {f : α → List β} {xs : List α} {a : α} (ha : a ∈ xs) :
    (f a).Sublist (xs.flatMap f) := by
  obtain ⟨ys, zs, rfl⟩ := List.append_of_mem ha
  rw [List.flatMap_append, List.flatMap_cons]
  exact (List.sublist_append_left _ _).trans (List.sublist_append_right _ _)

/-- The pages that an entry owns are among those of its tree, in order. -/
theorem extra_sublist {L : Layout α α C} (hextra : L.leafExtra = L.dividerExtra)
    (t : LevelTree α α h) {a : α} (ha : a ∈ t.entries) : (L.dividerExtra a).Sublist (t.image L) := by
  induction h with
  | zero =>
      obtain ⟨l, hl⟩ := t.exists_leaf
      rw [hl] at ha ⊢
      rw [LevelTree.image_leaf, Layout.leafImage, hextra]
      exact (sublist_flatMap (f := L.dividerExtra) ha).cons _
  | succ h ih =>
      obtain ⟨n, hn⟩ := t.exists_node
      rw [hn] at ha ⊢
      rw [LevelTree.image_node]
      refine List.Sublist.cons _ ?_
      rcases List.mem_append.mp (show a ∈ n.flatten LevelTree.entries fun d => [d] from ha) with
        ha | ha
      · obtain ⟨p, hp, ha⟩ := List.mem_flatMap.mp ha
        have hkid := sublist_flatMap (f := fun p => p.1.image L ++ L.dividerExtra p.2) hp
        refine List.Sublist.trans ?_ (hkid.trans (List.sublist_append_left _ _))
        rcases List.mem_append.mp ha with ha | ha
        · exact (ih p.1 ha).trans (List.sublist_append_left _ _)
        · rw [List.mem_singleton.mp ha]
          exact List.sublist_append_right _ _
      · exact (ih n.last ha).trans (List.sublist_append_right _ _)

end Entries

end PageTree
