/-
  BTree/Promote.lean --- inserting a separator into the interior pages above.

  Source: `_promote_separator` of `quilldb/btree/btree.py` and of
  `quilldb/btree/index.py`, which differ only in the key of an interior cell; the
  key's encoding is a parameter here.

  Whatever the cascade splits, the tree it leaves lists what the old one listed,
  with the separator and its two subtrees in place of the child that split, and
  its root keeps its page number.
-/
import QuillDb.BTree.PageHeap
import QuillDb.BTree.Split
import QuillDb.Lib.PageTree

set_option autoImplicit false

namespace QuillDb

open PageTree

/-- The interior pages of one kind of tree. -/
structure InteriorFormat (κ : Type) where
  body : List (InteriorCell κ) → Nat → PageBody
  keySize : κ → Nat
  encode : Nat → κ → Except DbError (InteriorCell κ)
  cells : PageBody → Except DbError (List (InteriorCell κ))
  encode_ok : ∀ {child key c}, encode child key = .ok c → child < 2 ^ 32 ∧ c = ⟨child, key⟩
  cells_body : ∀ cs right, cells (body cs right) = .ok cs
  rightChild_body : ∀ cs right, (body cs right).rightChild = right
  cells_length : ∀ cs right, (body cs right).cellSizes.length = cs.length
  usedBytes_body : ∀ cs right, (body cs right).usedBytes =
    interiorHeaderSize + (cs.map (InteriorCell.footprint keySize)).sum

namespace InteriorFormat

variable {κ : Type} (fmt : InteriorFormat κ)

/-- Put `newLeftCell` at `childSlot` and hand the child that was there to
`rightChild`: the insert-or-swap step. -/
def place (cells : List (InteriorCell κ)) (oldRight childSlot : Nat) (newLeftCell : InteriorCell κ)
    (rightChild : Nat) : Except DbError (List (InteriorCell κ) × Nat) :=
  if childSlot = cells.length then .ok (cells ++ [newLeftCell], rightChild)
  else
    match cells[childSlot]? with
    | none => .error (.indexError "list index out of range")
    | some old => do
        let rewritten ← fmt.encode rightChild old.key
        return (cells.take childSlot ++ newLeftCell :: rewritten :: cells.drop (childSlot + 1),
          oldRight)

open Prog PageStore in
/-- `_promote_separator`; the path is given from the page at `level` up to the
root. -/
def promoteSeparator : List (Nat × Nat) → Nat → κ → Nat → StoreM Unit
  | [], _, _, _ => raise (.indexError "list index out of range")
  | (pageId, childSlot) :: ancestors, leftChild, separator, rightChild => do
      let body ← readBody pageId
      let cells ← lift (fmt.cells body)
      let newLeftCell ← lift (fmt.encode leftChild separator)
      let combined ← lift (fmt.place cells body.rightChild childSlot newLeftCell rightChild)
      if body.fits (newLeftCell.size fmt.keySize) then
        writeBody pageId (fmt.body combined.1 combined.2)
      else
        let split ← lift (splitInteriorCells fmt.keySize combined.1 combined.2
          (childSlot = cells.length))
        let newRight ← allocatePage
        initBody newRight (fmt.body split.rightCells split.rightRightChild)
        match ancestors with
        | [] =>
            -- the root keeps its number: both halves move to new pages
            let newLeft ← allocatePage
            initBody newLeft (fmt.body split.leftCells split.leftRightChild)
            let top ← lift (fmt.encode newLeft split.separator)
            writeBody pageId (fmt.body [top] newRight)
        | above :: further =>
            writeBody pageId (fmt.body split.leftCells split.leftRightChild)
            promoteSeparator (above :: further) pageId split.separator newRight

end InteriorFormat

/-- The pages of one kind of tree: `key` is how a divider is stored in a cell. -/
structure TreeFormat (α δ κ : Type) extends InteriorFormat κ where
  leafBody : List α → PageBody
  key : δ → κ
  leafExtra : α → Image
  dividerExtra : δ → Image
  key_cap : ∀ d, keySize (key d) + 6 ≤ interiorCap

namespace TreeFormat

variable {α δ κ : Type} (F : TreeFormat α δ κ)

def cell (p : Nat × δ) : InteriorCell κ := ⟨p.1, F.key p.2⟩

/-- The body of a node, given the page numbers of its children. -/
def nodeBody (n : Node δ Nat) : PageBody := F.body (n.kids.map F.cell) n.last

def layout : Layout α δ PageContent where
  leaf items := .body (F.leafBody items)
  node kids last := .body (F.body (kids.map F.cell) last)
  leafExtra := F.leafExtra
  dividerExtra := F.dividerExtra

/-- The pages of a tree. -/
abbrev image {h : Nat} (t : LevelTree α δ h) : Image := t.image F.layout

/-- The room the cells of a node take. -/
def nodeBytes (n : Node δ Nat) : Nat :=
  ((n.kids.map F.cell).map (InteriorCell.footprint F.keySize)).sum

theorem usedBytes_nodeBody (n : Node δ Nat) :
    (F.nodeBody n).usedBytes = interiorHeaderSize + F.nodeBytes n :=
  F.usedBytes_body _ _

theorem rightChild_nodeBody (n : Node δ Nat) : (F.nodeBody n).rightChild = n.last :=
  F.rightChild_body _ _

theorem nodeBody_hasCells {n : Node δ Nat} :
    (PageContent.body (F.nodeBody n)).HasCells ↔ n.kids ≠ [] := by
  have hlength := F.cells_length (n.kids.map F.cell) n.last
  rw [List.length_map] at hlength
  rw [PageContent.HasCells, nodeBody, Ne, Ne, ← List.length_eq_zero_iff, hlength,
    List.length_eq_zero_iff]

theorem footprint_le (p : Nat × δ) : (F.cell p).footprint F.keySize ≤ interiorCap := by
  have hkey := F.key_cap p.2
  have hsize : (F.cell p).footprint F.keySize = 4 + F.keySize (F.key p.2) + 2 := rfl
  omega

/-- The frame after the child in the hole split in two. -/
def split {τ : Type} (f : Frame δ τ) (d : δ) (right : τ) : Frame δ τ :=
  { f with post := (d, right) :: f.post }

theorem split_fill_kids {τ : Type} (f : Frame δ τ) (d : δ) (left right : τ) :
    ((split f d right).fill left).kids ≠ [] := by
  simp [split, Frame.fill, linkPost]

theorem nodeBytes_split (f : Frame δ Nat) (d : δ) (old left right : Nat) :
    F.nodeBytes ((split f d right).fill left) =
      F.nodeBytes (f.fill old) + (4 + F.keySize (F.key d) + 2) := by
  -- the sizes of the cells that follow do not depend on the child pointers
  have hlink : ∀ (x y : Nat) (post : List (δ × Nat)),
      (((linkPost x post).1.map F.cell).map (InteriorCell.footprint F.keySize)).sum =
        (((linkPost y post).1.map F.cell).map (InteriorCell.footprint F.keySize)).sum := by
    intro x y post
    cases post <;> rfl
  unfold nodeBytes Frame.fill split
  rw [linkPost]
  simp only [List.map_append, List.map_cons, List.sum_append, List.sum_cons]
  rw [hlink right old f.post]
  have hsize : (F.cell (left, d)).footprint F.keySize = 4 + F.keySize (F.key d) + 2 := rfl
  rw [hsize]
  omega

/-- `E` admits what the packing of a child pointer beside one of the dividers `ok` raises,
in a state with `P`. -/
structure Admits (E : DbError → PageStore → Prop) (P : PageStore → Prop) (ok : δ → Prop) : Prop where
  overflows : ∀ s, P s → E tooBig s
  encode : ∀ {child d e s}, ok d → F.encode child (F.key d) = .error e → P s → E e s

variable {E : DbError → PageStore → Prop} {P : PageStore → Prop} {ok : δ → Prop}

variable {F} in
theorem Admits.mono {P' : PageStore → Prop} (h : F.Admits E P ok) (hP : ∀ s, P' s → P s) :
    F.Admits E P' ok :=
  ⟨fun s hs => h.overflows s (hP s hs), fun hd henc hs => h.encode hd henc (hP _ hs)⟩

theorem post_encode {Q : InteriorCell κ → PageStore → Prop} {s : PageStore} {child : Nat} {d : δ}
    (hE : F.Admits E P ok) (hd : ok d) (hs : P s) (hQ : child < 2 ^ 32 → Q ⟨child, F.key d⟩ s) :
    Prog.Post (Prog.lift (F.encode child (F.key d))) s Q E := by
  refine Prog.post_lift.mpr ⟨fun c hc => ?_, fun e he => hE.encode hd he hs⟩
  obtain ⟨hsmall, rfl⟩ := F.encode_ok hc
  exact hQ hsmall

/-- Insert-or-swap turns the cells of a frame into those of the split frame. -/
theorem post_place {Q : List (InteriorCell κ) × Nat → PageStore → Prop} {s : PageStore}
    (hE : F.Admits E P ok) (hs : P s) (f : Frame δ Nat) (hok : ∀ q ∈ f.post, ok q.1) (d : δ)
    (old left right : Nat)
    (hQ : (right < 2 ^ 32 ∨ ((split f d right).fill left).last = right) →
      Q ((((split f d right).fill left).kids.map F.cell), ((split f d right).fill left).last) s) :
    Prog.Post (Prog.lift (F.place ((f.fill old).kids.map F.cell) (f.fill old).last f.pre.length
      ⟨left, F.key d⟩ right)) s Q E := by
  have hlen : ((f.fill old).kids.map F.cell).length = f.pre.length + f.post.length := by
    rw [List.length_map, f.fill_kids_length]
  unfold InteriorFormat.place
  rw [hlen]
  rcases hpost : f.post with _ | ⟨q, post⟩
  · rw [if_pos (by rw [List.length_nil, Nat.add_zero])]
    simp only [split, Frame.fill, hpost, linkPost, List.append_nil, List.map_append, List.map_cons,
      List.map_nil] at hQ ⊢
    exact hQ (.inr trivial)
  · rw [if_neg (by rw [List.length_cons]; omega)]
    have hcells : (f.fill old).kids.map F.cell =
        f.pre.map F.cell ++ F.cell (old, q.1) :: (linkPost q.2 post).1.map F.cell := by
      rw [Frame.fill, hpost, linkPost, List.map_append, List.map_cons]
    have hget : ((f.fill old).kids.map F.cell)[f.pre.length]? = some (F.cell (old, q.1)) := by
      rw [hcells, List.getElem?_append_right (by rw [List.length_map]), List.length_map, Nat.sub_self]
      rfl
    rw [hget]
    simp only
    rcases henc' : F.encode right (F.cell (old, q.1)).key with e | c
    · exact hE.encode (hok q (hpost ▸ List.mem_cons_self ..)) henc' hs
    · obtain ⟨hsmall, hc⟩ := F.encode_ok henc'
      rw [hcells, List.take_left' (by rw [List.length_map]), List.drop_append,
        List.drop_of_length_le (by rw [List.length_map]; omega), List.length_map,
        Nat.add_sub_cancel_left, hc]
      simp only [split, Frame.fill, hpost, linkPost, List.map_append, List.map_cons] at hQ ⊢
      exact hQ (.inl hsmall)

/-! ## What a promotion leaves -/

section Outcome

variable {h : Nat} (c : Ctx α δ h) (left : LevelTree α δ h) (d : δ) (right : LevelTree α δ h)

/-- The pages of the context and of the two halves of the child that split. -/
def pieces : Image :=
  c.image F.layout left.id ++ (F.image left ++ (F.dividerExtra d ++ F.image right))

/-- What the context and the halves list. -/
def spliced {β : Type} (f : List α → List β) (g : δ → List β) : List β :=
  c.before f g ++ (left.walk f g ++ (g d ++ right.walk f g)) ++ c.after f g

/-- The promotion returned: a tree with the same root that lists the old one's
content, `left`, `d` and `right` in place of the child in the hole. -/
def Promoted (lost : Residue) (img : Image) (s : PageStore) : Prop :=
  ∃ (H : Nat) (T : LevelTree α δ H), T.id = c.rootId left.id ∧
    (∀ (β : Type) (f : List α → List β) (g : δ → List β), T.walk f g = spliced c left d right f g) ∧
    (SmallBut right.id (F.pieces c left d right) → Small (F.image T)) ∧
    (Celled (F.pieces c left d right) → Celled (F.image T)) ∧ LiveBut lost s (F.image T ++ img)

/-- The promotion raised: the tree with the same root has lost a part of that. -/
def Truncated (img : Image) (s : PageStore) : Prop :=
  ∃ (H : Nat) (T : LevelTree α δ H), T.id = c.rootId left.id ∧
    (∀ (β : Type) (f : List α → List β) (g : δ → List β),
      (T.walk f g).Sublist (spliced c left d right f g)) ∧
    (SmallBut right.id (F.pieces c left d right) → Small (F.image T)) ∧
    (Celled (F.pieces c left d right) → Celled (F.image T)) ∧ Live s (F.image T ++ img)

end Outcome

theorem image_node {h : Nat} (n : Node δ (LevelTree α δ h)) :
    F.image (.node n) = (n.id, .body (F.nodeBody (n.map LevelTree.id))) ::
      n.flatten F.image F.dividerExtra := rfl

theorem image_plug_node {h : Nat} (up : Ctx α δ (h + 1)) (n : Node δ (LevelTree α δ h)) :
    (F.image (up.plug (.node n)).2).Perm (up.image F.layout n.id ++
      (n.id, .body (F.nodeBody (n.map LevelTree.id))) :: n.flatten F.image F.dividerExtra) :=
  up.image_plug F.layout (.node n)

/-- The cells of a node are cut where the node is. -/
theorem exists_cut {τ : Type} (k : τ → Nat) {n : Node δ τ} {left right : List (InteriorCell κ)}
    {c : InteriorCell κ} (h : (n.map k).kids.map F.cell = left ++ c :: right) :
    ∃ kids x d rest, n.kids = kids ++ (x, d) :: rest ∧ c = ⟨k x, F.key d⟩ ∧
      left = (kids.map fun p => (k p.1, p.2)).map F.cell ∧
      right = (rest.map fun p => (k p.1, p.2)).map F.cell := by
  rw [Node.map, List.map_map] at h
  obtain ⟨kids, tail, hkids, rfl, htail⟩ := List.map_eq_append_iff.mp h
  obtain ⟨p, rest, rfl, rfl, rfl⟩ := List.map_eq_cons_iff.mp htail
  refine ⟨kids, p.1, p.2, rest, hkids, rfl, ?_, ?_⟩
  · rw [List.map_map]
  · rw [List.map_map]

/-- An interior page that the new cell overflowed splits into halves that fit. -/
theorem exists_interior_split (f : Frame δ Nat) (d : δ) (left right : Nat)
    (hold : F.nodeBytes (f.fill left) ≤ interiorRoom)
    (hfull : interiorRoom < F.nodeBytes ((split f d right).fill left)) :
    ∃ lower c upper, ((split f d right).fill left).kids.map F.cell = lower ++ c :: upper ∧
      lower ≠ [] ∧ upper ≠ [] ∧
      (lower.map (InteriorCell.footprint F.keySize)).sum ≤ interiorRoom ∧
      (upper.map (InteriorCell.footprint F.keySize)).sum ≤ interiorRoom ∧
      splitInteriorCells F.keySize (((split f d right).fill left).kids.map F.cell)
        ((split f d right).fill left).last
        (decide (f.pre.length = ((f.fill left).kids.map F.cell).length)) =
        .ok ⟨lower, c.child, upper, ((split f d right).fill left).last, c.key⟩ := by
  have hbytes := F.nodeBytes_split f d left left right
  have hkey := F.key_cap d
  have hcap : ∀ c ∈ ((split f d right).fill left).kids.map F.cell,
      c.footprint F.keySize ≤ interiorCap := by
    intro c hc
    obtain ⟨p, -, rfl⟩ := List.mem_map.mp hc
    exact F.footprint_le p
  have happend : decide (f.pre.length = ((f.fill left).kids.map F.cell).length) = true →
      (((((split f d right).fill left).kids.map F.cell).map
        (InteriorCell.footprint F.keySize)).take
          ((((split f d right).fill left).kids.map F.cell).length - 1)).sum ≤ interiorRoom := by
    intro hlen
    rw [decide_eq_true_eq, List.length_map, f.fill_kids_length] at hlen
    have hpost : f.post = [] := List.length_eq_zero_iff.mp (by omega)
    have hkids : ((split f d right).fill left).kids = f.pre ++ [(left, d)] := by
      simp only [split, Frame.fill, linkPost, hpost]
    have hpre : (f.fill left).kids = f.pre := by
      simp only [Frame.fill, linkPost, hpost, List.append_nil]
    rw [nodeBytes, hpre] at hold
    rw [hkids, List.map_append, List.map_append, List.length_append, List.map_singleton,
      List.length_singleton, Nat.add_sub_cancel, List.take_left' (by rw [List.length_map])]
    exact hold
  obtain ⟨lower, c, upper, hcells, hlowerNe, hupperNe, hlower, hupper, hsplit⟩ :=
    splitInteriorCells_spec
    ((split f d right).fill left).last hcap hfull (by
      show F.nodeBytes ((split f d right).fill left) ≤ _
      omega) happend
  exact ⟨lower, c, upper, hcells, hlowerNe, hupperNe, hlower, hupper, hsplit⟩

theorem map_kids_ne {τ : Type} {k : τ → Nat} {i : Nat} {kids : List (τ × δ)} {x : τ}
    (h : kids ≠ []) : (Node.map k ⟨i, kids, x⟩).kids ≠ [] := by
  rw [Node.map, Ne, List.map_eq_nil_iff]
  exact h

/-! ## The cascade -/

section Cascade

variable {h : Nat} (f : Frame δ (LevelTree α δ h)) (up : Ctx α δ (h + 1)) (left : LevelTree α δ h)
  (d : δ) (right : LevelTree α δ h)

/-- The node whose child in the hole split in two. -/
def splitNode : Node δ (LevelTree α δ h) := (split f d right).fill left

/-- The pages besides the page of the node. -/
def around : Image :=
  f.before F.image F.dividerExtra ++ f.after F.image F.dividerExtra ++ up.image F.layout f.id ++
    (F.image left ++ (F.dividerExtra d ++ F.image right))

theorem walk_splitNode {β : Type} (k : List α → List β) (g : δ → List β) :
    (splitNode f left d right).flatten (LevelTree.walk k g) g =
      f.before (LevelTree.walk k g) g ++ left.walk k g ++
        ((g d ++ right.walk k g) ++ f.after (LevelTree.walk k g) g) :=
  (split f d right).flatten_fill _ _ left

theorem image_splitNode :
    (splitNode f left d right).flatten F.image F.dividerExtra =
      f.before F.image F.dividerExtra ++ F.image left ++
        ((F.dividerExtra d ++ F.image right) ++ f.after F.image F.dividerExtra) :=
  (split f d right).flatten_fill _ _ left

theorem ids_splitNode :
    (splitNode f left d right).map LevelTree.id =
      (split (f.map LevelTree.id) d right.id).fill left.id :=
  Frame.map_fill LevelTree.id (split f d right) left

variable {lost : Residue} {img : Image} {s : PageStore}

theorem pieces_inside : F.pieces (.inside f up) left d right =
    (f.id, .body (F.nodeBody ((f.map LevelTree.id).fill left.id))) :: F.around f up left d right :=
  rfl

/-- The node took the new cell. -/
theorem promoted_placed (hright : right.id < 2 ^ 32) (hlive : LiveBut lost s
      ((f.id, .body (F.nodeBody ((splitNode f left d right).map LevelTree.id))) ::
        F.around f up left d right ++ img)) :
    F.Promoted (.inside f up) left d right lost img s := by
  have hid : (splitNode f left d right).id = f.id := rfl
  have himage : (F.image (up.plug (.node (splitNode f left d right))).2).Perm
      ((f.id, .body (F.nodeBody ((splitNode f left d right).map LevelTree.id))) ::
        F.around f up left d right) := by
    refine (F.image_plug_node up _).trans ?_
    rw [image_splitNode, hid, around, List.perm_iff_count]
    intro p
    simp only [List.count_append, List.count_cons]
    omega
  refine ⟨_, (up.plug (.node (splitNode f left d right))).2, ?_, fun β k g => ?_,
    fun hsmall i hi => ?_, fun hcelled p hp => ?_, hlive.perm (himage.append_right img).symm⟩
  · rw [up.id_plug]
    rfl
  · rw [up.walk_plug, LevelTree.walk_node, walk_splitNode, spliced, Ctx.before, Ctx.after]
    simp only [List.append_assoc]
  · exact hsmall.small hright i ((himage.map Prod.fst).mem_iff.mp hi)
  · rcases List.mem_cons.mp (himage.mem_iff.mp hp) with rfl | hp
    · rw [ids_splitNode]
      exact F.nodeBody_hasCells.mpr (split_fill_kids _ _ _ _)
    · exact hcelled p (List.mem_cons_of_mem _ hp)

variable {kids more : List (LevelTree α δ h × δ)} {x : LevelTree α δ h} {dm : δ}

/-- The node was the root and split: both halves have new pages. -/
theorem promoted_root (newLeft newRight : Nat) (hright : right.id < 2 ^ 32)
    (hnewLeft : newLeft < 2 ^ 32) (hnewRight : newRight < 2 ^ 32)
    (hkids : (splitNode f left d right).kids = kids ++ (x, dm) :: more) (hlower : kids ≠ [])
    (hupper : more ≠ [])
    (hlive : LiveBut lost s ((f.id, .body (F.nodeBody ⟨f.id, [(newLeft, dm)], newRight⟩)) ::
      (newLeft, .body (F.nodeBody (Node.map LevelTree.id ⟨newLeft, kids, x⟩))) ::
      (newRight, .body (F.nodeBody (Node.map LevelTree.id
        ⟨newRight, more, (splitNode f left d right).last⟩))) ::
      F.around f .root left d right ++ img)) :
    F.Promoted (.inside f .root) left d right lost img s := by
  generalize hlo : (⟨newLeft, kids, x⟩ : Node δ (LevelTree α δ h)) = lo at hlive
  generalize hhi : (⟨newRight, more, (splitNode f left d right).last⟩ :
    Node δ (LevelTree α δ h)) = hi at hlive
  have hloId : lo.id = newLeft := by rw [← hlo]
  have hhiId : hi.id = newRight := by rw [← hhi]
  have himage : (F.image (.node ⟨f.id, [(LevelTree.node lo, dm)], LevelTree.node hi⟩)).Perm
      ((f.id, .body (F.nodeBody ⟨f.id, [(newLeft, dm)], newRight⟩)) ::
        (newLeft, .body (F.nodeBody (lo.map LevelTree.id))) ::
        (newRight, .body (F.nodeBody (hi.map LevelTree.id))) :: F.around f .root left d right) := by
    have hcut := Node.flatten_cut F.image F.dividerExtra hkids newLeft newRight
    rw [hlo, hhi, image_splitNode] at hcut
    have htop : F.image (.node ⟨f.id, [(LevelTree.node lo, dm)], LevelTree.node hi⟩) =
        (f.id, .body (F.nodeBody ⟨f.id, [(newLeft, dm)], newRight⟩)) ::
          (((newLeft, .body (F.nodeBody (lo.map LevelTree.id))) ::
            lo.flatten F.image F.dividerExtra ++ F.dividerExtra dm) ++
            (newRight, .body (F.nodeBody (hi.map LevelTree.id))) ::
              hi.flatten F.image F.dividerExtra) := by
      rw [image_node, ← hloId, ← hhiId]
      simp only [Node.flatten, List.flatMap_cons, List.flatMap_nil, List.append_nil, image_node]
      rfl
    rw [htop, around, List.perm_iff_count]
    intro p
    have hcount := congrArg (List.count p) hcut
    simp only [List.count_append, List.count_cons, Ctx.image, List.count_nil] at hcount ⊢
    omega
  refine ⟨_, .node ⟨f.id, [(.node lo, dm)], .node hi⟩, rfl, fun β k g => ?_,
    fun hsmall i hi => ?_, fun hcelled p hp => ?_, hlive.perm (himage.append_right img).symm⟩
  · have hcut := Node.flatten_cut (LevelTree.walk k g) g hkids newLeft newRight
    rw [hlo, hhi, walk_splitNode] at hcut
    have htop : (LevelTree.node ⟨f.id, [(LevelTree.node lo, dm)], LevelTree.node hi⟩).walk k g =
        lo.flatten (LevelTree.walk k g) g ++ (g dm ++ hi.flatten (LevelTree.walk k g) g) := by
      simp only [LevelTree.walk_node, Node.flatten, List.flatMap_cons, List.flatMap_nil,
        List.append_nil, List.append_assoc]
    rw [htop, ← hcut, spliced]
    simp only [Ctx.before, Ctx.after, List.nil_append, List.append_nil, List.append_assoc]
  · -- every page is an old one or one of the two new ones
    have hold := hsmall.small hright
    rcases List.mem_cons.mp ((himage.map Prod.fst).mem_iff.mp hi) with rfl | hi
    · exact hold _ (List.mem_cons_self ..)
    · rcases List.mem_cons.mp hi with rfl | hi
      · exact hnewLeft
      · rcases List.mem_cons.mp hi with rfl | hi
        · exact hnewRight
        · exact hold i (List.mem_cons_of_mem _ hi)
  · rcases List.mem_cons.mp (himage.mem_iff.mp hp) with rfl | hp
    · exact F.nodeBody_hasCells.mpr (List.cons_ne_nil _ _)
    · rcases List.mem_cons.mp hp with rfl | hp
      · rw [← hlo]
        exact F.nodeBody_hasCells.mpr (map_kids_ne hlower)
      · rcases List.mem_cons.mp hp with rfl | hp
        · rw [← hhi]
          exact F.nodeBody_hasCells.mpr (map_kids_ne hupper)
        · exact hcelled p (List.mem_cons_of_mem _ hp)

/-- A leaf that was the root has split. -/
theorem promoted_root_leaf {id newLeft newRight : Nat} {left right : List α} {d : δ}
    (hnewLeft : newLeft < 2 ^ 32) (hnewRight : newRight < 2 ^ 32)
    (hlive : LiveBut lost s ((id, .body (F.nodeBody ⟨id, [(newLeft, d)], newRight⟩)) ::
      (newLeft, .body (F.leafBody left)) :: (newRight, .body (F.leafBody right)) ::
        (left.flatMap F.leafExtra ++ (F.dividerExtra d ++ right.flatMap F.leafExtra) ++ img))) :
    F.Promoted .root (.leaf ⟨id, left⟩) d (.leaf ⟨newRight, right⟩) lost img s := by
  have himage : F.image (.node ⟨id, [(.leaf ⟨newLeft, left⟩, d)], .leaf ⟨newRight, right⟩⟩) =
      (id, .body (F.nodeBody ⟨id, [(newLeft, d)], newRight⟩)) ::
        ((((newLeft, .body (F.leafBody left)) :: left.flatMap F.leafExtra) ++ F.dividerExtra d ++ []) ++
          ((newRight, .body (F.leafBody right)) :: right.flatMap F.leafExtra)) := rfl
  have hpieces : F.pieces .root (.leaf ⟨id, left⟩) d (.leaf ⟨newRight, right⟩) =
      ((id, .body (F.leafBody left)) :: left.flatMap F.leafExtra) ++ (F.dividerExtra d ++
        ((newRight, .body (F.leafBody right)) :: right.flatMap F.leafExtra)) := rfl
  refine ⟨1, .node ⟨id, [(.leaf ⟨newLeft, left⟩, d)], .leaf ⟨newRight, right⟩⟩, rfl,
    fun β f g => ?_, fun hsmall => ?_, fun hcelled => ?_, hlive.perm ?_⟩
  · simp only [LevelTree.walk_node, Node.flatten, List.flatMap_cons, List.flatMap_nil,
      LevelTree.walk_leaf, spliced, Ctx.before, Ctx.after, List.append_nil, List.nil_append,
      List.append_assoc]
  · have hold := hsmall.small hnewRight
    rw [hpieces] at hold
    rw [himage]
    simp only [Small, List.map_cons, List.map_append, List.map_nil, List.mem_cons, List.mem_append,
      List.not_mem_nil, or_false] at hold ⊢
    rintro i (rfl | ((rfl | hi) | hi) | rfl | hi)
    · exact hold _ (.inl (.inl rfl))
    · exact hnewLeft
    · exact hold i (.inl (.inr hi))
    · exact hold i (.inr (.inl hi))
    · exact hnewRight
    · exact hold i (.inr (.inr (.inr hi)))
  · -- the two leaves have the cells they had
    rw [hpieces] at hcelled
    rw [himage]
    simp only [Celled, List.mem_cons, List.mem_append, List.not_mem_nil, or_false] at hcelled ⊢
    rintro p (rfl | ((rfl | hp) | hp) | rfl | hp)
    · exact F.nodeBody_hasCells.mpr (List.cons_ne_nil _ _)
    · exact hcelled (id, .body (F.leafBody left)) (.inl (.inl rfl))
    · exact hcelled p (.inl (.inr hp))
    · exact hcelled p (.inr (.inl hp))
    · exact hcelled _ (.inr (.inr (.inl rfl)))
    · exact hcelled p (.inr (.inr (.inr hp)))
  · rw [himage, List.perm_iff_count]
    intro p
    simp only [List.count_append, List.count_cons, List.count_nil]
    omega

/-- The halves of a node that split below another one. -/
theorem pieces_inner (newRight : Nat)
    (hkids : (splitNode f left d right).kids = kids ++ (x, dm) :: more) :
    (F.pieces up (.node ⟨f.id, kids, x⟩) dm
      (.node ⟨newRight, more, (splitNode f left d right).last⟩)).Perm
    ((f.id, .body (F.nodeBody (Node.map LevelTree.id ⟨f.id, kids, x⟩))) ::
      (newRight, .body (F.nodeBody (Node.map LevelTree.id
        ⟨newRight, more, (splitNode f left d right).last⟩))) :: F.around f up left d right) := by
  have hcut := Node.flatten_cut F.image F.dividerExtra hkids f.id newRight
  rw [image_splitNode] at hcut
  rw [pieces, around, image_node, image_node, List.perm_iff_count]
  intro p
  have hcount := congrArg (List.count p) hcut
  simp only [LevelTree.id_node, List.count_append, List.count_cons] at hcount ⊢
  omega

theorem smallBut_inner (newRight : Nat) (hright : right.id < 2 ^ 32)
    (hkids : (splitNode f left d right).kids = kids ++ (x, dm) :: more)
    (hsmall : SmallBut right.id (F.pieces (.inside f up) left d right)) :
    SmallBut newRight (F.pieces up (.node ⟨f.id, kids, x⟩) dm
      (.node ⟨newRight, more, (splitNode f left d right).last⟩)) := by
  have hpieces := (F.pieces_inner f up left d right newRight hkids).map Prod.fst
  have hold := hsmall.small hright
  intro i hi hne
  rcases List.mem_cons.mp (hpieces.mem_iff.mp hi) with rfl | hi
  · exact hold _ (List.mem_cons_self ..)
  · rcases List.mem_cons.mp hi with rfl | hi
    · exact absurd rfl hne
    · exact hold i (List.mem_cons_of_mem _ hi)

theorem celled_inner (newRight : Nat)
    (hkids : (splitNode f left d right).kids = kids ++ (x, dm) :: more) (hlower : kids ≠ [])
    (hupper : more ≠ []) (hcelled : Celled (F.pieces (.inside f up) left d right)) :
    Celled (F.pieces up (.node ⟨f.id, kids, x⟩) dm
      (.node ⟨newRight, more, (splitNode f left d right).last⟩)) := by
  intro p hp
  rcases List.mem_cons.mp ((F.pieces_inner f up left d right newRight hkids).mem_iff.mp hp) with
    rfl | hp
  · exact F.nodeBody_hasCells.mpr (map_kids_ne hlower)
  · rcases List.mem_cons.mp hp with rfl | hp
    · exact F.nodeBody_hasCells.mpr (map_kids_ne hupper)
    · exact hcelled p (List.mem_cons_of_mem _ hp)

theorem spliced_inner (newRight : Nat)
    (hkids : (splitNode f left d right).kids = kids ++ (x, dm) :: more) {β : Type}
    (k : List α → List β) (g : δ → List β) :
    spliced up (.node ⟨f.id, kids, x⟩) dm
      (.node ⟨newRight, more, (splitNode f left d right).last⟩) k g =
    spliced (.inside f up) left d right k g := by
  have hcut := Node.flatten_cut (LevelTree.walk k g) g hkids f.id newRight
  rw [walk_splitNode] at hcut
  rw [spliced, LevelTree.walk_node, LevelTree.walk_node, ← hcut, spliced]
  simp only [Ctx.before, Ctx.after, List.append_assoc]

theorem promoted_inner (newRight : Nat) (hright : right.id < 2 ^ 32)
    (hkids : (splitNode f left d right).kids = kids ++ (x, dm) :: more) (hlower : kids ≠ [])
    (hupper : more ≠ [])
    (hup : F.Promoted up (.node ⟨f.id, kids, x⟩) dm
      (.node ⟨newRight, more, (splitNode f left d right).last⟩) lost img s) :
    F.Promoted (.inside f up) left d right lost img s := by
  obtain ⟨H, T, hT, hwalk, hsmall, hcelled, hlive⟩ := hup
  exact ⟨H, T, hT,
    fun β k g => (hwalk β k g).trans (spliced_inner f up left d right newRight hkids k g),
    fun hpieces => hsmall (F.smallBut_inner f up left d right newRight hright hkids hpieces),
    fun hpieces => hcelled (F.celled_inner f up left d right newRight hkids hlower hupper hpieces),
    hlive⟩

/-- Nothing above the halves has been written. -/
theorem truncated_of_live {h : Nat} {c : Ctx α δ h} {left right : LevelTree α δ h} {d : δ}
    (hlive : Live s (F.pieces c left d right ++ img)) : F.Truncated c left d right img s := by
  have himage : (F.image (c.plug left).2).Perm (c.image F.layout left.id ++ F.image left) :=
    c.image_plug F.layout left
  refine ⟨_, (c.plug left).2, c.id_plug left, fun β f g => ?_, fun hsmall i hi => ?_,
    fun hcelled p hp => hcelled p ?_, ?_⟩
  · rw [c.walk_plug, spliced]
    exact ((List.sublist_append_left _ _).append_left _).append_right _
  · -- the new page is none of these
    have hi := (himage.map Prod.fst).mem_iff.mp hi
    have hpieces : (F.pieces c left d right).map Prod.fst =
        (c.image F.layout left.id ++ F.image left).map Prod.fst ++
          (F.dividerExtra d ++ F.image right).map Prod.fst := by
      rw [pieces, ← List.map_append, List.append_assoc]
    have hnodup := hlive.ids_nodup
    rw [List.map_append, hpieces] at hnodup
    rw [SmallBut, hpieces] at hsmall
    refine hsmall i (List.mem_append_left _ hi) fun heq => ?_
    have hright : i ∈ (F.dividerExtra d ++ F.image right).map Prod.fst := by
      rw [List.map_append, heq]
      exact List.mem_append_right _ (right.id_mem_image F.layout)
    exact (List.nodup_append.mp (List.nodup_append.mp hnodup).1).2.2 i hi i hright rfl
  · have hp := himage.mem_iff.mp hp
    rw [pieces, ← List.append_assoc]
    exact List.mem_append_left _ hp
  · refine Live.forget (F.dividerExtra d ++ F.image right) (hlive.perm ?_)
    refine List.Perm.trans ?_ ((himage.append_right img).append_left _).symm
    rw [pieces, List.perm_iff_count]
    intro p
    simp only [List.count_append]
    omega

theorem truncated_inner (newRight : Nat) (hright : right.id < 2 ^ 32)
    (hkids : (splitNode f left d right).kids = kids ++ (x, dm) :: more) (hlower : kids ≠ [])
    (hupper : more ≠ [])
    (hup : F.Truncated up (.node ⟨f.id, kids, x⟩) dm
      (.node ⟨newRight, more, (splitNode f left d right).last⟩) img s) :
    F.Truncated (.inside f up) left d right img s := by
  obtain ⟨H, T, hT, hwalk, hsmall, hcelled, hlive⟩ := hup
  refine ⟨H, T, hT, fun β k g => ?_,
    fun hpieces => hsmall (F.smallBut_inner f up left d right newRight hright hkids hpieces),
    fun hpieces => hcelled (F.celled_inner f up left d right newRight hkids hlower hupper hpieces),
    hlive⟩
  rw [← spliced_inner f up left d right newRight hkids k g]
  exact hwalk β k g

open Prog PageStore

/-- The dividers of the context and of the two halves. -/
def splicedDividers {h : Nat} (c : Ctx α δ h) (left : LevelTree α δ h) (d : δ)
    (right : LevelTree α δ h) : List δ :=
  spliced c left d right (fun _ => []) fun d => [d]

theorem mem_splicedDividers {h : Nat} (c : Ctx α δ h) (left : LevelTree α δ h) (d : δ)
    (right : LevelTree α δ h) : d ∈ splicedDividers c left d right := by
  refine List.mem_append_left _ (List.mem_append_right _ (List.mem_append_right _ ?_))
  exact List.mem_append_left _ (List.mem_singleton_self d)

theorem splicedDividers_subset {h : Nat} (c : Ctx α δ h) (left : LevelTree α δ h) (d : δ)
    (right : LevelTree α δ h) (k : List α → List δ) :
    splicedDividers c left d right ⊆ spliced c left d right k fun d => [d] := by
  have hk : ∀ items : List α, ([] : List δ) ⊆ k items := fun _ => List.nil_subset _
  have hleft := LevelTree.walk_subset (g := fun d : δ => [d]) hk left
  have hright := LevelTree.walk_subset (g := fun d : δ => [d]) hk right
  have hbefore := Ctx.before_subset (g := fun d : δ => [d]) hk c
  have hafter := Ctx.after_subset (g := fun d : δ => [d]) hk c
  intro e he
  simp only [splicedDividers, spliced, List.mem_append] at he ⊢
  rcases he with (he | he | he | he) | he
  · exact .inl (.inl (hbefore he))
  · exact .inl (.inr (.inl (hleft he)))
  · exact .inl (.inr (.inr (.inl he)))
  · exact .inl (.inr (.inr (.inr (hright he))))
  · exact .inr (hafter he)

theorem post_subset_splicedDividers {q : δ × LevelTree α δ h} (hq : q ∈ f.post) :
    q.1 ∈ splicedDividers (.inside f up) left d right := by
  refine List.mem_append_right _ (List.mem_append_left _ (List.mem_flatMap.mpr ⟨q, hq, ?_⟩))
  exact List.mem_append_left _ (List.mem_singleton_self q.1)

theorem post_ok (hok : ∀ e ∈ splicedDividers (.inside f up) left d right, ok e) :
    ∀ q ∈ (f.map LevelTree.id).post, ok q.1 := by
  intro q hq
  obtain ⟨p, hp, rfl⟩ := List.mem_map.mp hq
  exact hok p.1 (post_subset_splicedDividers f up left d right hp)

/-- The parent has room: the new cell is placed. -/
theorem place_post (hE : F.Admits E (F.Truncated (.inside f up) left d right img) ok)
    (hok : ∀ e ∈ splicedDividers (.inside f up) left d right, ok e)
    (hlive : LiveBut lost s (F.pieces (.inside f up) left d right ++ img))
    (hfits : (F.nodeBody ((f.map LevelTree.id).fill left.id)).fits
      (InteriorCell.size F.keySize ⟨left.id, F.key d⟩) = true) :
    Post (lift (F.place (((f.map LevelTree.id).fill left.id).kids.map F.cell)
        ((f.map LevelTree.id).fill left.id).last f.pre.length ⟨left.id, F.key d⟩ right.id)
      >>= fun placed => writeBody f.id (F.body placed.1 placed.2)) s
      (fun _ s' => F.Promoted (.inside f up) left d right lost img s') E := by
  have hslot : f.pre.length = (f.map LevelTree.id).pre.length := by rw [Frame.map, List.length_map]
  have hbytes := F.nodeBytes_split (f.map LevelTree.id) d left.id left.id right.id
  have hsize : InteriorCell.size F.keySize ⟨left.id, F.key d⟩ = 4 + F.keySize (F.key d) := rfl
  rw [PageBody.fits, decide_eq_true_eq, usedBytes_nodeBody] at hfits
  have hraised := F.truncated_of_live hlive.live
  rw [pieces_inside] at hlive
  rw [post_bind, hslot]
  have hpost := post_ok f up left d right hok
  refine F.post_place hE hraised (f.map LevelTree.id) hpost d left.id left.id right.id
    fun hplaced => ?_
  rw [← ids_splitNode] at hbytes hplaced ⊢
  have hused := F.usedBytes_nodeBody ((splitNode f left d right).map LevelTree.id)
  refine (writeBody_post (fun _ => hE.overflows s hraised) hlive fun hlt => ?_).mono
    (fun _ s' hs' => ?_) fun _ _ he => he
  · have hlt : pageSize < (F.nodeBody ((splitNode f left d right).map LevelTree.id)).usedBytes := hlt
    omega
  · obtain ⟨hlive, hlast⟩ := hs'
    rw [F.rightChild_body] at hlast
    refine F.promoted_placed f up left d right ?_ hlive
    rcases hplaced with hsmall | heq
    · exact hsmall
    · exact heq ▸ hlast

end Cascade

open Prog PageStore

theorem promoteSeparator_post {h : Nat} (c : Ctx α δ h) (left : LevelTree α δ h) (d : δ)
    (right : LevelTree α δ h) {lost : Residue} {img : Image} {s : PageStore} (hne : c.path ≠ [])
    (hE : F.Admits E (F.Truncated c left d right img) ok)
    (hok : ∀ e ∈ splicedDividers c left d right, ok e)
    (hlive : LiveBut lost s (F.pieces c left d right ++ img)) :
    Post (F.promoteSeparator c.path left.id (F.key d) right.id) s
      (fun _ s' => F.Promoted c left d right lost img s') E := by
  induction c generalizing d s img with
  | root => exact absurd rfl hne
  | inside f up ih =>
      have hfirst : LiveBut lost s ((f.id, .body (F.nodeBody ((f.map LevelTree.id).fill left.id))) ::
          (F.around f up left d right ++ img)) := hlive
      have hraised := F.truncated_of_live hlive.live
      rw [Ctx.path, InteriorFormat.promoteSeparator, post_bind]
      refine Post.of_eq (readBody_live hfirst.live (List.mem_cons_self ..)) ?_
      rw [nodeBody, post_bind, F.cells_body, post_lift_ok, post_bind]
      refine F.post_encode hE (hok d (mem_splicedDividers _ left d right)) hraised fun _ => ?_
      rw [F.rightChild_body]
      rcases hroom : (F.body (((f.map LevelTree.id).fill left.id).kids.map F.cell)
        ((f.map LevelTree.id).fill left.id).last).fits
          (InteriorCell.size F.keySize ⟨left.id, F.key d⟩) with _ | _
      · -- no room: the node splits
        have hslot : f.pre.length = (f.map LevelTree.id).pre.length := by
          rw [Frame.map, List.length_map]
        have hold := hfirst.fits _ (List.mem_cons_self ..)
        have hbytes := F.nodeBytes_split (f.map LevelTree.id) d left.id left.id right.id
        have hsize : InteriorCell.size F.keySize ⟨left.id, F.key d⟩ = 4 + F.keySize (F.key d) := rfl
        have hpage : pageSize = interiorHeaderSize + interiorRoom := by decide
        have hused := F.usedBytes_nodeBody ((f.map LevelTree.id).fill left.id)
        simp only [PageContent.Fits] at hold
        rw [PageBody.fits, decide_eq_false_iff_not] at hroom
        rw [nodeBody] at hused hold
        obtain ⟨lower, c, upper, hcells, hlowerNe, hupperNe, hlower, hupper, hsplit⟩ :=
          F.exists_interior_split (f.map LevelTree.id) d left.id right.id (by omega) (by omega)
        simp only [Bool.false_eq_true, if_false]
        rw [post_bind, hslot]
        refine F.post_place hE hraised (f.map LevelTree.id) (post_ok f up left d right hok) d left.id
          left.id right.id fun hplaced => ?_
        rw [← ids_splitNode] at hcells hsplit hplaced ⊢
        obtain ⟨kids, x, dm, more, hkids, rfl, rfl, rfl⟩ := F.exists_cut LevelTree.id hcells
        have hkidsNe : kids ≠ [] := fun h => hlowerNe (by rw [h, List.map_nil, List.map_nil])
        have hmoreNe : more ≠ [] := fun h => hupperNe (by rw [h, List.map_nil, List.map_nil])
        have hlowerFits : ∀ i, (F.nodeBody (Node.map LevelTree.id
            (⟨i, kids, x⟩ : Node δ (LevelTree α δ _)))).usedBytes ≤ pageSize := by
          intro i
          rw [usedBytes_nodeBody, hpage]
          exact Nat.add_le_add_left hlower _
        have hupperFits : ∀ i, (F.nodeBody (Node.map LevelTree.id
            (⟨i, more, (splitNode f left d right).last⟩ : Node δ (LevelTree α δ _)))).usedBytes ≤
              pageSize := by
          intro i
          rw [usedBytes_nodeBody, hpage]
          exact Nat.add_le_add_left hupper _
        -- until the page itself is written, the pages that were allocated are lost
        have hover : ∀ {s' : PageStore} (fresh : Image), LiveBut lost s' (fresh ++
            ((f.id, .body (F.nodeBody ((f.map LevelTree.id).fill left.id))) ::
              (F.around f up left d right ++ img))) → E tooBig s' :=
          fun fresh h => hE.overflows _ (F.truncated_of_live (h.forget fresh))
        rw [post_bind, hsplit, post_lift_ok, post_bind]
        refine (allocatePage_post hfirst).mono (fun newRight s₁ h₁ => ?_) fun _ _ he => he
        obtain ⟨_, h₁⟩ := h₁
        rw [post_bind]
        refine (initBody_post (fun _ => hover [_] h₁) h₁ fun hlt => absurd
          (hupperFits newRight) (Nat.not_le.mpr hlt)).mono (fun _ s₂ h₂ => ?_) fun _ _ he => he
        obtain ⟨h₂, hlast⟩ := h₂
        rw [rightChild_nodeBody] at hlast
        have hdividers : splicedDividers up (.node ⟨f.id, kids, x⟩) dm
            (.node ⟨newRight, more, (splitNode f left d right).last⟩) =
              splicedDividers (.inside f up) left d right :=
          spliced_inner f up left d right newRight hkids _ _
        have hright : right.id < 2 ^ 32 := by
          rcases hplaced with hsmall | heq
          · exact hsmall
          · exact heq ▸ hlast
        cases up with
        | root =>
            simp only [Ctx.path]
            rw [post_bind]
            refine (allocatePage_post h₂).mono (fun newLeft s₃ h₃ => ?_) fun _ _ he => he
            obtain ⟨_, h₃⟩ := h₃
            rw [post_bind]
            refine (initBody_post (fun _ => hover [_, _] h₃) h₃ fun hlt => absurd
              (hlowerFits newLeft) (Nat.not_le.mpr hlt)).mono (fun _ s₄ h₄ => ?_) fun _ _ he => he
            obtain ⟨h₄, -⟩ := h₄
            rw [post_bind]
            refine F.post_encode hE (hok dm (hdividers ▸ mem_splicedDividers _ _ dm _))
              (F.truncated_of_live (h₄.forget [_, _])) fun hnewLeft => ?_
            have htopFits : (F.nodeBody ⟨f.id, [(newLeft, dm)], newRight⟩).usedBytes ≤ pageSize := by
              have hcell := F.footprint_le (newLeft, dm)
              have hcap : interiorCap ≤ interiorRoom := by decide
              rw [usedBytes_nodeBody, nodeBytes, List.map_singleton, List.map_singleton,
                List.sum_singleton]
              omega
            have h₅ := h₄.perm (@List.perm_middle _ _ [_, _] _)
            refine (writeBody_post (fun _ => hover [_, _] h₄) h₅ fun hlt => absurd
              htopFits (Nat.not_le.mpr hlt)).mono (fun _ s₅ h₆ => ?_) fun _ _ he => he
            obtain ⟨h₆, hnewRight⟩ := h₆
            rw [rightChild_nodeBody] at hnewRight
            exact F.promoted_root f left d right newLeft newRight hright hnewLeft hnewRight hkids
              hkidsNe hmoreNe h₆
        | inside f' up' =>
            simp only [Ctx.path]
            rw [post_bind]
            refine (writeBody_post (fun _ => hover [_] h₂) (h₂.perm (List.Perm.swap _ _ _))
              fun hlt => absurd (hlowerFits f.id) (Nat.not_le.mpr hlt)).mono (fun _ s₃ h₃ => ?_)
              fun _ _ he => he
            have hpieces := F.pieces_inner f (.inside f' up') left d right newRight hkids
            exact (ih (.node ⟨f.id, kids, x⟩) dm
              (.node ⟨newRight, more, (splitNode f left d right).last⟩) (List.cons_ne_nil _ _)
              (hE.mono fun _ => F.truncated_inner f _ left d right newRight hright hkids hkidsNe hmoreNe)
              (fun e he => hok e (hdividers ▸ he))
              (h₃.1.perm (hpieces.append_right img).symm)).mono
              (fun _ s' hs' => F.promoted_inner f _ left d right newRight hright hkids
                hkidsNe hmoreNe hs')
              fun _ _ he => he
      · simp only [if_true]
        exact F.place_post f up left d right hE hok hlive hroom

end TreeFormat

end QuillDb
