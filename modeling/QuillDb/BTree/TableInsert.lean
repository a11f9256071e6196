/-
  BTree/TableInsert.lean --- insertion into a table tree.

  Source: `BTree.insert` and `BTree._split_leaf` of `quilldb/btree/btree.py`.

  Until the leaf is written an exception leaves the tree as it was; from then on
  it leaves a tree that has lost what the missing pointers lead to.
-/
import QuillDb.BTree.TableTree

set_option autoImplicit false

namespace QuillDb

open Prog PageStore PageTree

/-! ## Encoding the new cell -/

section Encode

variable {s : PageStore} {k : Int} {E : DbError → PageStore → Prop} {Q : TableLeafCell → PageStore → Prop}

/-- The cell that sizes a row is encoded unless the payload is too long for its
length to be. -/
theorem encodeLeafTableCell_placeholder (k : Int) (payload : Bytes) :
    encodeLeafTableCell k (placeholder .leafTable payload) =
      (checkUvarint payload.length).map fun _ => ⟨k, placeholder .leafTable payload⟩ := by
  have htotal : (placeholder .leafTable payload).total = payload.length := rfl
  have hsmall : (placeholder .leafTable payload).overflow < 2 ^ 32 := by
    have hoverflow : (placeholder .leafTable payload).overflow =
        if spills .leafTable payload then 1 else 0 := rfl
    rw [hoverflow]
    split <;> omega
  unfold encodeLeafTableCell
  rw [Stored.valid_placeholder, htotal, toBytes4_of_lt hsmall]
  cases checkUvarint payload.length <;> rfl

/-- Sizing the cell. -/
theorem post_encodeCandidate {payload : Bytes} (hE : ∀ e, checkUvarint payload.length = .error e → E e s)
    (hQ : checkUvarint payload.length = .ok () → Q ⟨k, placeholder .leafTable payload⟩ s) :
    Post (lift (encodeLeafTableCell k (placeholder .leafTable payload))) s Q E := by
  rw [encodeLeafTableCell_placeholder]
  rcases hcheck : checkUvarint payload.length with e | u
  · exact hE e hcheck
  · exact hQ hcheck

/-- Encoding the cell once its chain is written. -/
theorem post_encodeStored {st : Stored .leafTable} (hcheck : checkUvarint st.data.length = .ok ())
    (hover : st.payload.overflow < 2 ^ 32 ∨ E tooBig s) (hQ : st.payload.overflow < 2 ^ 32 → Q ⟨k, st.payload⟩ s) :
    Post (lift (encodeLeafTableCell k st.payload)) s Q E := by
  have htotal : st.payload.total = st.data.length := rfl
  unfold encodeLeafTableCell
  rw [Stored.valid_payload, htotal, hcheck]
  by_cases hsmall : st.payload.overflow < 2 ^ 32
  · rw [toBytes4_of_lt hsmall]
    exact hQ hsmall
  · have hbig : toBytes4 st.payload.overflow = .error tooBig := if_neg hsmall
    rw [hbig]
    exact hover.resolve_left hsmall

end Encode

/-! ## The tree after an insertion -/

section After

variable {lost : Residue} {s s' : PageStore} {root : Nat} {others : Image} {H : Nat} {T : TableTree H}
variable {k : Int}
variable {c : Ctx Row Int 0} {l : Leaf Row} {rows left right : List Row} {sep : Int} {r : Nat}

/-- The leaf has been rewritten. -/
theorem TableAt.of_leaf (ht : TableAt s root others T) (hr : Reached k T c l)
    (hasc : Ascending (c.inorderBefore ++ rows.map .inl ++ c.inorderAfter))
    (hfilled : rows ≠ [] ∨ c.path = []) (hsmall : ∀ row ∈ rows, ∀ i ∈ row.stored.chain, i < 2 ^ 32)
    (hlive : LiveBut lost s' ((l.id, .body (.tableLeaf (rows.map Row.cell))) ::
      (rows.flatMap tableFormat.leafExtra ++ (c.image tableFormat.layout l.id ++ others)))) :
    TableAtBut lost s' root others (c.plug (.leaf ⟨l.id, rows⟩)).2 := by
  have himage : (TableTree.image (c.plug (.leaf ⟨l.id, rows⟩)).2).Perm
      (c.image tableFormat.layout l.id ++ (l.id, .body (.tableLeaf (rows.map Row.cell))) ::
        rows.flatMap tableFormat.leafExtra) := c.image_plug tableFormat.layout (.leaf ⟨l.id, rows⟩)
  have hkept : LiveBut lost s' (TableTree.image (c.plug (.leaf ⟨l.id, rows⟩)).2 ++ others) := by
    refine hlive.perm (List.Perm.trans ?_ (himage.append_right others).symm)
    rw [List.perm_iff_count]
    intro p
    simp only [List.count_append, List.count_cons]
    omega
  refine ⟨⟨?_, ?_, ?_, ?_, hkept.live⟩, hkept⟩
  · rw [c.id_plug, LevelTree.id_leaf, ← hr.id, ht.root]
  · rwa [inorder_plug]
  · rcases hfilled with hrows | hroot
    · right
      have hsiblings := hr.siblings_filled ht
      intro x hx
      rw [Ctx.leaves_plug] at hx
      rcases List.mem_append.mp hx with hx | hx
      · rcases List.mem_append.mp hx with hx | hx
        · exact hsiblings x (List.mem_append_left _ hx)
        · rwa [List.mem_singleton.mp hx]
      · exact hsiblings x (List.mem_append_right _ hx)
    · left
      cases c with
      | root => rfl
      | inside f up => cases hroot
  · intro i hi
    have hi := (himage.map Prod.fst).mem_iff.mp hi
    have hold := hr.image.map Prod.fst
    rw [List.map_append, List.map_cons] at hi
    rcases List.mem_append.mp hi with hi | hi
    · exact ht.small i (hold.mem_iff.mpr (by
        rw [List.map_append]
        exact List.mem_append_left _ hi))
    · rcases List.mem_cons.mp hi with rfl | hi
      · exact ht.small _ (hold.mem_iff.mpr (by
          rw [List.map_append]
          exact List.mem_append_right _ (List.mem_cons_self ..)))
      · obtain ⟨p, hp, rfl⟩ := List.mem_map.mp hi
        obtain ⟨row, hrow, hp⟩ := List.mem_flatMap.mp hp
        refine hsmall row hrow _ ?_
        rw [← row.stored.image_ids]
        exact List.mem_map_of_mem hp

/-- The pages of a leaf that holds a row. -/
theorem celled_leaf (i : Nat) (hrows : rows ≠ []) : Celled (TableTree.image (.leaf ⟨i, rows⟩)) := by
  intro p hp
  rcases List.mem_cons.mp hp with rfl | hp
  · show (rows.map Row.cell).map TableLeafCell.size ≠ []
    rw [List.map_map, Ne, List.map_eq_nil_iff]
    exact hrows
  · obtain ⟨row, -, hp⟩ := List.mem_flatMap.mp hp
    exact celled_chain _ _ p hp

theorem Reached.branching_leaf (hr : Reached k T c l) (hrows : rows ≠ []) (hbranching : Branching T) :
    Branching (c.plug (.leaf ⟨l.id, rows⟩)).2 := by
  refine .inr fun p hp => ?_
  have himage := c.image_plug tableFormat.layout (.leaf ⟨l.id, rows⟩)
  rcases List.mem_append.mp (himage.mem_iff.mp hp) with hp | hp
  · exact hr.celled_ctx hbranching p hp
  · exact celled_leaf l.id hrows p hp

/-- The halves of a leaf that has taken a row. -/
structure Halves (k : Int) (c : Ctx Row Int 0) (l : Leaf Row) (st : Stored .leafTable)
    (left right : List Row) (sep : Int) : Prop where
  rows : left ++ right = BTree.insertAt l.items
    (leafSlot k l.items) ⟨k, st⟩
  last : ∃ most row, left = most ++ [row] ∧ row.rowid = sep
  right_ne : right ≠ []
  ascending : Ascending (c.inorderBefore ++ (left ++ right).map .inl ++ c.inorderAfter)

namespace Halves

variable {st : Stored .leafTable}

/-- What the halves and their separator list is in order. -/
theorem spliced_ascending (hh : Halves k c l st left right sep) :
    Ascending (TreeFormat.spliced c (.leaf ⟨l.id, left⟩) sep (.leaf ⟨r, right⟩)
      (fun rows => rows.map .inl) fun d => [.inr d]) := by
  obtain ⟨most, row, rfl, rfl⟩ := hh.last
  exact hh.ascending.divider hh.right_ne

/-- No leaf of it is empty. -/
theorem spliced_filled (hh : Halves k c l st left right sep) (ht : TableAt s root others T)
    (hr : Reached k T c l) : ∀ x ∈ TreeFormat.spliced c (.leaf ⟨l.id, left⟩) sep (.leaf ⟨r, right⟩)
      (fun rows => [rows]) (fun _ => []), x ≠ [] := by
  have hsiblings := hr.siblings_filled ht
  obtain ⟨most, row, hleft, -⟩ := hh.last
  intro x hx
  rcases List.mem_append.mp hx with hx | hx
  · rcases List.mem_append.mp hx with hx | hx
    · exact hsiblings x (List.mem_append_left _ hx)
    · rcases List.mem_cons.mp hx with rfl | hx
      · rw [hleft]
        exact List.append_ne_nil_of_right_ne_nil _ (List.cons_ne_nil _ _)
      · rw [List.mem_singleton.mp hx]
        exact hh.right_ne
  · exact hsiblings x (List.mem_append_right _ hx)

/-- The page numbers in use fit four bytes, but for that of the new leaf. -/
theorem smallBut (hh : Halves k c l st left right sep) (ht : TableAt s root others T)
    (hr : Reached k T c l) (hst : ∀ i ∈ st.chain, i < 2 ^ 32) :
    SmallBut r (tableFormat.pieces c (.leaf ⟨l.id, left⟩) sep (.leaf ⟨r, right⟩)) := by
  have hold : ∀ i ∈ (c.image tableFormat.layout l.id).map Prod.fst ++ l.id ::
      (l.items.flatMap tableFormat.leafExtra).map Prod.fst, i < 2 ^ 32 := by
    intro i hi
    refine ht.small i ((hr.image.map Prod.fst).mem_iff.mpr ?_)
    rw [List.map_append]
    exact hi
  have hextra : ∀ i ∈ ((left ++ right).flatMap tableFormat.leafExtra).map Prod.fst, i < 2 ^ 32 := by
    rw [hh.rows]
    intro i hi
    rw [((insertAt_flatMap tableFormat.leafExtra _ _ _).map Prod.fst).mem_iff, List.map_append] at hi
    rcases List.mem_append.mp hi with hi | hi
    · refine hst i ?_
      rw [← st.image_ids]
      exact hi
    · exact hold i (List.mem_append_right _ (List.mem_cons_of_mem _ hi))
  intro i hi hne
  have hpieces : (tableFormat.pieces c (.leaf ⟨l.id, left⟩) sep (.leaf ⟨r, right⟩)).map Prod.fst =
      (c.image tableFormat.layout l.id).map Prod.fst ++
        (l.id :: (left.flatMap tableFormat.leafExtra).map Prod.fst ++
          r :: (right.flatMap tableFormat.leafExtra).map Prod.fst) := by
    rw [TreeFormat.pieces, List.map_append, List.map_append]
    rfl
  rw [hpieces] at hi
  rw [List.flatMap_append, List.map_append] at hextra
  rcases List.mem_append.mp hi with hi | hi
  · exact hold i (List.mem_append_left _ hi)
  · rcases List.mem_append.mp hi with hi | hi
    · rcases List.mem_cons.mp hi with rfl | hi
      · exact hold _ (List.mem_append_right _ (List.mem_cons_self ..))
      · exact hextra i (List.mem_append_left _ hi)
    · rcases List.mem_cons.mp hi with rfl | hi
      · exact absurd rfl hne
      · exact hextra i (List.mem_append_right _ hi)

/-- The pages around the halves and theirs. -/
theorem celled (hh : Halves k c l st left right sep) (hr : Reached k T c l) (hbranching : Branching T) :
    Celled (tableFormat.pieces c (.leaf ⟨l.id, left⟩) sep (.leaf ⟨r, right⟩)) := by
  obtain ⟨most, row, hleft, -⟩ := hh.last
  have hne : left ≠ [] := hleft ▸ List.append_ne_nil_of_right_ne_nil _ (List.cons_ne_nil _ _)
  intro p hp
  rcases List.mem_append.mp hp with hp | hp
  · exact hr.celled_ctx hbranching p hp
  · rcases List.mem_append.mp hp with hp | hp
    · exact celled_leaf l.id hne p hp
    · exact celled_leaf r hh.right_ne p hp

/-- The rows around the halves and theirs were in the tree, but for the new one. -/
theorem mem_spliced (hh : Halves k c l st left right sep) (hr : Reached k T c l) {row : Row}
    (hrow : row ∈ TreeFormat.spliced c (.leaf ⟨l.id, left⟩) sep (.leaf ⟨r, right⟩) id fun _ => []) :
    row ∈ T.items ∨ row.rowid = k := by
  rw [hr.items]
  rcases List.mem_append.mp hrow with hrow | hrow
  · rcases List.mem_append.mp hrow with hrow | hrow
    · exact .inl (List.mem_append_left _ (List.mem_append_left _ hrow))
    · have hnew : row ∈ left ++ right := hrow
      rw [hh.rows] at hnew
      rcases mem_insertAt hnew with rfl | hold
      · exact .inr rfl
      · exact .inl (List.mem_append_left _ (List.mem_append_right _ hold))
  · exact .inl (List.mem_append_right _ hrow)

/-- The promotion returned. -/
theorem promoted (hh : Halves k c l st left right sep) (ht : TableAt s root others T)
    (hr : Reached k T c l) (hst : ∀ i ∈ st.chain, i < 2 ^ 32)
    (hp : tableFormat.Promoted c (.leaf ⟨l.id, left⟩) sep (.leaf ⟨r, right⟩) lost others s') :
    ∃ (H' : Nat) (T' : TableTree H'), TableAtBut lost s' root others T' ∧
      (Branching T → Branching T') ∧ T'.items = c.itemsBefore ++ (left ++ right) ++ c.itemsAfter := by
  obtain ⟨H', T', hid, hwalk, hsmall, hcelled, hlive⟩ := hp
  refine ⟨H', T', ⟨⟨?_, ?_, .inr ?_, hsmall (hh.smallBut ht hr hst), hlive.live⟩, hlive⟩,
    fun hT => .inr (hcelled (hh.celled hr hT)), hwalk _ _ _⟩
  · rw [hid, LevelTree.id_leaf, ← hr.id, ht.root]
  · rw [LevelTree.inorder, hwalk]
    exact hh.spliced_ascending
  · rw [LevelTree.leaves, hwalk]
    exact hh.spliced_filled ht hr

/-- The promotion raised. -/
theorem truncated (hh : Halves k c l st left right sep) (ht : TableAt s root others T)
    (hr : Reached k T c l) (hst : ∀ i ∈ st.chain, i < 2 ^ 32)
    (hp : tableFormat.Truncated c (.leaf ⟨l.id, left⟩) sep (.leaf ⟨r, right⟩) others s') :
    ∃ (H' : Nat) (T' : TableTree H'), TableAt s' root others T' ∧ (Branching T → Branching T') ∧
      ∀ r ∈ T'.items, r ∈ T.items ∨ r.rowid = k := by
  obtain ⟨H', T', hid, hwalk, hsmall, hcelled, hlive⟩ := hp
  refine ⟨H', T', ⟨?_, ?_, .inr fun x hx => ?_, hsmall (hh.smallBut ht hr hst), hlive⟩,
    fun hT => .inr (hcelled (hh.celled hr hT)), fun x hx => hh.mem_spliced hr ((hwalk _ _ _).subset hx)⟩
  · rw [hid, LevelTree.id_leaf, ← hr.id, ht.root]
  · exact hh.spliced_ascending.sublist (hwalk _ _ _)
  · exact hh.spliced_filled ht hr x ((hwalk _ _ _).subset hx)

end Halves

end After

/-! ## Writing the halves -/

theorem post_encodeInterior {s : PageStore} {child : Nat} {key : Int} {E : DbError → PageStore → Prop}
    {Q : InteriorCell Int → PageStore → Prop} (hover : E tooBig s)
    (hQ : child < 2 ^ 32 → Q ⟨child, key⟩ s) :
    Post (lift (encodeInteriorTableCell child key)) s Q E := by
  unfold encodeInteriorTableCell
  by_cases hsmall : child < 2 ^ 32
  · rw [toBytes4_of_lt hsmall]
    exact hQ hsmall
  · have hbig : toBytes4 child = .error tooBig := if_neg hsmall
    rw [hbig]
    exact hover

/-- The parent of a leaf, from its context. -/
def parentOf : Ctx Row Int 0 → Nat → Option BTree.Parent
  | .root, _ => none
  | .inside f _, hole => some ⟨f.id, f.pre.length,
      ((f.map LevelTree.id).fill hole).kids.map tableFormat.cell, ((f.map LevelTree.id).fill hole).last⟩

theorem readParent_live {s : PageStore} {img : Image} (hlive : Live s img) {c : Ctx Row Int 0}
    {hole : Nat} (hsub : c.image tableFormat.layout hole ⊆ img) :
    BTree.readParent c.path s = (.ok (parentOf c hole), s) := by
  cases c with
  | root => rfl
  | inside f up =>
      have hpage : readBody f.id s = (.ok (.tableInterior
          (((f.map LevelTree.id).fill hole).kids.map tableFormat.cell)
          ((f.map LevelTree.id).fill hole).last), s) :=
        readBody_live hlive (hsub (List.mem_append_left _ (List.mem_cons_self ..)))
      have hcells : interiorCells f.id s = (.ok (((f.map LevelTree.id).fill hole).kids.map
          tableFormat.cell, ((f.map LevelTree.id).fill hole).last), s) := by
        rw [interiorCells, bind_of_ok hpage]
        rfl
      rw [Ctx.path, BTree.readParent, bind_of_ok hcells]
      rfl

section Write

variable {lost : Residue} {s s' : PageStore} {root : Nat} {others : Image} {H : Nat} {T : TableTree H}
variable {k : Int}
variable {c : Ctx Row Int 0} {l : Leaf Row} {left right : List Row} {sep : Int}
variable {st : Stored .leafTable} {E : DbError → PageStore → Prop}

theorem TableAt.move (ht : TableAt s root others T) (hlive : Live s' (T.image ++ others)) :
    TableAt s' root others T :=
  { ht with live := hlive }

/-- The pages of the tree and of the new row's chain, around the page of the leaf. -/
theorem Reached.image_insert (hr : Reached k T c l) :
    (st.image ++ T.image).Perm ((l.id, .body (.tableLeaf (l.items.map Row.cell))) ::
      ((BTree.insertAt l.items (leafSlot k l.items) ⟨k, st⟩).flatMap tableFormat.leafExtra ++
        c.image tableFormat.layout l.id)) := by
  have hextra := insertAt_flatMap tableFormat.leafExtra l.items (leafSlot k l.items) ⟨k, st⟩
  have hleaf : TableTree.image (.leaf l) = (l.id, .body (.tableLeaf (l.items.map Row.cell))) ::
      l.items.flatMap tableFormat.leafExtra := rfl
  have hst : tableFormat.leafExtra ⟨k, st⟩ = st.image := rfl
  refine (hr.image.append_left _).trans ?_
  rw [hleaf, List.perm_iff_count]
  intro p
  have hcount := hextra.count_eq p
  rw [hst] at hcount
  simp only [List.count_append, List.count_cons] at hcount ⊢
  omega

/-- What is left of the tree may be any tree, with cells on the interior pages if they
had them, and no new row but one of rowid `k`. -/
def Recovers (E : DbError → PageStore → Prop) (root : Nat) (others : Image) (T : TableTree H) (k : Int) :
    Prop :=
  ∀ {s : PageStore} {H' : Nat} {T' : TableTree H'}, TableAt s root others T' →
    (Branching T → Branching T') → (∀ r ∈ T'.items, r ∈ T.items ∨ r.rowid = k) → E tooBig s

/-- The tree as it was is one of these. -/
theorem Recovers.stands {s : PageStore} (h : Recovers E root others T k) (ht : TableAt s root others T) :
    E tooBig s :=
  h ht id fun _ hr => .inl hr

theorem Halves.admits (hE : Recovers E root others T k) (hh : Halves k c l st left right sep)
    (ht : TableAt s root others T) (hr : Reached k T c l) (hst : ∀ i ∈ st.chain, i < 2 ^ 32)
    (r : Nat) : tableFormat.Admits E
      (tableFormat.Truncated c (.leaf ⟨l.id, left⟩) sep (.leaf ⟨r, right⟩) others) fun _ => True := by
  have hover : ∀ s', tableFormat.Truncated c (.leaf ⟨l.id, left⟩) sep (.leaf ⟨r, right⟩) others s' →
      E tooBig s' := by
    intro s' hs'
    obtain ⟨H', T', hT', hbranching, hitems⟩ := hh.truncated ht hr hst hs'
    exact hE hT' hbranching hitems
  refine ⟨hover, fun {child key e s'} _ henc hs' => ?_⟩
  have henc : encodeInteriorTableCell child key = .error e := henc
  unfold encodeInteriorTableCell toBytes4 at henc
  split at henc
  · cases henc
  · obtain rfl := Except.error.inj henc
    exact hover s' hs'

theorem writeSplit_post (hE : Recovers E root others T k) (ht : TableAt s root others T)
    (hr : Reached k T c l) (hh : Halves k c l st left right sep) (hst : ∀ i ∈ st.chain, i < 2 ^ 32)
    (hleft : (PageBody.tableLeaf (left.map Row.cell)).usedBytes ≤ pageSize)
    (hright : (PageBody.tableLeaf (right.map Row.cell)).usedBytes ≤ pageSize)
    (hlive : LiveBut lost s' (st.image ++ (T.image ++ others))) :
    Post (BTree.writeSplit l.id c.path (parentOf c l.id) (left.map Row.cell) (right.map Row.cell) sep)
      s' (fun _ s'' => ∃ (H' : Nat) (T' : TableTree H'), TableAtBut lost s'' root others T' ∧
        (Branching T → Branching T') ∧ T'.items = c.itemsBefore ++ (left ++ right) ++ c.itemsAfter) E := by
  -- until the leaf is written, the tree stands
  have hover : ∀ {s'' : PageStore} (fresh : Image),
      LiveBut lost s'' (fresh ++ (st.image ++ (T.image ++ others))) → E tooBig s'' :=
    fun fresh h => hE.stands (ht.move ((h.forget fresh).forget st.image))
  have hpages : (st.image ++ (T.image ++ others)).Perm
      ((l.id, .body (.tableLeaf (l.items.map Row.cell))) ::
        ((left ++ right).flatMap tableFormat.leafExtra ++ c.image tableFormat.layout l.id ++ others)) := by
    rw [← List.append_assoc, hh.rows]
    exact hr.image_insert.append_right others
  have hzero : ∀ cells, ¬ 2 ^ 32 ≤ (PageBody.tableLeaf cells).rightChild := by
    intro cells hle
    have hle : 2 ^ 32 ≤ 0 := hle
    omega
  cases c with
  | root =>
      simp only [parentOf, BTree.writeSplit]
      rw [post_bind]
      refine (allocatePage_post hlive).mono (fun newRight s₁ h₁ => ?_) fun _ _ he => he
      obtain ⟨_, h₁⟩ := h₁
      rw [post_bind]
      refine (initBody_post (fun hbig => absurd hbig (hzero _)) h₁ fun hlt => absurd hright
        (Nat.not_le.mpr hlt)).mono (fun _ s₂ h₂ => ?_) fun _ _ he => he
      rw [post_bind]
      refine (allocatePage_post h₂.1).mono (fun newLeft s₃ h₃ => ?_) fun _ _ he => he
      obtain ⟨_, h₃⟩ := h₃
      rw [post_bind]
      refine (initBody_post (fun hbig => absurd hbig (hzero _)) h₃ fun hlt => absurd hleft
        (Nat.not_le.mpr hlt)).mono (fun _ s₄ h₄ => ?_) fun _ _ he => he
      obtain ⟨h₄, -⟩ := h₄
      rw [post_bind]
      refine post_encodeInterior (hover [_, _] h₄) fun hnewLeft => ?_
      have h₅ := (h₄.perm ((hpages.append_left [_, _]).trans List.perm_middle))
      refine (writeBody_post (fun _ => hover [_, _] h₄) h₅ fun hlt => ?_).mono
        (fun _ s₅ h₆ => ?_) fun _ _ he => he
      · have hsize := rowidSize_le sep
        have hused : (PageBody.tableInterior [⟨newLeft, sep⟩] newRight).usedBytes =
            12 + 2 * 1 + (4 + rowidSize sep + 0) := rfl
        have hpage : pageSize = 4096 := rfl
        omega
      · obtain ⟨h₆, hnewRight⟩ := h₆
        have hnewRight : newRight < 2 ^ 32 := hnewRight
        refine hh.promoted ht hr hst (tableFormat.promoted_root_leaf hnewLeft hnewRight (h₆.perm ?_))
        have hbody : tableFormat.nodeBody ⟨l.id, [(newLeft, sep)], newRight⟩ =
            .tableInterior [⟨newLeft, sep⟩] newRight := rfl
        rw [hbody, List.perm_iff_count]
        intro p
        simp only [tableFormat, List.flatMap_append, List.count_append, List.count_cons,
          List.count_nil, Ctx.image]
        omega
  | inside f up =>
      simp only [parentOf, BTree.writeSplit]
      rw [post_bind]
      refine post_encodeInterior (hover [] hlive) fun _ => ?_
      rw [post_bind]
      refine (allocatePage_post hlive).mono (fun newRight s₁ h₁ => ?_) fun _ _ he => he
      obtain ⟨_, h₁⟩ := h₁
      rw [post_bind]
      refine (initBody_post (fun hbig => absurd hbig (hzero _)) h₁ fun hlt => absurd hright
        (Nat.not_le.mpr hlt)).mono (fun _ s₂ h₂ => ?_) fun _ _ he => he
      obtain ⟨h₂, -⟩ := h₂
      have h₃ := (h₂.perm ((hpages.append_left [_]).trans List.perm_middle))
      rw [post_bind]
      refine (writeBody_post (fun hbig => absurd hbig (hzero _)) h₃ fun hlt => absurd hleft
        (Nat.not_le.mpr hlt)).mono (fun _ s₄ h₄ => ?_) fun _ _ he => he
      obtain ⟨h₄, -⟩ := h₄
      have hpieces : LiveBut lost s₄ (tableFormat.pieces (.inside f up) (.leaf ⟨l.id, left⟩) sep
          (.leaf ⟨newRight, right⟩) ++ others) := by
        have hparts : tableFormat.pieces (.inside f up) (.leaf ⟨l.id, left⟩) sep
            (.leaf ⟨newRight, right⟩) = Ctx.image tableFormat.layout (.inside f up) l.id ++
              (((l.id, .body (.tableLeaf (left.map Row.cell))) ::
                left.flatMap tableFormat.leafExtra) ++ ([] ++
                  ((newRight, .body (.tableLeaf (right.map Row.cell))) ::
                    right.flatMap tableFormat.leafExtra))) := rfl
        refine h₄.perm ?_
        rw [hparts, List.perm_iff_count]
        intro p
        simp only [List.flatMap_append, List.count_append, List.count_cons, List.count_nil]
        omega
      have hadmits := hh.admits hE ht hr hst newRight
      split
      · rename_i hroom
        exact (tableFormat.place_post f up (.leaf ⟨l.id, left⟩) sep (.leaf ⟨newRight, right⟩) hadmits
          (fun _ _ => trivial) hpieces hroom).mono (fun _ s₅ h₅ => hh.promoted ht hr hst h₅) fun _ _ he => he
      · exact (tableFormat.promoteSeparator_post (.inside f up) (.leaf ⟨l.id, left⟩) sep
          (.leaf ⟨newRight, right⟩) (List.cons_ne_nil _ _) hadmits (fun _ _ => trivial) hpieces).mono
          (fun _ s₅ h₅ => hh.promoted ht hr hst h₅) fun _ _ he => he

end Write

/-! ## Choosing the halves -/

section Choose

variable {k : Int} {H : Nat} {T : TableTree H} {c : Ctx Row Int 0} {l : Leaf Row}
variable {st : Stored .leafTable} {leftCells rightCells : List TableLeafCell} {sep : Int} {b : Bool}

/-- The cells fit one leaf page. -/
def FitLeaf (cells : List TableLeafCell) : Prop := (PageBody.tableLeaf cells).usedBytes ≤ pageSize

theorem usedBytes_congr {xs ys : List TableLeafCell}
    (h : xs.map TableLeafCell.size = ys.map TableLeafCell.size) :
    (PageBody.tableLeaf xs).usedBytes = (PageBody.tableLeaf ys).usedBytes := by
  simp only [PageBody.usedBytes, PageBody.headerSize, PageBody.cellSizes, h]

/-- Some cut of the cells leaves two sides that fit a page each. -/
def Cuttable (cells : List TableLeafCell) : Prop :=
  ∃ left right, cells = left ++ right ∧ FitLeaf left ∧ FitLeaf right

theorem fitLeaf_iff {cells : List TableLeafCell} :
    FitLeaf cells ↔ (cells.map fun c => c.size + 2).sum ≤ pageSize - leafHeaderSize := by
  have hsum : (cells.map fun c => c.size + 2).sum = (cells.map TableLeafCell.size).sum +
      2 * cells.length := by
    induction cells with
    | nil => rfl
    | cons c cells ih =>
        simp only [List.map_cons, List.sum_cons, List.length_cons]
        omega
  have hused : (PageBody.tableLeaf cells).usedBytes = 8 + 2 * (cells.map TableLeafCell.size).length +
      (cells.map TableLeafCell.size).sum := rfl
  have hroom : pageSize - leafHeaderSize = 4088 := rfl
  have hpage : pageSize = 4096 := rfl
  rw [List.length_map] at hused
  unfold FitLeaf
  omega

/-- The cut closest to half the bytes fits when some cut does. -/
theorem Cuttable.closest {cells : List TableLeafCell} (h : Cuttable cells) (hlen : 2 ≤ cells.length) :
    FitLeaf (cells.take (closestToHalfByBytes (cells.map fun c => c.size + 2))) ∧
      FitLeaf (cells.drop (closestToHalfByBytes (cells.map fun c => c.size + 2))) := by
  obtain ⟨left, right, heq, hleft, hright⟩ := h
  rw [fitLeaf_iff] at hleft hright
  rw [fitLeaf_iff, fitLeaf_iff, List.map_take, List.map_drop]
  refine @closestToHalfByBytes_fits _ _ left.length ?_ ?_ ?_
  · rwa [List.length_map]
  · rwa [heq, List.map_append, List.take_left' (List.length_map _)]
  · rwa [heq, List.map_append, List.drop_left' (List.length_map _)]

/-- A row alone in a leaf has room. -/
theorem fitLeaf_single (k : Int) (payload : Bytes) :
    FitLeaf [⟨k, placeholder .leafTable payload⟩] := by
  have hlocal : (localPart .leafTable payload).length ≤ 4061 := by
    rw [Stored.localPart_length]
    exact localPayloadSize_le _ _
  have hrowid := uvarintSize_le (toTwosComplement k)
  have htotal := uvarintSize_le payload.length
  have hsize : TableLeafCell.size ⟨k, placeholder .leafTable payload⟩ =
      uvarintSize (toTwosComplement k) + (uvarintSize payload.length +
        (localPart .leafTable payload).length +
          if (placeholder .leafTable payload).overflow = 0 then 0 else 4) := rfl
  have hroom : pageSize - leafHeaderSize = 4088 := rfl
  have hsum : ([⟨k, placeholder .leafTable payload⟩].map fun c : TableLeafCell => c.size + 2).sum =
      TableLeafCell.size ⟨k, placeholder .leafTable payload⟩ + 2 := rfl
  rw [fitLeaf_iff, hsum, hsize, hroom]
  split <;> omega

/-- The cut that `_split_leaf` makes around a new row, which fits when some cut
does: one that peels the last cell leaves the old cells and the new one. -/
theorem chooseSplit_spec {cells : List TableLeafCell} {slot : Nat} {newCell : TableLeafCell}
    (hne : cells ≠ []) (hcells : FitLeaf cells) (hnew : FitLeaf [newCell])
    (habove : ∀ c ∈ cells.drop slot, newCell.rowid < c.rowid) :
    ∃ n sep, 1 ≤ n ∧ n < (BTree.insertAt cells slot newCell).length ∧
      ((BTree.insertAt cells slot newCell).map TableLeafCell.rowid)[n - 1]? = some sep ∧
      (Cuttable (BTree.insertAt cells slot newCell) →
        FitLeaf ((BTree.insertAt cells slot newCell).take n) ∧
        FitLeaf ((BTree.insertAt cells slot newCell).drop n)) ∧
      BTree.chooseSplit cells slot newCell b = .ok ((BTree.insertAt cells slot newCell).take n,
        (BTree.insertAt cells slot newCell).drop n, sep) := by
  have hlen := length_insertAt cells slot newCell
  have hpos := List.length_pos_iff.mpr hne
  unfold BTree.chooseSplit
  simp only
  generalize happend : (b && (cells.map TableLeafCell.rowid).getLast?.all fun last =>
    decide (last < newCell.rowid)) = useAppendSplit
  rw [insertAt_map TableLeafCell.rowid]
  obtain ⟨n, sep, hn, hlt, hkey, hpeel, hclosest, hsplit⟩ := @splitCells_spec _ _ TableLeafCell.size
    (BTree.insertAt cells slot newCell) _ useAppendSplit (by omega)
    (List.length_map TableLeafCell.rowid)
  refine ⟨n, sep, hn, hlt, hkey, fun hcut => ?_, hsplit⟩
  cases useAppendSplit with
  | true =>
      -- the new row is behind the others
      obtain ⟨-, hlast⟩ := Bool.and_eq_true_iff.mp happend
      have hslot : cells.length ≤ slot := by
        by_contra hslot
        have hmem : cells.getLast hne ∈ cells.drop slot := by
          have hdrop : cells.drop slot ≠ [] := fun h => hslot (List.drop_eq_nil_iff.mp h)
          rw [← List.getLast_drop hdrop]
          exact List.getLast_mem hdrop
        rw [List.getLast?_map, List.getLast?_eq_some_getLast hne, Option.map_some, Option.all_some,
          decide_eq_true_eq] at hlast
        have := habove _ hmem
        omega
      have hcombined : BTree.insertAt cells slot newCell = cells ++ [newCell] := by
        rw [BTree.insertAt, List.take_of_length_le hslot, List.drop_of_length_le hslot]
      obtain rfl : n = cells.length := by
        have := hpeel rfl
        omega
      rw [hcombined, List.take_left, List.drop_left]
      exact ⟨hcells, hnew⟩
  | false =>
      rw [hclosest rfl]
      exact hcut.closest (by omega)

/-- The halves of the rows, with the row that carries its chain. -/
theorem halves_of_split (hr : Reached k T c l) (hasc : Ascending T.inorder)
    (habsent : Absent k l.items) {n : Nat} (hpos : 1 ≤ n) (hlt : n < l.items.length + 1)
    (hkey : ((BTree.insertAt l.items (leafSlot k l.items)
      ⟨k, st⟩).map Row.rowid)[n - 1]? = some sep) :
    Halves k c l st
      ((BTree.insertAt l.items (leafSlot k l.items)
        ⟨k, st⟩).take n)
      ((BTree.insertAt l.items (leafSlot k l.items)
        ⟨k, st⟩).drop n) sep := by
  have hinsert := hr.insert_ascending hasc habsent st
  have hlen := length_insertAt l.items
    (leafSlot k l.items) ⟨k, st⟩
  refine ⟨List.take_append_drop _ _, ?_, ?_, ?_⟩
  · obtain ⟨row, hrow, hsep⟩ := Option.map_eq_some_iff.mp (List.getElem?_map.symm.trans hkey)
    have htake := @List.take_add_one _ (BTree.insertAt l.items (leafSlot k l.items) ⟨k, st⟩) (n - 1)
    rw [hrow, Nat.sub_add_cancel hpos] at htake
    exact ⟨_, row, htake, hsep⟩
  · intro hnil
    have := List.drop_eq_nil_iff.mp hnil
    omega
  · rwa [List.take_append_drop]

end Choose

/-! ## `_split_leaf` -/

section Insert

variable {lost : Residue} {s s' : PageStore} {root : Nat} {others : Image} {H : Nat} {T : TableTree H}
variable {k : Int}
variable {c : Ctx Row Int 0} {l : Leaf Row} {E : DbError → PageStore → Prop}

theorem leafCells_live {img : Image} (hlive : Live s img) (hsub : TableTree.image (.leaf l) ⊆ img) :
    leafCells l.id s = (.ok (l.items.map Row.cell), s) := by
  rw [leafCells, bind_of_ok (readBody_leaf hlive hsub)]
  rfl

theorem Reached.leaf_subset (hr : Reached k T c l) : TableTree.image (.leaf l) ⊆ T.image := by
  intro p hp
  exact hr.image.mem_iff.mpr (List.mem_append_right _ hp)

theorem Reached.ctx_subset (hr : Reached k T c l) : c.image tableFormat.layout l.id ⊆ T.image := by
  intro p hp
  exact hr.image.mem_iff.mpr (List.mem_append_left _ hp)

theorem Reached.chain_small (hr : Reached k T c l) (ht : TableAt s root others T) :
    ∀ row ∈ l.items, ∀ i ∈ row.stored.chain, i < 2 ^ 32 := by
  intro row hrow i hi
  refine ht.small i ?_
  rw [← row.stored.image_ids] at hi
  obtain ⟨p, hp, rfl⟩ := List.mem_map.mp hi
  refine List.mem_map_of_mem (hr.leaf_subset (List.mem_cons_of_mem _ ?_))
  exact List.mem_flatMap.mpr ⟨row, hrow, hp⟩

/-- An insertion that returned. -/
def Inserted (root : Nat) (others : Image) (T : TableTree H) (k : Int) (payload : Bytes)
    (s' : PageStore) : Prop :=
  ∃ (H' : Nat) (T' : TableTree H') (st : Stored .leafTable) (xs ys : List Row),
    TableAt s' root others T' ∧ (Branching T → Branching T') ∧ st.data = payload ∧ T.items = xs ++ ys ∧
    T'.items = xs ++ ⟨k, st⟩ :: ys ∧ (∀ r ∈ xs, r.rowid < k) ∧ ∀ r ∈ ys, k < r.rowid

/-- An insertion that returned, and lost no page. -/
def InsertedBut (lost : Residue) (root : Nat) (others : Image) (T : TableTree H) (k : Int)
    (payload : Bytes) (s' : PageStore) : Prop :=
  ∃ (H' : Nat) (T' : TableTree H') (st : Stored .leafTable) (xs ys : List Row),
    TableAtBut lost s' root others T' ∧ (Branching T → Branching T') ∧ st.data = payload ∧
    T.items = xs ++ ys ∧
    T'.items = xs ++ ⟨k, st⟩ :: ys ∧ (∀ r ∈ xs, r.rowid < k) ∧ ∀ r ∈ ys, k < r.rowid

theorem InsertedBut.inserted {payload : Bytes} (h : InsertedBut lost root others T k payload s') :
    Inserted root others T k payload s' := by
  obtain ⟨H', T', st, xs, ys, hT', hrest⟩ := h
  exact ⟨H', T', st, xs, ys, hT'.toTableAt, hrest⟩

/-- The rows before and behind the new one. -/
theorem inserted_of_items (hreached : Reached k T c l) (hasc : Ascending T.inorder)
    (habsent : Absent k l.items) {st : Stored .leafTable} {payload : Bytes} (hdata : st.data = payload)
    (h : ∃ (H' : Nat) (T' : TableTree H'), TableAtBut lost s' root others T' ∧
      (Branching T → Branching T') ∧ T'.items = c.itemsBefore ++ BTree.insertAt l.items
        (leafSlot k l.items) ⟨k, st⟩ ++ c.itemsAfter) :
    InsertedBut lost root others T k payload s' := by
  obtain ⟨H', T', hT', hbranching, hitems⟩ := h
  obtain ⟨-, htake, -⟩ := hreached.slot hasc
  have hdrop := hreached.lt_drop hasc habsent
  have hold := hreached.items
  generalize leafSlot k l.items = i
    at htake hdrop hitems
  refine ⟨H', T', st, c.itemsBefore ++ l.items.take i, l.items.drop i ++ c.itemsAfter, hT', hbranching,
    hdata, ?_, ?_, fun r hr => ?_, fun r hr => ?_⟩
  · rw [hold, List.append_assoc, List.append_assoc, ← List.append_assoc (l.items.take i),
      List.take_append_drop]
  · rw [hitems, BTree.insertAt]
    simp only [List.append_assoc, List.cons_append]
  · rcases List.mem_append.mp hr with hr | hr
    · exact hreached.itemsBefore_lt r hr
    · exact htake r hr
  · rcases List.mem_append.mp hr with hr | hr
    · exact hdrop r hr
    · exact hreached.lt_itemsAfter hasc r hr

/-- An insertion that raised: nothing was written, or the file is full. -/
def InsertRaised (s : PageStore) (root : Nat) (others : Image) (T : TableTree H) (k : Int) (e : DbError)
    (s' : PageStore) : Prop :=
  s' = s ∨ e = tooBig ∧ ∃ (H' : Nat) (T' : TableTree H'), TableAt s' root others T' ∧
    (Branching T → Branching T') ∧ ∀ r ∈ T'.items, r ∈ T.items ∨ r.rowid = k

theorem recovers_insertRaised : Recovers (InsertRaised s root others T k) root others T k :=
  fun hT' hbranching hitems => .inr ⟨rfl, _, _, hT', hbranching, hitems⟩

/-- The cells of a leaf with the one that sizes the new row. -/
def combinedCells (k : Int) (payload : Bytes) (rows : List Row) : List TableLeafCell :=
  BTree.insertAt (rows.map Row.cell) (leafSlot k rows) ⟨k, placeholder .leafTable payload⟩

/-- The exceptions that an insertion may raise, and when: the file may be full, unless
the leaf and the freelist have room, the payload too long, the rowid present, or the
cells without a cut. -/
structure InsertErrors (E : DbError → PageStore → Prop) (s : PageStore) (root : Nat)
    (others : Image) (T : TableTree H) (k : Int) (payload : Bytes) (rows : List Row) : Prop where
  recovers : FitLeaf (combinedCells k payload rows) ∧ FreeFor .leafTable payload s ∨
    Recovers E root others T k
  tooLong : ∀ e, checkUvarint payload.length = .error e → E e s
  duplicate : ¬ Absent k rows → E (.duplicateRowId "Duplicate row id") s
  full : ∀ message, Absent k rows → checkUvarint payload.length = .ok () →
    ¬ Cuttable (combinedCells k payload rows) → E (.pageFull message) s

theorem insertErrors_insertRaised (payload : Bytes) (rows : List Row) :
    InsertErrors (InsertRaised s root others T k) s root others T k payload rows :=
  ⟨.inr recovers_insertRaised, fun _ _ => .inl rfl, fun _ => .inl rfl, fun _ _ _ _ => .inl rfl⟩

theorem Reached.fitLeaf (hr : Reached k T c l) (ht : TableAt s root others T) :
    FitLeaf (l.items.map Row.cell) :=
  ht.live.fits (l.id, .body (.tableLeaf (l.items.map Row.cell)))
    (List.mem_append_left _ (hr.leaf_subset (List.mem_cons_self ..)))

/-- The cut of a reached leaf around a row that it does not hold. -/
theorem Reached.chooseSplit (hr : Reached k T c l) (ht : TableAt s root others T)
    (habsent : Absent k l.items) (payload : Bytes)
    (hfull : ¬ FitLeaf (combinedCells k payload l.items)) (b : Bool) :
    ∃ n sep, 1 ≤ n ∧ n < (combinedCells k payload l.items).length ∧
      ((combinedCells k payload l.items).map TableLeafCell.rowid)[n - 1]? = some sep ∧
      (Cuttable (combinedCells k payload l.items) →
        FitLeaf ((combinedCells k payload l.items).take n) ∧
        FitLeaf ((combinedCells k payload l.items).drop n)) ∧
      BTree.chooseSplit (l.items.map Row.cell) (leafSlot k l.items)
        ⟨k, placeholder .leafTable payload⟩ b = .ok ((combinedCells k payload l.items).take n,
          (combinedCells k payload l.items).drop n, sep) := by
  refine chooseSplit_spec (fun hnil => hfull ?_) (hr.fitLeaf ht) (fitLeaf_single k payload) ?_
  · rw [combinedCells, hnil, BTree.insertAt, List.take_nil, List.drop_nil]
    exact fitLeaf_single k payload
  · intro cell hcell
    rw [← List.map_drop] at hcell
    obtain ⟨row, hrow, rfl⟩ := List.mem_map.mp hcell
    exact hr.lt_drop ht.ascending habsent row hrow

/-- Writing the halves that were chosen, with the cell of the stored row. -/
theorem writeHalves_post (hE : Recovers E root others T k) (ht : TableAt s root others T) (hr : Reached k T c l)
    (habsent : Absent k l.items) (st : Stored .leafTable) (hst : ∀ i ∈ st.chain, i < 2 ^ 32)
    {n : Nat} {sep : Int} (candidate : TableLeafCell) (hsize : candidate.size = (Row.cell ⟨k, st⟩).size)
    (hpos : 1 ≤ n) (hlt : n < l.items.length + 1)
    (hkey : ((BTree.insertAt l.items (leafSlot k l.items) ⟨k, st⟩).map Row.rowid)[n - 1]? = some sep)
    (hleft : FitLeaf ((BTree.insertAt (l.items.map Row.cell) (leafSlot k l.items) candidate).take n))
    (hright : FitLeaf ((BTree.insertAt (l.items.map Row.cell) (leafSlot k l.items) candidate).drop n))
    (hlive : LiveBut lost s' (st.image ++ (T.image ++ others))) :
    Post (BTree.writeSplit l.id c.path (parentOf c l.id)
      (((BTree.insertAt l.items (leafSlot k l.items) ⟨k, st⟩).take n).map Row.cell)
      (((BTree.insertAt l.items (leafSlot k l.items) ⟨k, st⟩).drop n).map Row.cell) sep) s'
      (fun _ s'' => InsertedBut lost root others T k st.data s'') E := by
  have hh := halves_of_split hr ht.ascending habsent hpos hlt hkey
  have hsizes : (BTree.insertAt (l.items.map Row.cell) (leafSlot k l.items) candidate).map
      TableLeafCell.size = ((BTree.insertAt l.items (leafSlot k l.items) ⟨k, st⟩).map Row.cell).map
        TableLeafCell.size := by
    rw [← insertAt_map, hsize, ← insertAt_map, ← insertAt_map]
  have hfits : ∀ {xs ys : List TableLeafCell}, xs.map TableLeafCell.size = ys.map TableLeafCell.size →
      FitLeaf xs → (PageBody.tableLeaf ys).usedBytes ≤ pageSize :=
    fun heq hxs => usedBytes_congr heq ▸ hxs
  refine (writeSplit_post hE ht hr hh hst (hfits ?_ hleft) (hfits ?_ hright)
    hlive).mono (fun _ s'' hs'' => ?_) fun _ _ he => he
  · rw [List.map_take, List.map_take, List.map_take, hsizes]
  · rw [List.map_drop, List.map_drop, List.map_drop, hsizes]
  · refine inserted_of_items hr ht.ascending habsent rfl ?_
    rwa [List.take_append_drop] at hs''

theorem splitLeaf_post (ht : TableAtBut lost s root others T) (hr : Reached k T c l)
    (habsent : Absent k l.items) {payload : Bytes} (hE : InsertErrors E s root others T k payload l.items)
    (hfull : ¬ FitLeaf (combinedCells k payload l.items)) :
    Post (BTree.splitLeaf l.id (leafSlot k l.items) c.path k payload) s
      (fun _ s' => InsertedBut lost root others T k payload s') E := by
  have hlive := ht.live
  have hrecovers : Recovers E root others T k := hE.recovers.resolve_left fun h => hfull h.1
  rw [BTree.splitLeaf, post_bind]
  refine Post.of_eq (readParent_live hlive fun p hp => List.mem_append_left _ (hr.ctx_subset hp)) ?_
  rw [post_bind]
  refine Post.of_eq (leafCells_live hlive fun p hp => List.mem_append_left _ (hr.leaf_subset hp)) ?_
  rw [post_bind]
  refine post_encodeCandidate hE.tooLong fun hcheck => ?_
  obtain ⟨n, sep, hpos, hlt, hkey, hcut, hchoose⟩ := hr.chooseSplit ht.toTableAt habsent payload hfull
    ((parentOf c l.id).all BTree.Parent.isRightmost)
  rw [hchoose, post_bind, post_lift_ok]
  simp only
  rw [post_bind, post_raiseIf]
  refine ⟨fun hunfit => hE.full _ habsent hcheck fun hcuttable => hunfit ?_, fun hfit => ?_⟩
  · obtain ⟨hleft, hright⟩ := hcut hcuttable
    exact ⟨decide_eq_true hleft, decide_eq_true hright⟩
  obtain ⟨hleft, hright⟩ := not_not.mp hfit
  have hleft := of_decide_eq_true hleft
  have hright := of_decide_eq_true hright
  rw [combinedCells] at hkey hlt hleft hright ⊢
  rw [length_insertAt, List.length_map] at hlt
  have hkeys : ∀ st : Stored .leafTable, ((BTree.insertAt l.items (leafSlot k l.items) ⟨k, st⟩).map
      Row.rowid)[n - 1]? = some sep := by
    intro st
    rw [← hkey, ← insertAt_map, ← insertAt_map, List.map_map]
    rfl
  have hslot : leafSlot k l.items ≤ (l.items.map Row.cell).length := by
    rw [List.length_map]
    exact (hr.slot ht.ascending).1
  split
  · rename_i hspills
    rw [post_bind]
    refine (spillPayload_post (.inr fun s' h => hrecovers.stands (ht.move h)) ht.kept).mono
      (fun p s₁ hs₁ => ?_) fun _ _ he => he
    obtain ⟨st, rfl, rfl, htail, -, hlive₁⟩ := hs₁
    rw [post_bind]
    refine post_encodeStored hcheck (.inr (hrecovers.stands (ht.move (hlive₁.forget _)))) fun hhead => ?_
    have hst := st.chain_small hhead htail
    have hsize : TableLeafCell.size ⟨k, placeholder .leafTable st.data⟩ = (Row.cell ⟨k, st⟩).size :=
      congrArg (uvarintSize (toTwosComplement k) + ·) st.size_placeholder
    have hwrite := writeHalves_post hrecovers ht.toTableAt hr habsent st hst ⟨k, placeholder .leafTable st.data⟩ hsize
      hpos hlt (hkeys st) hleft hright hlive₁
    -- the real cell replaces the sized one, in whichever half it is
    have hset := insertAt_set hslot (⟨k, placeholder .leafTable st.data⟩ : TableLeafCell)
      (Row.cell ⟨k, st⟩)
    rw [insertAt_map] at hset
    rw [List.map_take, List.map_drop, ← hset] at hwrite
    split
    · rename_i hin
      rw [List.length_take] at hin
      rw [List.take_set, List.drop_set_of_lt (by omega)] at hwrite
      exact hwrite
    · rename_i hout
      rw [List.length_take, length_insertAt, List.length_map] at hout
      have hlen : ((BTree.insertAt (l.items.map Row.cell) (leafSlot k l.items)
          ⟨k, placeholder .leafTable st.data⟩).take n).length = n := by
        rw [List.length_take, length_insertAt, List.length_map]
        omega
      rw [List.take_set_of_le (by omega), List.drop_set, if_neg (by omega)] at hwrite
      rw [hlen]
      exact hwrite
  · rename_i hspills
    rw [Bool.not_eq_true] at hspills
    have hpayload := Stored.payload_unspilled payload hspills
    have hcell : Row.cell ⟨k, Stored.unspilled payload hspills⟩ = ⟨k, placeholder .leafTable payload⟩ :=
      congrArg (TableLeafCell.mk k) hpayload
    have hwrite := writeHalves_post hrecovers ht.toTableAt hr habsent (Stored.unspilled payload hspills)
      (fun i hi => by cases hi) ⟨k, placeholder .leafTable payload⟩ (congrArg _ hcell.symm) hpos hlt
      (hkeys _) hleft hright ht.kept
    rwa [List.map_take, List.map_drop, ← insertAt_map, hcell] at hwrite

theorem usedBytes_insertAt (cells : List TableLeafCell) (i : Nat) (cell : TableLeafCell) :
    (PageBody.tableLeaf (BTree.insertAt cells i cell)).usedBytes =
      (PageBody.tableLeaf cells).usedBytes + (cell.size + 2) := by
  simp only [PageBody.usedBytes, PageBody.headerSize, PageBody.cellSizes]
  rw [← insertAt_map, length_insertAt, sum_insertAt]
  omega

/-- The leaf has room for the row. -/
theorem insertLeaf_post (ht : TableAt s root others T) (hr : Reached k T c l)
    (habsent : Absent k l.items) (st : Stored .leafTable) (hst : ∀ i ∈ st.chain, i < 2 ^ 32)
    (candidate : TableLeafCell) (hsize : candidate.size = (Row.cell ⟨k, st⟩).size)
    (hfits : (PageBody.tableLeaf (l.items.map Row.cell)).fits candidate.size = true)
    (hlive : LiveBut lost s' (st.image ++ (T.image ++ others))) :
    Post (writeBody l.id (.tableLeaf (BTree.insertAt (l.items.map Row.cell) (leafSlot k l.items)
      (Row.cell ⟨k, st⟩)))) s' (fun _ s'' => InsertedBut lost root others T k st.data s'') E := by
  have hpages : (st.image ++ (T.image ++ others)).Perm
      ((l.id, .body (.tableLeaf (l.items.map Row.cell))) ::
        ((BTree.insertAt l.items (leafSlot k l.items) ⟨k, st⟩).flatMap tableFormat.leafExtra ++
          (c.image tableFormat.layout l.id ++ others))) := by
    rw [← List.append_assoc, ← List.append_assoc]
    exact hr.image_insert.append_right others
  rw [insertAt_map]
  refine (writeBody_post (fun hbig => ?_) (hlive.perm hpages) fun hlt => ?_).mono
    (fun _ s'' hs'' => ?_) fun _ _ he => he
  · have hbig : 2 ^ 32 ≤ 0 := hbig
    omega
  · have hused := usedBytes_insertAt (l.items.map Row.cell) (leafSlot k l.items) (Row.cell ⟨k, st⟩)
    rw [insertAt_map] at hused
    rw [PageBody.fits, decide_eq_true_eq] at hfits
    omega
  · have hne : BTree.insertAt l.items (leafSlot k l.items) ⟨k, st⟩ ≠ [] :=
      List.append_ne_nil_of_right_ne_nil _ (List.cons_ne_nil _ _)
    refine inserted_of_items hr ht.ascending habsent rfl
      ⟨_, _, TableAt.of_leaf ht hr (hr.insert_ascending ht.ascending habsent st) (.inl ?_)
        (fun row hrow => ?_) hs''.1, hr.branching_leaf hne, items_plug _ _⟩
    · exact hne
    · rcases mem_insertAt hrow with rfl | hrow
      · exact hst
      · exact hr.chain_small ht row hrow

/-- Whether the leaf has room for the cell that sizes the row. -/
theorem fits_candidate (k : Int) (payload : Bytes) (rows : List Row) :
    (PageBody.tableLeaf (rows.map Row.cell)).fits
        (TableLeafCell.size ⟨k, placeholder .leafTable payload⟩) = true ↔
      FitLeaf (combinedCells k payload rows) := by
  rw [PageBody.fits, decide_eq_true_eq, FitLeaf, combinedCells, usedBytes_insertAt]

theorem absent_iff {rows : List Row} : Absent k rows ↔
    ¬ ((rows.map Row.cell)[leafSlot k rows]?.any fun c => decide (c.rowid = k)) = true := by
  rw [List.getElem?_map]
  unfold Absent
  cases rows[leafSlot k rows]? with
  | none => exact iff_of_true (fun r hr => by cases hr) Bool.false_ne_true
  | some row =>
      rw [Option.map_some, Option.any_some, decide_eq_true_eq]
      exact ⟨fun h => h row rfl, fun h r hr => Option.some.inj hr ▸ h⟩

/-- `BTree.insert` at the leaf it finds, whatever its exceptions are to leave. -/
theorem insert_post_but (ht : TableAtBut lost s root others T) {payload : Bytes} (hr : Reached k T c l)
    (hfind : BTree.findLeaf root k s = (.ok ((l.id, leafSlot k l.items) :: c.path), s))
    (hE : InsertErrors E s root others T k payload l.items) :
    Post (BTree.insert root k payload) s (fun _ s' => InsertedBut lost root others T k payload s') E := by
  have hlive := ht.live
  rw [BTree.insert, post_bind]
  refine Post.of_eq hfind ?_
  simp only
  rw [post_bind]
  refine Post.of_eq (leafCells_live hlive fun p hp => List.mem_append_left _ (hr.leaf_subset hp)) ?_
  rw [post_bind, post_raiseIf]
  refine ⟨fun hfound => hE.duplicate fun habsent => absent_iff.mp habsent hfound, fun hnew => ?_⟩
  have habsent := absent_iff.mpr hnew
  rw [post_bind]
  refine post_encodeCandidate hE.tooLong fun hcheck => ?_
  split
  · -- the leaf has room
    rename_i hfits
    have hover : FreeFor .leafTable payload s ∨ Recovers E root others T k := hE.recovers.imp_left And.right
    rw [post_bind]
    refine (spillPayload_post (hover.imp_right fun h s' hs' => h.stands (ht.move hs')) ht.kept).mono
      (fun p s₁ hs₁ => ?_) fun _ _ he => he
    obtain ⟨st, rfl, rfl, htail, hsmall, hlive₁⟩ := hs₁
    rw [post_bind]
    refine post_encodeStored hcheck (hover.imp (fun hfree => st.overflow_small (hsmall hfree))
      fun h => h.stands (ht.move (hlive₁.forget _))) fun hhead => ?_
    exact insertLeaf_post ht.toTableAt hr habsent st (st.chain_small hhead htail)
      ⟨k, placeholder .leafTable st.data⟩
      (congrArg (uvarintSize (toTwosComplement k) + ·) st.size_placeholder) hfits hlive₁
  · rename_i hfits
    exact splitLeaf_post ht hr habsent hE fun hfit => hfits ((fits_candidate k payload l.items).mpr hfit)

theorem insert_post_of (ht : TableAt s root others T) {payload : Bytes} (hr : Reached k T c l)
    (hfind : BTree.findLeaf root k s = (.ok ((l.id, leafSlot k l.items) :: c.path), s))
    (hE : InsertErrors E s root others T k payload l.items) :
    Post (BTree.insert root k payload) s (fun _ s' => Inserted root others T k payload s') E := by
  obtain ⟨lost, hlost⟩ := ht.exists_lost
  exact (insert_post_but hlost hr hfind hE).mono (fun _ _ h => h.inserted) fun _ _ he => he

/-- `BTree.insert`: the row goes between the smaller and the greater rowids, or the
tree stands, or the file has run out of page numbers. -/
theorem insert_post (ht : TableAt s root others T) (k : Int) (payload : Bytes) :
    Post (BTree.insert root k payload) s (fun _ s' => Inserted root others T k payload s')
      (InsertRaised s root others T k) := by
  obtain ⟨c, l, hr, hfind⟩ := findLeaf_spec ht k
  exact insert_post_of ht hr hfind (insertErrors_insertRaised payload l.items)

end Insert

end QuillDb
