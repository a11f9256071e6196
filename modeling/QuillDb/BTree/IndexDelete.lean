/-
  BTree/IndexDelete.lean --- deletion from an index tree.

  Source: `IndexBTree.delete`, `IndexBTree._replace_divider_with_predecessor` and
  `IndexBTree._rebalance` of `quilldb/btree/index.py`.

  A merge always fits and a rotation may not: the borrowed entry can be longer
  than the divider it replaces.  By then the emptied page and the sibling have
  been written.
-/
import QuillDb.BTree.IndexInsert
import QuillDb.BTree.Rebalance
import QuillDb.BTree.RebalanceMoves

set_option autoImplicit false

namespace QuillDb

open Prog PageStore PageTree

/-! ## Whether the rotations fit -/

/-- An interior page with these entries; its size does not depend on the children. -/
def interiorPage (ds : List Entry) : PageBody := .indexInterior (ds.map fun d => ⟨0, d.cell⟩) 0

/-- The emptied page is merged into its neighbour, and not refilled from it. -/
def mergesInto {h : Nat} (f : Frame Entry (IndexTree h)) (up : Ctx Entry Entry (h + 1))
    (nb : Neighbour Entry (IndexTree h)) : Bool :=
  nb.sibling.body.fits (cellSizeAt h nb.divider) &&
    !((frameDividers f).length = 1 && up.path ≠ [] && 2 ≤ nb.sibling.keys.length)

/-- The dividers of the parent once `b` has taken the place of the one beside the
hole. -/
def dividersWith {τ : Type} (f : Frame Entry τ) (b : Entry) : List Entry :=
  (frameDividers f).set (IndexBTree.chooseDonor f.pre.length (f.pre.length + f.post.length)).donorSlot b

/-- Going up from an emptied page, the first page that is not merged leaves its
parent room for the borrowed entry. -/
def refits : {h : Nat} → Ctx Entry Entry h → Bool
  | _, .root => true
  | _, .inside f up =>
      match neighbour f with
      | none => true
      | some nb =>
          if mergesInto f up nb then (frameDividers f).length ≠ 1 || refits up
          else (borrowed nb.prepend nb.sibling).all fun b =>
            (interiorPage (dividersWith f b)).usedBytes ≤ pageSize

/-! ## The pages around a pair -/

section Pages

variable {lost : Residue} {s s' : PageStore} {root : Nat} {others : Image} {h : Nat}

/-- The pages at `root` store a tree with these entries. -/
def IndexHolds (s : PageStore) (root : Nat) (others : Image) (es : List Entry) : Prop :=
  ∃ (H : Nat) (T : IndexTree H), T.id = root ∧ T.entries = es ∧ (H = 0 ∨ Celled T.image) ∧
    Small T.image ∧ Live s (T.image ++ others)

/-- So do they, and no page is lost but those of `lost`. -/
def IndexHoldsBut (lost : Residue) (s : PageStore) (root : Nat) (others : Image) (es : List Entry) :
    Prop :=
  ∃ (H : Nat) (T : IndexTree H), T.id = root ∧ T.entries = es ∧ (H = 0 ∨ Celled T.image) ∧
    Small T.image ∧ LiveBut lost s (T.image ++ others)

theorem IndexHoldsBut.holds {es : List Entry}
    (h : IndexHoldsBut lost s root others es) : IndexHolds s root others es := by
  obtain ⟨H, T, hid, hentries, hfilled, hsmall, hlive⟩ := h
  exact ⟨H, T, hid, hentries, hfilled, hsmall, hlive.live⟩

theorem indexHolds_plug (c : Ctx Entry Entry h) (t : IndexTree h) (hroot : c.rootId t.id = root)
    (hcelled : Celled (c.image indexFormat.layout t.id ++ t.image))
    (hsmall : Small (c.image indexFormat.layout t.id ++ t.image))
    (hlive : LiveBut lost s (c.image indexFormat.layout t.id ++ t.image ++ others)) :
    IndexHoldsBut lost s root others (c.entriesBefore ++ t.entries ++ c.entriesAfter) := by
  have himage := c.image_plug indexFormat.layout t
  refine ⟨_, (c.plug t).2, (c.id_plug t).trans hroot, entries_plug c t, .inr fun p hp => ?_,
    fun i hi => ?_, hlive.perm (himage.append_right others).symm⟩
  · exact hcelled p (himage.mem_iff.mp hp)
  · exact hsmall i ((himage.map Prod.fst).mem_iff.mp hi)

/-- The pages of a frame and of its context, but for the frame's own page. -/
def around (g : Frame Entry (IndexTree h)) (up : Ctx Entry Entry (h + 1)) : Image :=
  g.before indexFormat.image indexFormat.dividerExtra ++
    (g.after indexFormat.image indexFormat.dividerExtra ++ up.image indexFormat.layout g.id)

/-- The pages of a pair and of its context. -/
def pairImage (g : Frame Entry (IndexTree h)) (up : Ctx Entry Entry (h + 1)) (prepend : Bool)
    (d : Entry) (x sib : IndexTree h) : Image :=
  (g.id, .body (indexFormat.nodeBody ((pair g prepend d x sib).map LevelTree.id))) ::
    (LevelTree.id x, .body x.body) :: (LevelTree.id sib, .body sib.body) ::
      (x.below ++ (d.stored.image ++ sib.below) ++ around g up)

theorem pairImage_perm (g : Frame Entry (IndexTree h)) (up : Ctx Entry Entry (h + 1))
    (prepend : Bool) (d : Entry) (x sib : IndexTree h) :
    (up.image indexFormat.layout g.id ++ IndexTree.image (.node (pair g prepend d x sib))).Perm
      (pairImage g up prepend d x sib) := by
  have hnode : IndexTree.image (.node (pair g prepend d x sib)) =
      (g.id, .body (indexFormat.nodeBody ((pair g prepend d x sib).map LevelTree.id))) ::
        (pair g prepend d x sib).flatten indexFormat.image indexFormat.dividerExtra := by
    rw [← pair_id g prepend d x sib]
    rfl
  have hbeside := beside_perm prepend (indexFormat.image x) (indexFormat.dividerExtra d)
    (indexFormat.image sib)
  have hx : indexFormat.image x = _ := IndexTree.image_eq x
  have hsib : indexFormat.image sib = _ := IndexTree.image_eq sib
  rw [hnode, pair_flatten, pairImage, around, List.perm_iff_count]
  intro p
  have hcount := hbeside.count_eq p
  rw [hx, hsib, dividerExtra_index] at hcount
  rw [hx, hsib, dividerExtra_index]
  simp only [List.count_append, List.count_cons] at hcount ⊢
  omega

/-- The pages of a frame with its hole filled, and of its context. -/
theorem fillImage_perm (g : Frame Entry (IndexTree h)) (up : Ctx Entry Entry (h + 1))
    (m : IndexTree h) :
    (up.image indexFormat.layout g.id ++ IndexTree.image (.node (g.fill m))).Perm
      ((g.id, .body (indexFormat.nodeBody ((g.fill m).map LevelTree.id))) ::
        (LevelTree.id m, .body m.body) :: (m.below ++ around g up)) := by
  have hfill := (Ctx.image_fill indexFormat.layout g m).append_left (up.image indexFormat.layout g.id)
  have hm : LevelTree.image indexFormat.layout m = _ := IndexTree.image_eq m
  have hpage : (g.fill m).map LevelTree.id = (g.map LevelTree.id).fill m.id := Frame.map_fill _ g m
  have hbody : indexFormat.layout.nodePage ((g.map LevelTree.id).fill m.id) =
      .body (indexFormat.nodeBody ((g.map LevelTree.id).fill m.id)) := rfl
  refine hfill.trans ?_
  rw [hpage, Ctx.frameImage, hbody, hm, around, List.perm_iff_count]
  intro p
  simp only [List.count_append, List.count_cons]
  have hbefore : g.before (LevelTree.image indexFormat.layout) indexFormat.layout.dividerExtra =
      g.before indexFormat.image indexFormat.dividerExtra := rfl
  have hafter : g.after (LevelTree.image indexFormat.layout) indexFormat.layout.dividerExtra =
      g.after indexFormat.image indexFormat.dividerExtra := rfl
  rw [hbefore, hafter]
  omega

theorem usedBytes_node (n : Node Entry (IndexTree h)) :
    (indexFormat.nodeBody (n.map LevelTree.id)).usedBytes = (interiorPage n.dividers).usedBytes := by
  have hnode := IndexTree.usedBytes_perm (t := LevelTree.node n) (List.Perm.refl _)
  have hsizes : (interiorPage n.dividers).cellSizes = n.dividers.map (cellSizeAt (h + 1)) := by
    rw [interiorPage, PageBody.cellSizes, List.map_map]
    rfl
  have hpage : (interiorPage n.dividers).usedBytes = interiorHeaderSize + 2 * n.dividers.length +
      (n.dividers.map (cellSizeAt (h + 1))).sum := by
    rw [PageBody.usedBytes, hsizes, List.length_map]
    rfl
  exact hnode.trans hpage.symm

theorem usedBytes_interiorPage_le {ds es : List Entry} (hsub : ds.Sublist es) :
    (interiorPage ds).usedBytes ≤ (interiorPage es).usedBytes := by
  have hsizes := ((hsub.map fun d => (⟨0, d.cell⟩ : InteriorCell Payload)).map
    (InteriorCell.size Payload.size))
  have hlen := hsizes.length_le
  have hsum := hsizes.sum_le_sum fun _ _ => Nat.zero_le _
  simp only [interiorPage, PageBody.usedBytes, PageBody.headerSize, PageBody.cellSizes]
  omega

theorem fill_dividers_sublist (g : Frame Entry (IndexTree h)) (prepend : Bool) (d : Entry)
    (x sib m : IndexTree h) : (g.fill m).dividers.Sublist (pair g prepend d x sib).dividers := by
  rw [pair_dividers, Frame.fill_dividers]
  exact (List.sublist_cons_self _ _).append_left _

/-- The third page comes to the front. -/
theorem third_perm {α : Type} (a b c : α) (l : List α) : (a :: b :: c :: l).Perm (c :: a :: b :: l) :=
  (List.Perm.cons a (List.Perm.swap c b l)).trans (List.Perm.swap c a (b :: l))

/-- A page that the parent no longer names is written and the parent is. -/
theorem usedBytes_parent {g : Frame Entry (IndexTree h)} {up : Ctx Entry Entry (h + 1)}
    {prepend : Bool} {d : Entry} {x sib : IndexTree h}
    (hlive : LiveBut lost s (pairImage g up prepend d x sib ++ others)) :
    (interiorPage (pair g prepend d x sib).dividers).usedBytes ≤ pageSize ∧
      sib.body.usedBytes ≤ pageSize := by
  refine ⟨?_, ?_⟩
  · rw [← usedBytes_node]
    exact hlive.fits _ (List.mem_cons_self ..)
  · exact hlive.fits (LevelTree.id sib, .body sib.body)
      (List.mem_cons_of_mem _ (List.mem_cons_of_mem _ (List.mem_cons_self ..)))

theorem small_pairImage {g : Frame Entry (IndexTree h)} {up : Ctx Entry Entry (h + 1)}
    {prepend : Bool} {d : Entry} {x sib : IndexTree h} :
    Small (pairImage g up prepend d x sib) ↔ g.id < 2 ^ 32 ∧ LevelTree.id x < 2 ^ 32 ∧
      LevelTree.id sib < 2 ^ 32 ∧ Small (x.below ++ (d.stored.image ++ sib.below)) ∧
        Small (around g up) := by
  simp only [Small, pairImage, List.map_cons, List.map_append, List.forall_mem_cons,
    List.forall_mem_append]

theorem small_perm {img img' : Image} (hperm : img.Perm img') : Small img ↔ Small img' := by
  rw [Small, Small]
  exact forall_congr' fun i => imp_congr_left (hperm.map Prod.fst).mem_iff

/-- The right child of the parent after a merge. -/
theorem fill_last_lt {g : Frame Entry (IndexTree h)} {up : Ctx Entry Entry (h + 1)} {m : IndexTree h}
    (hm : LevelTree.id m < 2 ^ 32) (hbelow : Small m.below) (hsmall : Small (around g up)) :
    (indexFormat.nodeBody ((g.fill m).map LevelTree.id)).rightChild < 2 ^ 32 := by
  have hnode : Small (IndexTree.below (LevelTree.node (g.fill m))) := by
    have himage : indexFormat.image m = _ := IndexTree.image_eq m
    rw [below_node, Frame.flatten_fill, himage]
    simp only [Small, around, List.map_append, List.map_cons, List.forall_mem_append,
      List.forall_mem_cons] at hm hbelow hsmall ⊢
    exact ⟨⟨hsmall.1, hm, hbelow⟩, hsmall.2.1⟩
  exact rightChild_body_lt hnode

/-- The right child of the parent of a pair. -/
theorem pair_last_lt {g : Frame Entry (IndexTree h)} {up : Ctx Entry Entry (h + 1)} {prepend : Bool}
    {d : Entry} {x sib : IndexTree h} (hsmall : Small (pairImage g up prepend d x sib)) :
    (indexFormat.nodeBody ((pair g prepend d x sib).map LevelTree.id)).rightChild < 2 ^ 32 := by
  have hnode : Small (IndexTree.below (LevelTree.node (pair g prepend d x sib))) := by
    have himage := (pairImage_perm g up prepend d x sib).map Prod.fst
    intro i hi
    refine hsmall i (himage.mem_iff.mp ?_)
    rw [List.map_append]
    exact List.mem_append_right _ (List.mem_cons_of_mem _ hi)
  exact rightChild_body_lt hnode

/-- The pages of a merge are written: the sibling, the parent, and the page is freed. -/
theorem merge_post {g : Frame Entry (IndexTree h)} {up : Ctx Entry Entry (h + 1)} {prepend : Bool}
    {d : Entry} {x sib m : IndexTree h} (hm : Merged prepend x d sib m)
    (hfits : m.body.usedBytes ≤ pageSize) (hsmall : Small (pairImage g up prepend d x sib))
    (hlive : LiveBut lost s (pairImage g up prepend d x sib ++ others)) {k : StoreM (List RebalanceMove)}
    {Q : List RebalanceMove → PageStore → Prop} {E : DbError → PageStore → Prop}
    (hk : ∀ s', LiveBut lost s' ((g.id, .body (indexFormat.nodeBody ((g.fill m).map LevelTree.id))) ::
      (LevelTree.id m, .body m.body) :: (m.below ++ around g up) ++ others) → Post k s' Q E) :
    Post (do
      writeBody (LevelTree.id sib) m.body
      writeBody g.id (indexFormat.nodeBody ((g.fill m).map LevelTree.id))
      freePage (LevelTree.id x)
      k) s Q E := by
  obtain ⟨-, hx, hsib, hbelow, haround⟩ := small_pairImage.mp hsmall
  have hparent := (usedBytes_parent hlive).1
  have hright := rightChild_body_lt ((small_perm hm.below).mpr hbelow)
  have hlast := fill_last_lt (hm.id ▸ hsib) ((small_perm hm.below).mpr hbelow) haround
  have hused := usedBytes_interiorPage_le (fill_dividers_sublist g prepend d x sib m)
  rw [← usedBytes_node] at hused
  rw [post_bind]
  refine (writeBody_post (fun hbig => absurd hright (Nat.not_lt.mpr hbig))
    (hlive.perm (third_perm _ _ _ _)) fun hlt => absurd hfits (Nat.not_le.mpr hlt)).mono
    (fun _ s₁ h₁ => ?_) fun _ _ he => he
  rw [post_bind]
  refine (writeBody_post (fun hbig => absurd hlast (Nat.not_lt.mpr hbig))
    (h₁.1.perm (List.Perm.swap _ _ _)) fun hlt => by omega).mono (fun _ s₂ h₂ => ?_) fun _ _ he => he
  rw [post_bind]
  refine (freePage_post (h₂.1.perm (third_perm _ _ _ _)) hx).mono (fun _ s₃ h₃ => ?_) fun _ _ he => he
  refine hk s₃ (h₃.perm ?_)
  rw [hm.id]
  exact ((hm.below.symm.append_right _).append_right _).cons _ |>.cons _

/-- A page of `img` holds fewer cells than it did. -/
def Robbed (img : Image) (s : PageStore) : Prop :=
  ∃ i b b', (i, .body b) ∈ img ∧ s.pages i = .body b' ∧ b'.cellSizes.length < b.cellSizes.length

/-- What serializing a body that does not fit raises. -/
def bodyTooBig : DbError := .pageFull "The current page body exceeded the limit"

/-- A `PageFullError`. -/
def OutOfRoom (e : DbError) : Prop := ∃ message, e = .pageFull message

theorem cellSizeAt_le (h : Nat) (e : Entry) : cellSizeAt h e + 2 ≤ interiorCap := by
  have hcap := e.size_cell_le
  cases h with
  | zero =>
      rw [cellSizeAt]
      omega
  | succ h =>
      rw [cellSizeAt]
      omega

theorem usedBytes_singleton {t : IndexTree h} {d : Entry} (hkeys : t.keys = [d]) :
    t.body.usedBytes ≤ pageSize := by
  have hused := IndexTree.usedBytes_perm (List.Perm.of_eq hkeys)
  have hheader := t.headerSize_body
  have hcell := cellSizeAt_le h d
  have hcap : interiorCap = 1021 := by decide
  have hpage : pageSize = 4096 := rfl
  have hsizes : leafHeaderSize = 8 ∧ interiorHeaderSize = 12 := ⟨rfl, rfl⟩
  rw [List.map_singleton, List.sum_singleton, List.length_singleton] at hused
  split at hheader <;> omega

theorem usedBytes_lent {t t' : IndexTree h} {b : Entry} (hkeys : t.keys.Perm (b :: t'.keys)) :
    t'.body.usedBytes ≤ t.body.usedBytes := by
  have hused := IndexTree.usedBytes_perm hkeys
  have hused' := IndexTree.usedBytes_perm (List.Perm.refl t'.keys)
  have hheader := IndexTree.headerSize_congr t t'
  rw [List.map_cons, List.sum_cons, List.length_cons] at hused
  omega

/-- The parent of a pair with another divider. -/
theorem rotated_parent {g : Frame Entry (IndexTree h)} {prepend : Bool} {d b : Entry}
    {x sib x' sib' : IndexTree h} (hr : Rotated prepend x d sib b x' sib') :
    PageBody.indexInterior
      ((((pair g prepend d x sib).map LevelTree.id).kids.map indexFormat.cell).set g.pre.length
        ⟨if prepend then LevelTree.id x else LevelTree.id sib, b.cell⟩)
      ((pair g prepend d x sib).map LevelTree.id).last =
    indexFormat.nodeBody ((pair g prepend b x' sib').map LevelTree.id) := by
  have hlen : g.pre.length = (g.map LevelTree.id).pre.length := (List.length_map _).symm
  have hlast : ∀ e, (pair (g.map LevelTree.id) prepend e x.id sib.id).last =
      (linkPost (if prepend then sib.id else x.id) (g.map LevelTree.id).post).2 :=
    fun e => (pair_kids _ _ _ _ _).2
  rw [pair_map, pair_map, hr.id, hr.sibling_id, hlen, pair_set, hlast d, ← hlast b]
  rfl

theorem small_rotated {g : Frame Entry (IndexTree h)} {up : Ctx Entry Entry (h + 1)}
    {prepend : Bool} {d b : Entry} {x sib x' sib' : IndexTree h}
    (hr : Rotated prepend x d sib b x' sib') (hsmall : Small (pairImage g up prepend d x sib)) :
    Small (pairImage g up prepend b x' sib') := by
  obtain ⟨hg, hx, hsib, hbelow, haround⟩ := small_pairImage.mp hsmall
  exact small_pairImage.mpr ⟨hg, hr.id ▸ hx, hr.sibling_id ▸ hsib,
    (small_perm hr.below).mpr hbelow, haround⟩

/-- The pages of a rotation are written: the sibling, the emptied page and, if it
has room for the borrowed entry, the parent. -/
theorem rotate_post {g : Frame Entry (IndexTree h)} {up : Ctx Entry Entry (h + 1)} {prepend : Bool}
    {d b : Entry} {x sib x' sib' : IndexTree h} (hr : Rotated prepend x d sib b x' sib')
    (hsmall : Small (pairImage g up prepend d x sib))
    (hlive : LiveBut lost s (pairImage g up prepend d x sib ++ others))
    {Q : List RebalanceMove → PageStore → Prop} {E : DbError → PageStore → Prop}
    (hQ : (interiorPage (pair g prepend b x sib).dividers).usedBytes ≤ pageSize →
      ∀ s', LiveBut lost s' (pairImage g up prepend b x' sib' ++ others) → Q [.rotate] s')
    (hE : pageSize < (interiorPage (pair g prepend b x sib).dividers).usedBytes →
      ∀ s', Robbed [(LevelTree.id sib, .body sib.body)] s' → E bodyTooBig s') :
    Post (do
      writeBody (LevelTree.id sib) sib'.body
      initBody (LevelTree.id x) x'.body
      let cell ← lift (encodeInteriorIndexCell
        (if prepend then LevelTree.id x else LevelTree.id sib) b.cell)
      writeBody g.id (.indexInterior
        ((((pair g prepend d x sib).map LevelTree.id).kids.map indexFormat.cell).set g.pre.length cell)
        ((pair g prepend d x sib).map LevelTree.id).last)
      return [.rotate]) s Q E := by
  have hsmall' := small_rotated hr hsmall
  obtain ⟨-, hx', -, hbelow, -⟩ := small_pairImage.mp hsmall'
  rw [hr.id] at hx'
  have hlive' : LiveBut lost s ((LevelTree.id sib, .body sib.body) :: (LevelTree.id x, .body x.body) ::
      (g.id, .body (indexFormat.nodeBody ((pair g prepend d x sib).map LevelTree.id))) ::
        (x'.below ++ (b.stored.image ++ sib'.below) ++ around g up ++ others)) := by
    refine hlive.perm ?_
    rw [pairImage, List.perm_iff_count]
    intro p
    have hcount := hr.below.count_eq p
    simp only [List.count_append, List.count_cons] at hcount ⊢
    omega
  have hb : b.Packs := by
    refine b.packs_of_live (I := (LevelTree.id sib, .body sib.body) ::
      (LevelTree.id x, .body x.body) ::
        (g.id, .body (indexFormat.nodeBody ((pair g prepend d x sib).map LevelTree.id))) ::
          (x'.below ++ sib'.below ++ around g up ++ others)) (hlive'.perm ?_).live fun i hi => hbelow i ?_
    · rw [List.perm_iff_count]
      intro p
      simp only [List.count_append, List.count_cons]
      omega
    · rw [List.map_append, List.map_append]
      exact List.mem_append_right _ (List.mem_append_left _ hi)
  have hleft : (if prepend then LevelTree.id x else LevelTree.id sib) < 2 ^ 32 := by
    obtain ⟨-, hx, hsib, -⟩ := small_pairImage.mp hsmall
    cases prepend with
    | true => exact hx
    | false => exact hsib
  have hsibRight : sib'.body.rightChild < 2 ^ 32 := rightChild_body_lt fun i hi => hbelow i (by
    rw [List.map_append, List.map_append]
    exact List.mem_append_right _ (List.mem_append_right _ hi))
  have hxRight : x'.body.rightChild < 2 ^ 32 := rightChild_body_lt fun i hi => hbelow i (by
    rw [List.map_append]
    exact List.mem_append_left _ hi)
  have hparentRight := pair_last_lt hsmall'
  have hsibFits := (usedBytes_lent hr.sibling_keys).trans (usedBytes_parent hlive).2
  have hdividers : (pair g prepend b x' sib').dividers = (pair g prepend b x sib).dividers := by
    rw [pair_dividers, pair_dividers]
  rw [post_bind]
  refine (writeBody_post (fun hbig => absurd hsibRight (Nat.not_lt.mpr hbig)) hlive'
    fun hlt => absurd hsibFits (Nat.not_le.mpr hlt)).mono (fun _ s₁ h₁ => ?_) fun _ _ he => he
  rw [post_bind]
  refine (initBody_post (fun hbig => absurd hxRight (Nat.not_lt.mpr hbig))
    (h₁.1.perm (List.Perm.swap _ _ _)) fun hlt => absurd (usedBytes_singleton hr.keys)
      (Nat.not_le.mpr hlt)).mono (fun _ s₂ h₂ => ?_) fun _ _ he => he
  rw [hb.encodeInterior hleft, post_bind, post_lift_ok, rotated_parent hr, post_bind]
  have h₂ := h₂.1.perm (third_perm _ _ _ _)
  refine (writeBody_post (fun hbig => absurd hparentRight (Nat.not_lt.mpr hbig)) h₂
    fun hlt => ?_).mono (fun _ s₃ h₃ => ?_) fun _ _ he => he
  · rw [usedBytes_node, hdividers] at hlt
    refine hE hlt s₂ ⟨LevelTree.id sib, sib.body, sib'.body, List.mem_singleton_self _, ?_, ?_⟩
    · exact h₂.holds (LevelTree.id sib, .body sib'.body)
        (List.mem_cons_of_mem _ (List.mem_cons_of_mem _ (List.mem_cons_self ..)))
    · rw [IndexTree.cellSizes_body, IndexTree.cellSizes_body, List.length_map, List.length_map,
        hr.sibling_keys.length_eq]
      exact Nat.lt_succ_self _
  · have hfits := h₃.1.fits _ (List.mem_cons_self ..)
    have hfits : (indexFormat.nodeBody ((pair g prepend b x' sib').map LevelTree.id)).usedBytes ≤
      pageSize := hfits
    rw [usedBytes_node, hdividers] at hfits
    refine hQ hfits s₃ (h₃.1.perm ?_)
    rw [pairImage, hr.id, hr.sibling_id]
    exact List.Perm.refl _

end Pages

/-! ## `_rebalance` -/

section Rebalance

variable {lost : Residue} {s s' : PageStore} {root : Nat} {others : Image} {h : Nat}
variable {f g : Frame Entry (IndexTree h)} {up : Ctx Entry Entry (h + 1)} {x : IndexTree h}
variable {nb : Neighbour Entry (IndexTree h)}

variable (up x) in
theorem paired_perm (hid : g.id = f.id) (hp : PairedAt f nb g) :
    ((Ctx.inside f up).image indexFormat.layout (LevelTree.id x) ++ IndexTree.image x).Perm
      (pairImage g up nb.prepend nb.divider x nb.sibling) := by
  have hfill := (Ctx.image_fill indexFormat.layout f x).append_left (up.image indexFormat.layout f.id)
  have hpair := pairImage_perm g up nb.prepend nb.divider x nb.sibling
  rw [hp.fill x] at hfill
  rw [hid] at hpair
  refine List.Perm.trans ?_ (hfill.symm.trans hpair)
  rw [Ctx.image, ← List.append_assoc]
  exact List.perm_append_comm.append_right _

variable (up x) in
/-- What lies beside the hole is outside it. -/
theorem paired_subset (hid : g.id = f.id) (hp : PairedAt f nb g) :
    nb.divider.stored.image ++ (IndexTree.image nb.sibling ++ around g up) ⊆
      (Ctx.inside f up).image indexFormat.layout (LevelTree.id x) := by
  have hbefore := hp.before indexFormat.image indexFormat.dividerExtra
  have hbeside := beside_perm nb.prepend [] (indexFormat.dividerExtra nb.divider)
    (indexFormat.image nb.sibling)
  have hout (q) (hq : q ∈ f.before indexFormat.image indexFormat.dividerExtra ++
      f.after indexFormat.image indexFormat.dividerExtra) :
      q ∈ (Ctx.inside f up).image indexFormat.layout (LevelTree.id x) :=
    List.mem_append_left _ (List.mem_cons_of_mem _ hq)
  rw [hbefore] at hout
  have hin (q) (hq : q ∈ nb.divider.stored.image ++ IndexTree.image nb.sibling) :
      q ∈ (Ctx.inside f up).image indexFormat.layout (LevelTree.id x) :=
    hout q (List.mem_append_left _ (List.mem_append_right _ (hbeside.mem_iff.mpr hq)))
  intro q hq
  rcases List.mem_append.mp hq with hq | hq
  · exact hin q (List.mem_append_left _ hq)
  · rcases List.mem_append.mp hq with hq | hq
    · exact hin q (List.mem_append_right _ hq)
    · rcases List.mem_append.mp hq with hq | hq
      · exact hout q (List.mem_append_left _ (List.mem_append_left _ hq))
      · rcases List.mem_append.mp hq with hq | hq
        · exact hout q (List.mem_append_right _ hq)
        · rw [hid] at hq
          exact List.mem_append_right _ hq

variable (up x) in
/-- A merge or a rotation lists what was there. -/
theorem paired_entries (hp : PairedAt f nb g) (es : List Entry)
    (hes : es = g.before LevelTree.entries (fun e => [e]) ++
      beside nb.prepend x.entries [nb.divider] nb.sibling.entries ++
        g.after LevelTree.entries fun e => [e]) :
    up.entriesBefore ++ es ++ up.entriesAfter =
      (Ctx.inside f up).entriesBefore ++ x.entries ++ (Ctx.inside f up).entriesAfter := by
  have hflat := pair_flatten LevelTree.entries (fun e => [e]) g nb.prepend nb.divider x nb.sibling
  have hfill := entries_fill f x
  rw [hp.fill x, entries_node, hflat, ← hes] at hfill
  rw [hfill, entriesBefore_inside, entriesAfter_inside]
  simp only [List.append_assoc]

/-- The root is the only page without a parent. -/
theorem id_ne_root_iff (hroot : up.rootId f.id = root)
    (hlive : LiveBut lost s ((Ctx.inside f up).image indexFormat.layout (LevelTree.id x) ++ others)) :
    f.id ≠ root ↔ up.path ≠ [] := by
  rw [← hroot]
  cases up with
  | root => exact iff_of_false (fun h => h rfl) (fun h => h Ctx.path_root)
  | inside f' up' =>
      refine iff_of_true (fun heq => ?_) (List.cons_ne_nil _ _)
      have hmem := Ctx.rootId_mem indexFormat.layout (Ctx.inside f' up') f.id (List.cons_ne_nil _ _)
      have hnodup := hlive.live.forget_right.ids_nodup
      rw [Ctx.image, List.map_append] at hnodup
      exact (List.nodup_append.mp hnodup).2.2 f.id (List.mem_cons_self ..) _ (heq ▸ hmem) rfl

theorem mergesInto_iff (hroot : f.id ≠ root ↔ up.path ≠ []) :
    (nb.sibling.body.fits (cellSizeAt h nb.divider) = true ∧
      ¬ ((f.pre.length + f.post.length = 1 ∧ f.id ≠ root) ∧
      2 ≤ nb.sibling.body.cellSizes.length)) ↔ mergesInto f up nb = true := by
  rw [mergesInto, Bool.and_eq_true, Bool.not_eq_true', ← Bool.not_eq_true, Bool.and_eq_true,
    Bool.and_eq_true, decide_eq_true_eq, decide_eq_true_eq, decide_eq_true_eq, length_frameDividers, hroot,
    IndexTree.cellSizes_body, List.length_map]

/-- A sibling of one cell always has room for the divider. -/
theorem two_le_of_not_merges (hsib : nb.sibling.keys ≠ []) (hmerges : mergesInto f up nb = false) :
    2 ≤ nb.sibling.keys.length := by
  by_contra hone
  obtain ⟨b, hb⟩ : ∃ b, nb.sibling.keys = [b] := by
    refine List.length_eq_one_iff.mp ?_
    have := List.length_pos_iff.mpr hsib
    omega
  have hused := IndexTree.usedBytes_perm (List.Perm.of_eq hb)
  have hheader := nb.sibling.headerSize_body
  have hcell := cellSizeAt_le h b
  have hdivider := cellSizeAt_le h nb.divider
  have hcap : interiorCap = 1021 := by decide
  have hpage : pageSize = 4096 := rfl
  have hsizes : leafHeaderSize = 8 ∧ interiorHeaderSize = 12 := ⟨rfl, rfl⟩
  rw [List.map_singleton, List.sum_singleton, List.length_singleton] at hused
  have hfits : nb.sibling.body.fits (cellSizeAt h nb.divider) = true := by
    rw [PageBody.fits, decide_eq_true_eq]
    split at hheader <;> omega
  rw [mergesInto, hfits, Bool.true_and, Bool.not_eq_false', Bool.and_eq_true,
    decide_eq_true_eq (p := 2 ≤ _)] at hmerges
  exact hone hmerges.2

/-- What `_rebalance` reads, and the move it makes. -/
theorem rebalance_step {slot : Nat} {m : IndexTree h} {b : Entry} {x' sib' : IndexTree h}
    (hid : g.id = f.id) (hp : PairedAt f nb g)
    (hm : Merged nb.prepend x nb.divider nb.sibling m)
    (hr : Rotated nb.prepend x nb.divider nb.sibling b x' sib') (hsib : nb.sibling.keys ≠ [])
    (hlive : LiveBut lost s (pairImage g up nb.prepend nb.divider x nb.sibling ++ others))
    (hnotroot : f.id ≠ root ↔ up.path ≠ [])
    {Q : List RebalanceMove → PageStore → Prop} {E : DbError → PageStore → Prop}
    (hmerge : mergesInto f up nb = true → Post (do
      writeBody (LevelTree.id nb.sibling) m.body
      writeBody g.id (indexFormat.nodeBody ((g.fill m).map LevelTree.id))
      freePage (LevelTree.id x)
      if ((g.fill m).map LevelTree.id).kids.map indexFormat.cell = [] then
        let moves ← IndexBTree.rebalanceMoves root ((g.id, f.pre.length) :: up.path)
        return .merge :: moves
      else return [.merge]) s Q E)
    (hrotate : mergesInto f up nb = false → Post (do
      writeBody (LevelTree.id nb.sibling) sib'.body
      initBody (LevelTree.id x) x'.body
      let cell ← lift (encodeInteriorIndexCell
        (if nb.prepend then LevelTree.id x else LevelTree.id nb.sibling) b.cell)
      writeBody g.id (.indexInterior
        ((((pair g nb.prepend nb.divider x nb.sibling).map LevelTree.id).kids.map
          indexFormat.cell).set g.pre.length cell)
        ((pair g nb.prepend nb.divider x nb.sibling).map LevelTree.id).last)
      return [.rotate]) s Q E) :
    Post (IndexBTree.rebalanceMoves root ((LevelTree.id x, slot) :: (Ctx.inside f up).path)) s Q E := by
  have hx : readBody (LevelTree.id x) s = (.ok x.body, s) :=
    readBody_live hlive.live (List.mem_cons_of_mem _ (List.mem_cons_self ..))
  have hsibling : readBody (LevelTree.id nb.sibling) s = (.ok nb.sibling.body, s) :=
    readBody_live hlive.live
      (List.mem_cons_of_mem _ (List.mem_cons_of_mem _ (List.mem_cons_self ..)))
  have hparent : readBody f.id s = (.ok (indexFormat.nodeBody
      ((pair g nb.prepend nb.divider x nb.sibling).map LevelTree.id)), s) :=
    hid ▸ readBody_live hlive.live (List.mem_cons_self ..)
  generalize hcells : ((pair g nb.prepend nb.divider x nb.sibling).map LevelTree.id).kids.map
    indexFormat.cell = cells at hrotate
  generalize hlast : ((pair g nb.prepend nb.divider x nb.sibling).map LevelTree.id).last =
    rightChild at hrotate
  have hinterior : indexInteriorCells f.id s = (.ok (cells, rightChild), s) := by
    rw [← hcells, ← hlast]
    exact indexInteriorCells_of_read hparent
  have hlen : cells.length = f.pre.length + f.post.length := by
    rw [← hcells, List.length_map, Node.map, List.length_map, ← hp.fill x, f.fill_kids_length]
  have hdonor : cellAt cells g.pre.length = .ok
      ⟨if nb.prepend then LevelTree.id x else LevelTree.id nb.sibling, nb.divider.cell⟩ := by
    have hget := pair_cellAt (g.map LevelTree.id) nb.prepend nb.divider (LevelTree.id x)
      (LevelTree.id nb.sibling)
    rw [← pair_map, hcells] at hget
    rwa [show (g.map LevelTree.id).pre.length = g.pre.length from List.length_map _] at hget
  have hchild : childAt (childrenOfInterior cells rightChild)
      (if nb.prepend then g.pre.length + 1 else g.pre.length) = .ok (LevelTree.id nb.sibling) := by
    have hget := pair_childAt (g.map LevelTree.id) nb.prepend nb.divider (LevelTree.id x)
      (LevelTree.id nb.sibling)
    rw [← pair_map, hcells, hlast] at hget
    rwa [show (g.map LevelTree.id).pre.length = g.pre.length from List.length_map _] at hget
  have hne : cells ≠ [] := by
    rintro rfl
    cases hdonor
  rw [Ctx.path, IndexBTree.rebalanceMoves, post_bind]
  refine Post.of_eq hx ?_
  simp only
  rw [post_bind]
  refine Post.of_eq hinterior ?_
  simp only
  rw [if_neg hne, hlen, hp.siblingSlot, hp.donorSlot, hp.prepend, hchild, hdonor, post_bind,
    post_lift_ok, post_bind, post_lift_ok, post_bind]
  refine Post.of_eq hsibling ?_
  rw [hm.code, post_bind, post_lift_ok]
  simp only
  by_cases hmerges : mergesInto f up nb = true
  · have herase := pair_eraseIdx (g.map LevelTree.id) nb.prepend nb.divider (LevelTree.id x)
      (LevelTree.id nb.sibling) fun hfalse => by
        rw [Frame.map, hp.last hfalse]
        rfl
    rw [← pair_map, hcells, hlast, ← hm.id, ← Frame.map_fill,
      show (g.map LevelTree.id).pre.length = g.pre.length from List.length_map _] at herase
    have hbody : PageBody.indexInterior (cells.eraseIdx g.pre.length)
        (if nb.prepend then rightChild else LevelTree.id m) =
          indexFormat.nodeBody ((g.fill m).map LevelTree.id) := by
      rw [herase.1, herase.2]
      rfl
    rw [if_pos ((mergesInto_iff hnotroot).mpr hmerges), ← hm.id, hbody, herase.1, ← hid, hm.id]
    exact hmerge hmerges
  · have htwo := two_le_of_not_merges hsib (Bool.not_eq_true _ ▸ hmerges)
    rw [if_neg (fun hcode => hmerges ((mergesInto_iff hnotroot).mp hcode)),
      if_pos (by rwa [IndexTree.cellSizes_body, List.length_map]), hr.code, post_bind, post_lift_ok,
      ← hid]
    exact hrotate (Bool.not_eq_true _ ▸ hmerges)

theorem Robbed.mono {img img' : Image} (h : Robbed img s) (hsub : img ⊆ img') : Robbed img' s := by
  obtain ⟨i, b, b', hmem, hpage, hlt⟩ := h
  exact ⟨i, b, b', hsub hmem, hpage, hlt⟩

/-- The dividers of the parent after a rotation. -/
theorem dividersWith_eq (hp : PairedAt f nb g) (b : Entry) :
    dividersWith f b = (pair g nb.prepend b x nb.sibling).dividers := by
  rw [dividersWith, hp.donorSlot, hp.dividers, pair_dividers,
    List.set_append_right _ _ (by rw [List.length_map]), List.length_map, Nat.sub_self,
    List.set_cons_zero]

theorem refits_inside (hnb : neighbour f = some nb) : refits (.inside f up) =
    if mergesInto f up nb then (frameDividers f).length ≠ 1 || refits up
    else (borrowed nb.prepend nb.sibling).all fun b =>
      (interiorPage (dividersWith f b)).usedBytes ≤ pageSize := by
  rw [refits, hnb]

/-- The root page takes the number of its only child's place. -/
def withId (i : Nat) : {h : Nat} → IndexTree h → IndexTree h
  | 0, t => LevelTree.leaf ⟨i, Leaf.items t⟩
  | _ + 1, t => LevelTree.node ⟨i, Node.kids t, Node.last t⟩

theorem id_withId (i : Nat) (t : IndexTree h) : LevelTree.id (withId i t) = i := by
  cases h <;> rfl

theorem entries_withId (i : Nat) (t : IndexTree h) : (withId i t).entries = t.entries := by
  cases h <;> rfl

theorem image_withId (i : Nat) (t : IndexTree h) :
    IndexTree.image (withId i t) = (i, .body t.body) :: t.below := by
  cases h <;> rfl

/-- `_pull_up_into_root`. -/
theorem pullUpIntoRoot_post {only : IndexTree h} (hsmall : Small ((root, .body (.indexInterior []
    (LevelTree.id only))) :: IndexTree.image only))
    (hcelled : Celled (IndexTree.image only))
    (hlive : LiveBut lost s ((root, .body (.indexInterior [] (LevelTree.id only))) ::
      (IndexTree.image only ++ others))) {E : DbError → PageStore → Prop} :
    Post (IndexBTree.pullUpIntoRoot root (LevelTree.id only)) s
      (fun _ s' => IndexHoldsBut lost s' root others only.entries) E := by
  have himage := IndexTree.image_eq only
  rw [himage] at hlive hsmall hcelled
  have hchild : LevelTree.id only < 2 ^ 32 :=
    hsmall _ (List.mem_cons_of_mem _ (List.mem_cons_self ..))
  have hright : only.body.rightChild < 2 ^ 32 := rightChild_body_lt fun i hi =>
    hsmall i (List.mem_cons_of_mem _ (List.mem_cons_of_mem _ hi))
  have hfits : only.body.usedBytes ≤ pageSize :=
    hlive.fits (LevelTree.id only, .body only.body) (List.mem_cons_of_mem _ (List.mem_cons_self ..))
  rw [IndexBTree.pullUpIntoRoot, post_bind]
  refine Post.of_eq (readBody_live hlive.live (List.mem_cons_of_mem _ (List.mem_cons_self ..))) ?_
  rw [post_bind]
  refine (initBody_post (fun hbig => absurd hright (Nat.not_lt.mpr hbig)) hlive
    fun hlt => absurd hfits (Nat.not_le.mpr hlt)).mono (fun _ s₁ h₁ => ?_) fun _ _ he => he
  refine (freePage_post (h₁.1.perm (List.Perm.swap _ _ _)) hchild).mono (fun _ s₂ h₂ => ?_)
    fun _ _ he => he
  have hroot := image_withId root only
  refine ⟨h, withId root only, id_withId _ _, entries_withId _ _, .inr ?_, ?_, ?_⟩
  · rw [hroot]
    intro p hp
    rcases List.mem_cons.mp hp with rfl | hp
    · exact hcelled (LevelTree.id only, .body only.body) (List.mem_cons_self ..)
    · exact hcelled p (List.mem_cons_of_mem _ hp)
  · rw [hroot]
    intro i hi
    rcases List.mem_cons.mp hi with rfl | hi
    · exact hsmall _ (List.mem_cons_self ..)
    · exact hsmall i (List.mem_cons_of_mem _ (List.mem_cons_of_mem _ hi))
  · rw [hroot]
    exact h₂

theorem celled_perm {img img' : Image} (hperm : img.Perm img') : Celled img ↔ Celled img' :=
  forall_congr' fun _ => imp_congr_left hperm.mem_iff

/-- The pages of a rotated pair have cells. -/
theorem celled_pair {prepend : Bool} {b : Entry} {x' sib' : IndexTree h}
    (haround : Celled (around g up)) (hx : x'.keys ≠ []) (hsib : sib'.keys ≠ [])
    (hbelow : Celled (x'.below ++ (b.stored.image ++ sib'.below))) :
    Celled (up.image indexFormat.layout g.id ++
      IndexTree.image (.node (pair g prepend b x' sib'))) := by
  refine (celled_perm (pairImage_perm g up prepend b x' sib')).mpr fun p hp => ?_
  rcases List.mem_cons.mp hp with rfl | hp
  · rw [TreeFormat.nodeBody_hasCells, Node.map, Ne, List.map_eq_nil_iff, (pair_kids _ _ _ _ _).1]
    exact List.append_ne_nil_of_right_ne_nil _ (List.cons_ne_nil _ _)
  · rcases List.mem_cons.mp hp with rfl | hp
    · exact IndexTree.hasCells_body.mpr hx
    · rcases List.mem_cons.mp hp with rfl | hp
      · exact IndexTree.hasCells_body.mpr hsib
      · rcases List.mem_append.mp hp with hp | hp
        · exact hbelow p hp
        · exact haround p hp

/-- So do those below the parent of a merged page. -/
theorem celled_below_fill {m : IndexTree h} (haround : Celled (around g up)) (hm : m.keys ≠ [])
    (hbelow : Celled m.below) :
    Celled (up.image indexFormat.layout g.id ++ IndexTree.below (LevelTree.node (g.fill m))) := by
  have himage : indexFormat.image m = _ := IndexTree.image_eq m
  rw [below_node, Frame.flatten_fill, himage]
  intro p hp
  rcases List.mem_append.mp hp with hp | hp
  · exact haround p (List.mem_append_right _ (List.mem_append_right _ hp))
  · rcases List.mem_append.mp hp with hp | hp
    · rcases List.mem_append.mp hp with hp | hp
      · exact haround p (List.mem_append_left _ hp)
      · rcases List.mem_cons.mp hp with rfl | hp
        · exact IndexTree.hasCells_body.mpr hm
        · exact hbelow p hp
    · exact haround p (List.mem_append_right _ (List.mem_append_left _ hp))

theorem small_filled {prepend : Bool} {d : Entry} {sib m : IndexTree h}
    (hm : Merged prepend x d sib m) (hsmall : Small (pairImage g up prepend d x sib)) :
    Small ((g.id, .body (indexFormat.nodeBody ((g.fill m).map LevelTree.id))) ::
      (LevelTree.id m, .body m.body) :: (m.below ++ around g up)) := by
  obtain ⟨hg, -, hsib, hbelow, haround⟩ := small_pairImage.mp hsmall
  have hmbelow := (small_perm hm.below).mpr hbelow
  have hid := hm.id
  simp only [Small, List.map_cons, List.map_append, List.forall_mem_cons,
    List.forall_mem_append] at hmbelow haround ⊢
  exact ⟨hg, hid ▸ hsib, hmbelow, haround⟩

theorem usedBytes_merged {prepend : Bool} {d : Entry} {sib m : IndexTree h}
    (hm : Merged prepend x d sib m) (hfits : sib.body.fits (cellSizeAt h d) = true) :
    m.body.usedBytes ≤ pageSize := by
  have hused := IndexTree.usedBytes_perm hm.keys
  have hused' := IndexTree.usedBytes_perm (List.Perm.refl sib.keys)
  have hheader := IndexTree.headerSize_congr m sib
  rw [PageBody.fits, decide_eq_true_eq] at hfits
  rw [List.map_cons, List.sum_cons, List.length_cons] at hused
  omega

theorem packs_of_pair {prepend : Bool} {d : Entry} {sib : IndexTree h}
    (hsmall : Small (x.below ++ (d.stored.image ++ sib.below)))
    (hlive : LiveBut lost s (pairImage g up prepend d x sib ++ others)) : d.Packs := by
  refine d.packs_of_live (I := (g.id, .body (indexFormat.nodeBody
    ((pair g prepend d x sib).map LevelTree.id))) :: (LevelTree.id x, .body x.body) ::
      (LevelTree.id sib, .body sib.body) :: (x.below ++ sib.below ++ around g up ++ others))
    (hlive.perm ?_).live fun i hi => hsmall i ?_
  · rw [pairImage, List.perm_iff_count]
    intro p
    simp only [List.count_append, List.count_cons]
    omega
  · rw [List.map_append, List.map_append]
    exact List.mem_append_right _ (List.mem_append_left _ hi)

/-- The outcome of `_rebalance` from an emptied page: a tree with the entries that
were left, or the parent of a rotation had no room. -/
def Rebalanced (lost : Residue) (root : Nat) (others : Image) {h : Nat} (c : Ctx Entry Entry h)
    (x : IndexTree h) (moves : List RebalanceMove) (s' : PageStore) : Prop :=
  RebalanceMove.Settle c.path.length moves ∧ refits c = true ∧
    IndexHoldsBut lost s' root others (c.entriesBefore ++ x.entries ++ c.entriesAfter)

def RebalanceRaised {h : Nat} (c : Ctx Entry Entry h) (x : IndexTree h) (e : DbError)
    (s' : PageStore) : Prop :=
  refits c = false ∧ e = bodyTooBig ∧ Robbed (c.image indexFormat.layout (LevelTree.id x)) s'

/-- `_rebalance` does this below the context `c`. -/
def Rebalances (lost : Residue) (root : Nat) (others : Image) {h : Nat} (c : Ctx Entry Entry h) : Prop :=
  ∀ (s : PageStore) (x : IndexTree h) (slot : Nat), x.keys = [] →
    c.rootId (LevelTree.id x) = root →
    Celled (c.image indexFormat.layout (LevelTree.id x) ++ x.below) →
    Small (c.image indexFormat.layout (LevelTree.id x) ++ IndexTree.image x) →
    LiveBut lost s (c.image indexFormat.layout (LevelTree.id x) ++ IndexTree.image x ++ others) →
    Post (IndexBTree.rebalanceMoves root ((LevelTree.id x, slot) :: c.path)) s
      (Rebalanced lost root others c x) (RebalanceRaised c x)

/-- The emptied root. -/
theorem rebalances_root : Rebalances lost root others (.root : Ctx Entry Entry h) := by
  intro s x slot hx hroot hcelled hsmall hlive
  have hroot : LevelTree.id x = root := hroot
  have hread : readBody (LevelTree.id x) s = (.ok x.body, s) := by
    rw [IndexTree.image_eq] at hlive
    exact readBody_live hlive.live (List.mem_cons_self ..)
  have hentries : (Ctx.root : Ctx Entry Entry h).entriesBefore ++ x.entries ++
      (Ctx.root : Ctx Entry Entry h).entriesAfter = x.entries := List.append_nil _
  rw [Ctx.path_root, IndexBTree.rebalanceMoves, post_bind]
  refine Post.of_eq hread ?_
  cases h with
  | zero =>
      obtain ⟨i, rfl⟩ := exists_hollow_leaf hx
      have hholds : IndexHoldsBut lost s root others (LevelTree.entries (LevelTree.leaf ⟨i, []⟩)) :=
        ⟨0, _, hroot, rfl, .inl rfl, hsmall, hlive⟩
      rw [← hentries] at hholds
      exact ⟨.keepRoot, rfl, hholds⟩
  | succ h =>
      obtain ⟨i, only, rfl⟩ := exists_hollow_node hx
      obtain rfl : i = root := hroot
      have hne : LevelTree.id only ≠ 0 := by
        have himage : LevelTree.id only ∈ (IndexTree.image only).map Prod.fst :=
          LevelTree.id_mem_image _ only
        have hmem : LevelTree.id only ∈ (IndexTree.image
            (LevelTree.node ⟨i, [], only⟩ : IndexTree (h + 1)) ++ others).map Prod.fst := by
          rw [List.map_append]
          exact List.mem_append_left _ (List.mem_cons_of_mem _ himage)
        have := hlive.mem_range hmem
        omega
      simp only
      rw [if_pos ⟨PageType.noConfusion, hne⟩, post_bind]
      refine (pullUpIntoRoot_post hsmall hcelled hlive).mono (fun _ s' hs' => ⟨.pullUp, rfl, ?_⟩)
        fun _ _ he => he
      rw [hentries]
      exact hs'

/-- An emptied page with its neighbour. -/
structure Emptied (lost : Residue) (s : PageStore) (root : Nat) (others : Image) {h : Nat}
    (f : Frame Entry (IndexTree h)) (up : Ctx Entry Entry (h + 1)) (x : IndexTree h)
    (nb : Neighbour Entry (IndexTree h)) (g : Frame Entry (IndexTree h)) : Prop where
  id : g.id = f.id
  paired : PairedAt f nb g
  notRoot : f.id ≠ root ↔ up.path ≠ []
  rootId : up.rootId f.id = root
  keys : x.keys = []
  sibling_keys : nb.sibling.keys ≠ []
  celled_below : Celled (x.below ++ (nb.divider.stored.image ++ nb.sibling.below))
  celled_around : Celled (around g up)
  small : Small (pairImage g up nb.prepend nb.divider x nb.sibling)
  live : LiveBut lost s (pairImage g up nb.prepend nb.divider x nb.sibling ++ others)

theorem exists_emptied (hx : x.keys = []) (hroot : up.rootId f.id = root)
    (hcelled : Celled ((Ctx.inside f up).image indexFormat.layout (LevelTree.id x) ++ x.below))
    (hsmall : Small ((Ctx.inside f up).image indexFormat.layout (LevelTree.id x) ++
      IndexTree.image x))
    (hlive : LiveBut lost s ((Ctx.inside f up).image indexFormat.layout (LevelTree.id x) ++
      IndexTree.image x ++ others)) :
    ∃ nb g, neighbour f = some nb ∧ Emptied lost s root others f up x nb g := by
  rcases hnb : neighbour f with _ | nb
  · -- the page of an only child has no cells
    exfalso
    obtain ⟨hpre, hpost⟩ := neighbour_eq_none hnb
    have hcells := hcelled (f.id, .body (indexFormat.nodeBody
      ((f.map LevelTree.id).fill (LevelTree.id x))))
      (List.mem_append_left _ (List.mem_append_left _ (List.mem_cons_self ..)))
    rw [TreeFormat.nodeBody_hasCells, Frame.fill, Frame.map, hpre, hpost] at hcells
    exact hcells rfl
  · obtain ⟨g, hid, hp⟩ := exists_paired hnb
    have hperm := paired_perm up x hid hp
    have hsubset := paired_subset up x hid hp
    have hcelledOut : Celled (nb.divider.stored.image ++
        (IndexTree.image nb.sibling ++ around g up)) :=
      fun p hp => hcelled p (List.mem_append_left _ (hsubset hp))
    have hsibling : IndexTree.image nb.sibling = _ := IndexTree.image_eq nb.sibling
    rw [hsibling] at hcelledOut
    refine ⟨nb, g, rfl, hid, hp, id_ne_root_iff hroot (by rwa [List.append_assoc] at hlive), hroot, hx,
      ?_, ?_, ?_, (small_perm hperm).mp hsmall, hlive.perm (hperm.append_right others)⟩
    · exact IndexTree.hasCells_body.mp (hcelledOut (LevelTree.id nb.sibling, .body nb.sibling.body)
        (List.mem_append_right _ (List.mem_append_left _ (List.mem_cons_self ..))))
    · intro p hp
      rcases List.mem_append.mp hp with hp | hp
      · exact hcelled p (List.mem_append_right _ hp)
      · rcases List.mem_append.mp hp with hp | hp
        · exact hcelledOut p (List.mem_append_left _ hp)
        · exact hcelledOut p
            (List.mem_append_right _ (List.mem_append_left _ (List.mem_cons_of_mem _ hp)))
    · exact fun p hp => hcelledOut p (List.mem_append_right _ (List.mem_append_right _ hp))

namespace Emptied

theorem small_below (he : Emptied lost s root others f up x nb g) :
    Small x.below ∧ Small nb.divider.stored.image ∧ Small nb.sibling.below := by
  obtain ⟨-, -, -, hbelow, -⟩ := small_pairImage.mp he.small
  simp only [Small, List.map_append, List.forall_mem_append] at hbelow
  exact hbelow

theorem packs (he : Emptied lost s root others f up x nb g) : nb.divider.Packs := by
  obtain ⟨-, -, -, hbelow, -⟩ := small_pairImage.mp he.small
  exact packs_of_pair hbelow he.live

/-- The page went into its neighbour. -/
theorem merge {m : IndexTree h} (he : Emptied lost s root others f up x nb g)
    (hnb : neighbour f = some nb) (hm : Merged nb.prepend x nb.divider nb.sibling m)
    (hmerges : mergesInto f up nb = true) (hup : Rebalances lost root others up) :
    Post (do
      writeBody (LevelTree.id nb.sibling) m.body
      writeBody g.id (indexFormat.nodeBody ((g.fill m).map LevelTree.id))
      freePage (LevelTree.id x)
      if ((g.fill m).map LevelTree.id).kids.map indexFormat.cell = [] then
        let moves ← IndexBTree.rebalanceMoves root ((g.id, f.pre.length) :: up.path)
        return .merge :: moves
      else return [.merge]) s
      (Rebalanced lost root others (.inside f up) x) (RebalanceRaised (.inside f up) x) := by
  have hfits : nb.sibling.body.fits (cellSizeAt h nb.divider) = true := by
    rw [mergesInto, Bool.and_eq_true] at hmerges
    exact hmerges.1
  refine merge_post hm (usedBytes_merged hm hfits) he.small he.live fun s₁ h₁ => ?_
  have hrefits : refits (.inside f up) = (decide ((frameDividers f).length ≠ 1) || refits up) := by
    rw [refits_inside hnb, if_pos hmerges]
  have hmne : m.keys ≠ [] := fun hnil => by
    have hlength := hm.keys.length_eq
    rw [hnil, List.length_cons] at hlength
    cases hlength
  have hroot : up.rootId g.id = root := he.id ▸ he.rootId
  have hfill := fillImage_perm g up m
  have hcelled := celled_below_fill he.celled_around hmne
    ((celled_perm hm.below).mpr he.celled_below)
  have hsmall := (small_perm hfill).mpr (small_filled hm he.small)
  have hlive := h₁.perm (hfill.symm.append_right others)
  have hentries := paired_entries up x he.paired (LevelTree.entries (LevelTree.node (g.fill m))) (by
      rw [entries_node, Frame.flatten_fill, hm.entries])
  have hcount : (frameDividers f).length = (g.fill m).kids.length + 1 := by
    rw [he.paired.dividers, g.fill_kids_length, List.length_append, List.length_cons,
      List.length_map, List.length_map]
    omega
  by_cases hnil : (g.fill m).kids = []
  · -- the parent is empty in turn
    have hcells : ((g.fill m).map LevelTree.id).kids.map indexFormat.cell = [] := by
      rw [Node.map, hnil, List.map_nil, List.map_nil]
    rw [if_pos hcells, post_bind]
    have hkeys : IndexTree.keys (LevelTree.node (g.fill m)) = [] := by
      show (g.fill m).kids.map Prod.snd = []
      rw [hnil, List.map_nil]
    have hone : decide ((frameDividers f).length ≠ 1) = false := by
      rw [hcount, hnil]
      rfl
    rw [hone, Bool.false_or] at hrefits
    refine (hup s₁ (.node (g.fill m)) f.pre.length hkeys hroot hcelled hsmall hlive).mono
      (fun _ s' hs' => ⟨.cascade hs'.1, hrefits.trans hs'.2.1, hentries ▸ hs'.2.2⟩) fun e s' hs' => ?_
    obtain ⟨hfails, herror, hrobbed⟩ := hs'
    refine ⟨hrefits.trans hfails, herror, hrobbed.mono fun p hp => List.mem_append_right _ ?_⟩
    exact he.id ▸ hp
  · rw [Node.map, if_neg (by rwa [List.map_eq_nil_iff, List.map_eq_nil_iff])]
    have hmany : decide ((frameDividers f).length ≠ 1) = true := by
      rw [decide_eq_true_eq, hcount]
      exact fun h => hnil (List.length_eq_zero_iff.mp (Nat.succ.inj h))
    refine ⟨.merge _, by rw [hrefits, hmany, Bool.true_or], hentries ▸ ?_⟩
    refine indexHolds_plug up (.node (g.fill m)) hroot (fun p hp => ?_) hsmall hlive
    rcases List.mem_append.mp hp with hp | hp
    · exact hcelled p (List.mem_append_left _ hp)
    · rcases List.mem_cons.mp hp with rfl | hp
      · refine (indexFormat.nodeBody_hasCells (n := (g.fill m).map LevelTree.id)).mpr ?_
        rwa [Node.map, Ne, List.map_eq_nil_iff]
      · exact hcelled p (List.mem_append_right _ hp)

/-- The page was refilled from its neighbour. -/
theorem rotate {b : Entry} {x' sib' : IndexTree h} (he : Emptied lost s root others f up x nb g)
    (hnb : neighbour f = some nb) (hr : Rotated nb.prepend x nb.divider nb.sibling b x' sib')
    (hmerges : mergesInto f up nb = false) :
    Post (do
      writeBody (LevelTree.id nb.sibling) sib'.body
      initBody (LevelTree.id x) x'.body
      let cell ← lift (encodeInteriorIndexCell
        (if nb.prepend then LevelTree.id x else LevelTree.id nb.sibling) b.cell)
      writeBody g.id (.indexInterior
        ((((pair g nb.prepend nb.divider x nb.sibling).map LevelTree.id).kids.map
          indexFormat.cell).set g.pre.length cell)
        ((pair g nb.prepend nb.divider x nb.sibling).map LevelTree.id).last)
      return [.rotate]) s
      (Rebalanced lost root others (.inside f up) x) (RebalanceRaised (.inside f up) x) := by
  have hrefits : refits (.inside f up) =
      decide ((interiorPage (pair g nb.prepend b x nb.sibling).dividers).usedBytes ≤ pageSize) := by
    rw [refits_inside hnb, hmerges, if_neg Bool.false_ne_true, hr.borrowed, Option.all_some,
      dividersWith_eq he.paired]
  refine rotate_post hr he.small he.live (fun hroom s₁ h₁ => ?_) fun hfull s₁ hrobbed => ?_
  · have hpair := pairImage_perm g up nb.prepend b x' sib'
    have hentries := paired_entries up x he.paired
      (LevelTree.entries (LevelTree.node (pair g nb.prepend b x' sib'))) (by
        rw [entries_node, pair_flatten, hr.entries])
    have hsib : sib'.keys ≠ [] := fun hnil => by
      have htwo := two_le_of_not_merges he.sibling_keys hmerges
      rw [hr.sibling_keys.length_eq, hnil] at htwo
      exact Nat.not_succ_le_self 1 htwo
    have hx : x'.keys ≠ [] := by
      rw [hr.keys]
      exact List.cons_ne_nil _ _
    have hcelled : Celled (up.image indexFormat.layout g.id ++
        IndexTree.image (.node (pair g nb.prepend b x' sib'))) :=
      celled_pair he.celled_around hx hsib ((celled_perm hr.below).mpr he.celled_below)
    have hsmall := (small_perm hpair).mpr (small_rotated hr he.small)
    have hlive := h₁.perm (hpair.symm.append_right others)
    rw [← pair_id g nb.prepend b x' sib'] at hcelled hsmall hlive
    refine ⟨.rotate _, by rw [hrefits, decide_eq_true hroom], hentries ▸ ?_⟩
    refine indexHolds_plug up (.node (pair g nb.prepend b x' sib')) ?_ hcelled hsmall hlive
    rw [LevelTree.id_node, pair_id, he.id, he.rootId]
  · refine ⟨by rw [hrefits, decide_eq_false (Nat.not_le.mpr hfull)], rfl, hrobbed.mono fun p hp => ?_⟩
    refine paired_subset up x he.id he.paired (List.mem_append_right _ (List.mem_append_left _ ?_))
    rw [List.mem_singleton.mp hp, IndexTree.image_eq]
    exact List.mem_cons_self ..

end Emptied

theorem rebalances_inside (hup : Rebalances lost root others up) :
    Rebalances lost root others (.inside f up) := by
  intro s x slot hx hroot hcelled hsmall hlive
  obtain ⟨nb, g, hnb, he⟩ := exists_emptied hx hroot hcelled hsmall hlive
  obtain ⟨hxSmall, -, hsibSmall⟩ := he.small_below
  obtain ⟨m, hm⟩ := exists_merged hx he.packs hxSmall hsibSmall nb.prepend
  obtain ⟨b, x', sib', hr⟩ := exists_rotated hx he.sibling_keys he.packs hxSmall hsibSmall nb.prepend
  exact rebalance_step he.id he.paired hm hr he.sibling_keys he.live he.notRoot
    (fun hmerges => he.merge hnb hm hmerges hup) fun hmerges => he.rotate hnb hr hmerges

/-- `_rebalance`. -/
theorem rebalance_post (c : Ctx Entry Entry h) : Rebalances lost root others c := by
  induction c with
  | root => exact rebalances_root
  | inside f up ih => exact rebalances_inside ih

end Rebalance

/-! ## `delete` -/

section Delete

variable {lost : Residue} {s s' : PageStore} {root : Nat} {others : Image} {h H : Nat}
variable {T : IndexTree H}
variable {k : List Value} {c : Ctx Entry Entry 0} {i : Nat} {pre post : List Entry} {e : Entry}

/-- The moves of a deletion from a leaf `depth` levels below the root; there are
none if the leaf keeps an entry. -/
def SettledIn (depth : Nat) (moves : List RebalanceMove) : Prop :=
  moves = [] ∨ RebalanceMove.Settle depth moves

/-- The leaf keeps an entry, or its page can be refilled. -/
def leafRefits (c : Ctx Entry Entry 0) (es : List Entry) : Bool := !es.isEmpty || refits c

/-- The last step of a deletion: the leaf has been written. -/
theorem collapse_post {es : List Entry} {slot : Nat} (hroot : c.rootId i = root)
    (hcelled : Celled (c.image indexFormat.layout i))
    (hsmall : Small (c.image indexFormat.layout i ++ IndexTree.image (.leaf ⟨i, es⟩)))
    (hlive : LiveBut lost s (c.image indexFormat.layout i ++ IndexTree.image (.leaf ⟨i, es⟩) ++ others)) :
    Post (if es.map Entry.cell = [] then IndexBTree.rebalanceMoves root ((i, slot) :: c.path)
      else pure []) s
      (fun moves s' => SettledIn c.path.length moves ∧ leafRefits c es = true ∧
        IndexHoldsBut lost s' root others (c.entriesBefore ++ es ++ c.entriesAfter))
      fun e s' => OutOfRoom e ∧ leafRefits c es = false ∧
        Robbed (c.image indexFormat.layout i) s' := by
  rcases es with _ | ⟨e, es⟩
  · rw [List.map_nil, if_pos rfl]
    refine (rebalance_post c s (.leaf ⟨i, []⟩) slot rfl hroot ?_ hsmall hlive).mono
      (fun _ s' hs' => ⟨.inr hs'.1, hs'.2⟩) fun _ s' hs' => ⟨⟨_, hs'.2.1⟩, hs'.1, hs'.2.2⟩
    intro p hp
    rcases List.mem_append.mp hp with hp | hp
    · exact hcelled p hp
    · cases hp
  · rw [List.map_cons, if_neg (List.cons_ne_nil _ _)]
    refine ⟨.inl rfl, rfl, indexHolds_plug c (.leaf ⟨i, e :: es⟩) hroot (fun p hp => ?_) hsmall hlive⟩
    rcases List.mem_append.mp hp with hp | hp
    · exact hcelled p hp
    · rcases List.mem_cons.mp hp with rfl | hp
      · exact leaf_hasCells (List.cons_ne_nil e es)
      · exact celled_extra _ p hp

theorem eraseIdx_around {α β : Type} (f : α → β) (pre : List α) (a : α) (post : List α) :
    ((pre ++ a :: post).map f).eraseIdx pre.length = (pre ++ post).map f := by
  rw [List.map_append, List.map_cons, List.eraseIdx_append_of_length_le (by rw [List.length_map]),
    List.length_map, Nat.sub_self, List.eraseIdx_cons_zero, List.map_append]

theorem cellAt_around (pre : List Entry) (e : Entry) (post : List Entry) :
    cellAt ((pre ++ e :: post).map Entry.cell) pre.length = .ok e.cell := by
  rw [cellAt, List.getElem?_map, List.getElem?_append_right (Nat.le_refl _), Nat.sub_self]
  rfl

theorem usedBytes_around (pre : List Entry) (e : Entry) (post : List Entry) :
    (PageBody.indexLeaf ((pre ++ post).map Entry.cell)).usedBytes ≤
      (PageBody.indexLeaf ((pre ++ e :: post).map Entry.cell)).usedBytes := by
  have hsub : (pre ++ post).Sublist (pre ++ e :: post) :=
    (List.sublist_cons_self _ _).append_left _
  have hsizes := (hsub.map Entry.cell).map Payload.size
  have hlen := hsizes.length_le
  have hsum := hsizes.sum_le_sum fun _ _ => Nat.zero_le _
  simp only [PageBody.usedBytes, PageBody.headerSize, PageBody.cellSizes]
  omega

/-- The pages of a leaf around one of its entries. -/
theorem leafImage_around (i : Nat) (pre : List Entry) (e : Entry) (post : List Entry) :
    (IndexTree.image (.leaf ⟨i, pre ++ e :: post⟩)).Perm
      ((i, .body (.indexLeaf ((pre ++ e :: post).map Entry.cell))) ::
        (e.stored.image ++ (pre ++ post).flatMap indexFormat.leafExtra)) := by
  have hleaf : IndexTree.image (.leaf ⟨i, pre ++ e :: post⟩) =
      (i, .body (.indexLeaf ((pre ++ e :: post).map Entry.cell))) ::
        (pre ++ e :: post).flatMap indexFormat.leafExtra := rfl
  have hextra : indexFormat.leafExtra e = e.stored.image := rfl
  rw [hleaf, List.flatMap_append, List.flatMap_append, List.flatMap_cons, hextra]
  refine List.Perm.cons _ ?_
  rw [← List.append_assoc, ← List.append_assoc]
  exact List.perm_append_comm.append_right _

theorem indexLeaf_rightChild_lt (cells : List Payload) :
    (PageBody.indexLeaf cells).rightChild < 2 ^ 32 := Nat.two_pow_pos 32

/-- An entry leaves its leaf. -/
theorem deleteLeaf_post (ht : IndexStored s root others T)
    (hlost : LiveBut lost s (T.image ++ others))
    (hplug : c.plug (.leaf ⟨i, pre ++ e :: post⟩) = ⟨H, T⟩) :
    Post (do
      let cells ← indexLeafCells i
      let cell ← lift (cellAt cells pre.length)
      let remaining := cells.eraseIdx pre.length
      writeBody i (.indexLeaf remaining)
      if cell.overflow ≠ 0 then freeOverflowChain cell.overflow
      let moves ← if remaining = [] then IndexBTree.rebalanceMoves root ((i, pre.length) :: c.path)
        else pure []
      return (true, moves)) s
      (fun r s' => r.1 = true ∧ SettledIn H r.2 ∧ leafRefits c (pre ++ post) = true ∧
        IndexHoldsBut lost s' root others (c.entriesBefore ++ (pre ++ post) ++ c.entriesAfter))
      fun e s' => OutOfRoom e ∧ leafRefits c (pre ++ post) = false ∧ Robbed T.image s' := by
  have himage := Ctx.image_of_plug hplug indexFormat.layout
  have hpages : T.image.Perm ((i, .body (.indexLeaf ((pre ++ e :: post).map Entry.cell))) ::
      (e.stored.image ++ ((pre ++ post).flatMap indexFormat.leafExtra ++
        c.image indexFormat.layout i))) := by
    refine himage.trans (List.perm_append_comm.trans ?_)
    refine ((leafImage_around i pre e post).append_right _).trans ?_
    rw [List.cons_append, List.append_assoc]
    exact List.Perm.refl _
  have hsmall := (small_perm hpages).mp ht.small
  have hlive := hlost.perm (hpages.append_right others)
  have hread : indexLeafCells i s = (.ok ((pre ++ e :: post).map Entry.cell), s) :=
    indexLeafCells_live (l := ⟨i, pre ++ e :: post⟩) ht.live fun p hp =>
      List.mem_append_left _ (himage.mem_iff.mpr (List.mem_append_right _ hp))
  have hchain : ∀ j ∈ e.stored.chain, j < 2 ^ 32 := by
    intro j hj
    refine hsmall j (List.mem_cons_of_mem _ ?_)
    rw [List.map_append, e.stored.image_ids]
    exact List.mem_append_left _ hj
  have hfits : (PageBody.indexLeaf ((pre ++ post).map Entry.cell)).usedBytes ≤ pageSize :=
    (usedBytes_around pre e post).trans (hlive.fits _ (List.mem_cons_self ..))
  rw [post_bind]
  refine Post.of_eq hread ?_
  rw [cellAt_around, post_bind, post_lift_ok, eraseIdx_around, post_bind]
  refine (writeBody_post (fun hbig => absurd hbig (Nat.not_le.mpr (indexLeaf_rightChild_lt _))) hlive
    fun hlt => absurd hfits (Nat.not_le.mpr hlt)).mono (fun _ s₁ h₁ => ?_) fun _ _ he => he
  have hleaf : IndexTree.image (.leaf ⟨i, pre ++ post⟩) =
      (i, .body (.indexLeaf ((pre ++ post).map Entry.cell))) ::
        (pre ++ post).flatMap indexFormat.leafExtra := rfl
  have h₁ : LiveBut lost s₁ (e.stored.image ++ (c.image indexFormat.layout i ++
      IndexTree.image (.leaf ⟨i, pre ++ post⟩) ++ others)) := by
    refine h₁.1.perm ?_
    rw [hleaf, List.perm_iff_count]
    intro p
    simp only [List.count_append, List.count_cons, List.append_eq]
    omega
  refine Post.guard (freeStored_post e.stored h₁ hchain) fun _ s₂ h₂ => ?_
  have hheight : c.path.length = H := (Ctx.height_of_plug hplug).symm
  have hcelled : Celled (c.image indexFormat.layout i) := ht.celled_ctx hplug
  refine (collapse_post ?_ hcelled ?_ h₂).ite_bind
    (fun moves s₃ h₃ => ⟨rfl, hheight ▸ h₃.1, h₃.2⟩) fun _ s₃ h₃ =>
      ⟨h₃.1, h₃.2.1, h₃.2.2.mono fun p hp => ?_⟩
  · rw [← ht.root, Ctx.id_of_plug hplug, LevelTree.id_leaf]
  · rw [hleaf]
    intro j hj
    refine hsmall j ?_
    simp only [List.map_append, List.map_cons, List.mem_append, List.mem_cons] at hj ⊢
    rcases hj with hj | rfl | hj
    · exact .inr (.inr (.inr hj))
    · exact .inl rfl
    · exact .inr (.inr (.inl hj))
  · exact himage.mem_iff.mpr (List.mem_append_left _ hp)

/-! ### Dividers -/

variable {up : Ctx Entry Entry (h + 1)} {f : Frame Entry (IndexTree h)} {left right : IndexTree h}
variable {d p : Entry}

/-- The pages around the left child of a divider. -/
theorem ctxImage_perm (up : Ctx Entry Entry (h + 1)) (f : Frame Entry (IndexTree h))
    (left right : IndexTree h) (d : Entry) :
    ((Ctx.inside (TreeFormat.split f d right) up).image indexFormat.layout (LevelTree.id left)).Perm
      ((f.id, .body (indexFormat.nodeBody ((pair f true d left right).map LevelTree.id))) ::
        (IndexTree.image right ++ (d.stored.image ++ around f up))) := by
  have hpage : (pair f true d left right).map LevelTree.id =
      ((TreeFormat.split f d right).map LevelTree.id).fill (LevelTree.id left) :=
    Frame.map_fill _ _ _
  have hafter : (TreeFormat.split f d right).after indexFormat.image indexFormat.dividerExtra =
      d.stored.image ++ IndexTree.image right ++
        f.after indexFormat.image indexFormat.dividerExtra := by
    rw [Frame.after, TreeFormat.split, List.flatMap_cons]
    rfl
  have himage : (Ctx.inside (TreeFormat.split f d right) up).image indexFormat.layout
      (LevelTree.id left) = (f.id, .body (indexFormat.nodeBody
        (((TreeFormat.split f d right).map LevelTree.id).fill (LevelTree.id left)))) ::
          (f.before indexFormat.image indexFormat.dividerExtra ++
            (TreeFormat.split f d right).after indexFormat.image indexFormat.dividerExtra) ++
              up.image indexFormat.layout f.id := rfl
  rw [himage, hafter, hpage, around, List.perm_iff_count]
  intro q
  simp only [List.count_append, List.count_cons]
  omega

/-- The last entry below the divider can take its place, and its leaf keeps an
entry or can be refilled; if it cannot, nothing is touched. -/
def dividerRefits (up : Ctx Entry Entry (h + 1)) (f : Frame Entry (IndexTree h))
    (left right : IndexTree h) : Bool :=
  match left.lastLeaf.items.getLast? with
  | none => true
  | some p =>
      pageSize < (interiorPage (f.pre.map Prod.snd ++ p :: f.post.map Prod.fst)).usedBytes ||
        leafRefits ((Ctx.inside (TreeFormat.split f p right) up).last left)
          left.lastLeaf.items.dropLast

/-- The pages of a tree with a divider, down to the last leaf below it; and those
of the tree with the last entry of that leaf in the divider's place. -/
theorem exists_way (hplug : up.plug (.node ((TreeFormat.split f d right).fill left)) = ⟨H, T⟩)
    {init : List Entry} (hlast : left.lastLeaf = ⟨i, init ++ [p]⟩) :
    ∃ way : Image,
      T.image.Perm ((f.id, .body (indexFormat.nodeBody ((pair f true d left right).map LevelTree.id))) ::
        (i, .body (.indexLeaf ((init ++ [p]).map Entry.cell))) ::
          (d.stored.image ++ (p.stored.image ++ (init.flatMap indexFormat.leafExtra ++
            (way ++ (IndexTree.image right ++ around f up)))))) ∧
      (((Ctx.inside (TreeFormat.split f p right) up).last left).image indexFormat.layout i).Perm
        ((f.id, .body (indexFormat.nodeBody ((pair f true p left right).map LevelTree.id))) ::
          (p.stored.image ++ (way ++ (IndexTree.image right ++ around f up)))) := by
  obtain ⟨way, hleft, hway⟩ := Ctx.exists_last_image indexFormat.layout left
  have hctx := hway (.inside (TreeFormat.split f p right) up)
  have hleaf := leafImage_around i init p []
  rw [List.append_nil] at hleaf
  rw [hlast] at hleft hctx
  refine ⟨way, ?_, ?_⟩
  · have hT : T.image.Perm ((Ctx.inside (TreeFormat.split f d right) up).image indexFormat.layout
        left.id ++ IndexTree.image left) :=
      Ctx.image_of_plug (c := .inside (TreeFormat.split f d right) up) hplug indexFormat.layout
    refine hT.trans (((ctxImage_perm up f left right d).append hleft).trans ?_)
    have hleaf : (indexFormat.layout.leafImage ⟨i, init ++ [p]⟩).Perm _ := hleaf
    rw [List.perm_iff_count]
    intro q
    have hcount := hleaf.count_eq q
    simp only [List.count_append, List.count_cons] at hcount ⊢
    omega
  · refine hctx.trans (((ctxImage_perm up f left right p).append_left way).trans ?_)
    rw [List.perm_iff_count]
    intro q
    simp only [List.count_append, List.count_cons]
    omega

/-- A page that was robbed after the swap has fewer cells than before it. -/
theorem robbed_of_swapped {way : Image} {init : List Entry} {C : Image}
    (hT : T.image.Perm ((f.id, .body (indexFormat.nodeBody ((pair f true d left right).map LevelTree.id))) ::
        (i, .body (.indexLeaf ((init ++ [p]).map Entry.cell))) ::
          (d.stored.image ++ (p.stored.image ++ (init.flatMap indexFormat.leafExtra ++
            (way ++ (IndexTree.image right ++ around f up)))))))
    (hC : C.Perm ((f.id, .body (indexFormat.nodeBody ((pair f true p left right).map LevelTree.id))) ::
      (p.stored.image ++ (way ++ (IndexTree.image right ++ around f up)))))
    (hrobbed : Robbed C s') : Robbed T.image s' := by
  obtain ⟨j, b, b', hmem, hpage, hlt⟩ := hrobbed
  have hcells (e : Entry) : (indexFormat.nodeBody ((pair f true e left right).map
      LevelTree.id)).cellSizes.length = f.pre.length + (f.post.length + 1) := by
    have hbody := IndexTree.cellSizes_body (LevelTree.node (pair f true e left right))
    have hkeys : IndexTree.keys (LevelTree.node (pair f true e left right)) =
        f.pre.map Prod.snd ++ e :: f.post.map Prod.fst := pair_dividers ..
    have hlen := congrArg List.length hbody
    rw [hkeys, List.length_map, List.length_append, List.length_cons, List.length_map,
      List.length_map] at hlen
    exact hlen
  rcases List.mem_cons.mp (hC.mem_iff.mp hmem) with heq | hmem
  · obtain ⟨rfl, hb⟩ := Prod.mk.inj heq
    obtain rfl := PageContent.body.inj hb
    rw [hcells p, ← hcells d] at hlt
    exact ⟨f.id, _, b', hT.mem_iff.mpr (List.mem_cons_self ..), hpage, hlt⟩
  · refine ⟨j, b, b', hT.mem_iff.mpr ?_, hpage, hlt⟩
    simp only [List.mem_append, List.mem_cons] at hmem ⊢
    rcases hmem with hmem | hmem
    · exact .inr (.inr (.inr (.inl hmem)))
    · exact .inr (.inr (.inr (.inr (.inr hmem))))

/-- The last child of the parent of a pair does not depend on the divider. -/
theorem pair_rightChild (f : Frame Entry (IndexTree h)) (d p : Entry) (left right : IndexTree h) :
    (indexFormat.nodeBody ((pair f true p left right).map LevelTree.id)).rightChild =
      (indexFormat.nodeBody ((pair f true d left right).map LevelTree.id)).rightChild := by
  have hlast (e : Entry) : ((pair f true e left right).map LevelTree.id).last =
      (linkPost (LevelTree.id right) (f.map LevelTree.id).post).2 := by
    rw [pair_map, (pair_kids _ _ _ _ _).2, if_pos rfl]
  rw [indexFormat.rightChild_nodeBody, indexFormat.rightChild_nodeBody, hlast, hlast]

/-- The entries once the last one of a leaf is in the divider's place. -/
theorem swapped_entries {init : List Entry} (hlast : left.lastLeaf = ⟨i, init ++ [p]⟩) :
    ((Ctx.inside (TreeFormat.split f p right) up).last left).entriesBefore ++ init ++
        ((Ctx.inside (TreeFormat.split f p right) up).last left).entriesAfter =
      up.entriesBefore ++ f.entriesBefore ++ left.entries ++
        (right.entries ++ f.entriesAfter ++ up.entriesAfter) := by
  obtain ⟨hbefore, hafter⟩ := Ctx.before_last (fun items => items) (fun e => [e])
    (.inside (TreeFormat.split f p right) up) left
  have hbefore : ((Ctx.inside (TreeFormat.split f p right) up).last left).entriesBefore ++
      (init ++ [p]) = up.entriesBefore ++ f.entriesBefore ++ left.entries := by
    rw [hlast] at hbefore
    exact hbefore
  have hafter : ((Ctx.inside (TreeFormat.split f p right) up).last left).entriesAfter =
      p :: (right.entries ++ f.entriesAfter) ++ up.entriesAfter := by
    refine hafter.trans ?_
    rw [← entriesAfter_split]
    rfl
  rw [hafter, ← hbefore]
  simp only [List.append_assoc, List.cons_append, List.nil_append]

/-- The pages of a swap are written: the divider's, the leaf, and the divider's
chain is freed. -/
theorem swap_post (ht : IndexStored s root others T)
    (hlost : LiveBut lost s (T.image ++ others))
    (hplug : up.plug (.node ((TreeFormat.split f d right).fill left)) = ⟨H, T⟩)
    {way : Image} {init : List Entry} {slot : Nat} (hlast : left.lastLeaf = ⟨i, init ++ [p]⟩)
    (hT : T.image.Perm ((f.id, .body (indexFormat.nodeBody ((pair f true d left right).map LevelTree.id))) ::
        (i, .body (.indexLeaf ((init ++ [p]).map Entry.cell))) ::
          (d.stored.image ++ (p.stored.image ++ (init.flatMap indexFormat.leafExtra ++
            (way ++ (IndexTree.image right ++ around f up)))))))
    (hC : (((Ctx.inside (TreeFormat.split f p right) up).last left).image indexFormat.layout i).Perm
        ((f.id, .body (indexFormat.nodeBody ((pair f true p left right).map LevelTree.id))) ::
          (p.stored.image ++ (way ++ (IndexTree.image right ++ around f up)))))
    (hroom : (interiorPage (f.pre.map Prod.snd ++ p :: f.post.map Prod.fst)).usedBytes ≤ pageSize) :
    Post (do
      writeBody f.id (indexFormat.nodeBody ((pair f true p left right).map LevelTree.id))
      writeBody i (.indexLeaf (init.map Entry.cell))
      if d.cell.overflow ≠ 0 then freeOverflowChain d.cell.overflow
      if init.map Entry.cell = [] then
        IndexBTree.rebalanceMoves root
          ((i, slot) :: ((Ctx.inside (TreeFormat.split f p right) up).last left).path)
      else pure []) s
      (fun moves s' => SettledIn H moves ∧ leafRefits ((Ctx.inside (TreeFormat.split f p right) up).last left) init = true ∧
        IndexHoldsBut lost s' root others (up.entriesBefore ++ f.entriesBefore ++ left.entries ++
          (right.entries ++ f.entriesAfter ++ up.entriesAfter)))
      fun e s' => OutOfRoom e ∧
        leafRefits ((Ctx.inside (TreeFormat.split f p right) up).last left) init = false ∧
          Robbed T.image s' := by
  have hlive := hlost.perm (hT.append_right others)
  have hsmall := (small_perm hT).mp ht.small
  have hle : h + 1 ≤ H := by
    have hle := up.le_plug (.node ((TreeFormat.split f d right).fill left))
    rwa [hplug] at hle
  have hcelled : Celled T.image := ht.filled.resolve_left (by omega)
  have hright : (indexFormat.nodeBody ((pair f true p left right).map LevelTree.id)).rightChild <
      2 ^ 32 := by
    have himage := Ctx.image_of_plug hplug indexFormat.layout
    rw [pair_rightChild f d]
    refine rightChild_body_lt (t := LevelTree.node (pair f true d left right)) fun j hj => ht.small j ?_
    refine (himage.map Prod.fst).mem_iff.mpr ?_
    rw [List.map_append]
    exact List.mem_append_right _ (List.mem_cons_of_mem _ hj)
  have hused : (indexFormat.nodeBody ((pair f true p left right).map LevelTree.id)).usedBytes ≤
      pageSize := by
    rwa [usedBytes_node, pair_dividers]
  have hleafFits : (PageBody.indexLeaf (init.map Entry.cell)).usedBytes ≤ pageSize := by
    have hold := hlive.fits (i, .body (.indexLeaf ((init ++ [p]).map Entry.cell)))
      (List.mem_cons_of_mem _ (List.mem_cons_self ..))
    have haround := usedBytes_around init p []
    rw [List.append_nil] at haround
    exact haround.trans hold
  have hchain : ∀ j ∈ d.stored.chain, j < 2 ^ 32 := by
    intro j hj
    refine hsmall j (List.mem_cons_of_mem _ (List.mem_cons_of_mem _ ?_))
    rw [List.map_append, d.stored.image_ids]
    exact List.mem_append_left _ hj
  have hleaf : IndexTree.image (.leaf ⟨i, init⟩) =
      (i, .body (.indexLeaf (init.map Entry.cell))) :: init.flatMap indexFormat.leafExtra := rfl
  rw [post_bind]
  refine (writeBody_post (fun hbig => absurd hright (Nat.not_lt.mpr hbig)) hlive
    fun hlt => absurd hused (Nat.not_le.mpr hlt)).mono (fun _ s₁ h₁ => ?_) fun _ _ he => he
  rw [post_bind]
  refine (writeBody_post (fun hbig => absurd hbig (Nat.not_le.mpr (indexLeaf_rightChild_lt _)))
    (h₁.1.perm (List.Perm.swap _ _ _)) fun hlt => absurd hleafFits (Nat.not_le.mpr hlt)).mono
    (fun _ s₂ h₂ => ?_) fun _ _ he => he
  have h₂ : LiveBut lost s₂ (d.stored.image ++
      (((Ctx.inside (TreeFormat.split f p right) up).last left).image indexFormat.layout i ++
        IndexTree.image (.leaf ⟨i, init⟩) ++ others)) := by
    refine h₂.1.perm ?_
    rw [hleaf, List.perm_iff_count]
    intro q
    have hcount := hC.count_eq q
    simp only [List.count_append, List.count_cons, List.append_eq] at hcount ⊢
    omega
  refine Post.guard (freeStored_post d.stored h₂ hchain) fun _ s₃ h₃ => ?_
  have hheight : ((Ctx.inside (TreeFormat.split f p right) up).last left).path.length = H := by
    have hway := Ctx.plug_last (.inside (TreeFormat.split f d right) up) left
    have hpath := Ctx.path_last (.inside (TreeFormat.split f p right) up)
      (.inside (TreeFormat.split f d right) up) rfl left
    rw [hpath]
    exact (Ctx.height_of_plug (hway.trans hplug)).symm
  rw [← swapped_entries hlast]
  refine (collapse_post ?_ (fun q hq => ?_) ?_ h₃).mono (fun _ _ hq => ⟨hheight ▸ hq.1, hq.2⟩)
    fun _ s₄ h₄ => ⟨h₄.1, h₄.2.1, robbed_of_swapped hT hC h₄.2.2⟩
  · have hid := Ctx.rootId_last (.inside (TreeFormat.split f p right) up) left
    rw [hlast] at hid
    have hroot := Ctx.id_of_plug hplug
    exact hid.trans (hroot.symm.trans ht.root)
  · rcases List.mem_cons.mp (hC.mem_iff.mp hq) with rfl | hq
    · rw [TreeFormat.nodeBody_hasCells, Node.map, Ne, List.map_eq_nil_iff, (pair_kids _ _ _ _ _).1]
      exact List.append_ne_nil_of_right_ne_nil _ (List.cons_ne_nil _ _)
    · refine hcelled q (hT.mem_iff.mpr ?_)
      simp only [List.mem_append, List.mem_cons] at hq ⊢
      rcases hq with hq | hq
      · exact .inr (.inr (.inr (.inl hq)))
      · exact .inr (.inr (.inr (.inr (.inr hq))))
  · have hids := hC.map Prod.fst
    intro j hj
    refine hsmall j ?_
    rw [hleaf, List.map_append, List.mem_append, hids.mem_iff] at hj
    simp only [List.map_append, List.map_cons, List.mem_append, List.mem_cons] at hj ⊢
    rcases hj with (hj | hj | hj) | hj | hj
    · exact .inl hj
    · exact .inr (.inr (.inr (.inl hj)))
    · exact .inr (.inr (.inr (.inr (.inr hj))))
    · exact .inr (.inl hj)
    · exact .inr (.inr (.inr (.inr (.inl hj))))

/-- `_replace_divider_with_predecessor`. -/
theorem nodeBody_set_divider (f : Frame Entry (IndexTree h)) (d p : Entry) (left right : IndexTree h) :
    PageBody.indexInterior
      ((((pair f true d left right).map LevelTree.id).kids.map indexFormat.cell).set f.pre.length
        ⟨LevelTree.id left, p.cell⟩) ((pair f true d left right).map LevelTree.id).last =
      indexFormat.nodeBody ((pair f true p left right).map LevelTree.id) := by
  have hlen : (f.map LevelTree.id).pre.length = f.pre.length := List.length_map _
  have hset := pair_set (f.map LevelTree.id) true d p (LevelTree.id left) (LevelTree.id right)
  have hlastChild : ((pair f true d left right).map LevelTree.id).last =
      ((pair f true p left right).map LevelTree.id).last := by
    rw [pair_map, pair_map, (pair_kids _ _ _ _ _).2, (pair_kids _ _ _ _ _).2]
  rw [← pair_map, hlen, if_pos rfl, ← pair_map] at hset
  rw [hset, hlastChild]
  rfl

/-- The last leaf below a tree is one of its pages. -/
theorem lastLeaf_image (t : IndexTree h) : IndexTree.image (.leaf t.lastLeaf) ⊆ IndexTree.image t := by
  obtain ⟨way, hway, -⟩ := Ctx.exists_last_image indexFormat.layout t
  exact fun q hq => hway.mem_iff.mpr (List.mem_append_right _ hq)

/-- Where every page has cells, the last leaf has a last entry. -/
theorem exists_lastLeaf {img : Image} (hcelled : Celled img) (hleaf : IndexTree.image (.leaf left.lastLeaf) ⊆ img) :
    ∃ i init p, left.lastLeaf = ⟨i, init ++ [p]⟩ := by
  have hcells : (PageContent.body (IndexTree.body (.leaf left.lastLeaf))).HasCells :=
    hcelled _ (hleaf (List.mem_cons_self ..))
  have hitems : left.lastLeaf.items ≠ [] := IndexTree.hasCells_body.mp hcells
  obtain ⟨init, p, hinit⟩ := exists_concat hitems
  exact ⟨left.lastLeaf.id, init, p, by rw [← hinit]⟩

/-- The last entry below a divider packs. -/
theorem packs_of_lastLeaf (ht : IndexStored s root others T)
    (hplug : up.plug (.node ((TreeFormat.split f d right).fill left)) = ⟨H, T⟩) {init : List Entry}
    (hlast : left.lastLeaf = ⟨i, init ++ [p]⟩) : p.Packs := by
  have hway := Ctx.plug_last (.inside (TreeFormat.split f d right) up) left
  rw [hlast] at hway
  refine ht.packs ((sublist_of_plug (hway.trans hplug)).subset ?_)
  exact List.mem_append_right init (List.mem_singleton_self p)

theorem replaceDivider_post (ht : IndexStored s root others T)
    (hlost : LiveBut lost s (T.image ++ others))
    (hplug : up.plug (.node ((TreeFormat.split f d right).fill left)) = ⟨H, T⟩) :
    Post (IndexBTree.replaceDividerMoves root ((f.id, f.pre.length) :: up.path)) s
      (fun moves s' => SettledIn H moves ∧ dividerRefits up f left right = true ∧ IndexHoldsBut lost s' root others
        (up.entriesBefore ++ f.entriesBefore ++ left.entries ++
          (right.entries ++ f.entriesAfter ++ up.entriesAfter)))
      fun e s' => OutOfRoom e ∧ (dividerRefits up f left right = true ∧ s' = s ∨
        dividerRefits up f left right = false ∧ Robbed T.image s') := by
  have himage := Ctx.image_of_plug hplug indexFormat.layout
  have hle : h + 1 ≤ H := by
    have hle := up.le_plug (.node ((TreeFormat.split f d right).fill left))
    rwa [hplug] at hle
  have hnode : IndexTree.image (.node (pair f true d left right)) ⊆ T.image :=
    fun q hq => himage.mem_iff.mpr (List.mem_append_right _ hq)
  have hleft : IndexTree.image left ⊆ T.image :=
    fun q hq => hnode (indexImage_child (TreeFormat.split f d right) left hq)
  have hleaf : IndexTree.image (.leaf left.lastLeaf) ⊆ T.image :=
    fun q hq => hleft (lastLeaf_image left hq)
  obtain ⟨i, init, p, hlast⟩ := exists_lastLeaf (ht.filled.resolve_left (by omega)) hleaf
  obtain ⟨way, hT, hC⟩ := exists_way hplug hlast
  have hrefits : dividerRefits up f left right =
      (decide (pageSize < (interiorPage (f.pre.map Prod.snd ++ p :: f.post.map Prod.fst)).usedBytes) ||
        leafRefits ((Ctx.inside (TreeFormat.split f p right) up).last left) init) := by
    rw [dividerRefits, hlast, List.getLast?_concat, List.dropLast_concat]
  have hlive := hlost.perm (hT.append_right others)
  have hp := packs_of_lastLeaf ht hplug hlast
  have hleftId : LevelTree.id left < 2 ^ 32 :=
    ht.small _ (List.map_subset _ hleft (LevelTree.id_mem_image _ left))
  have hlen : (f.map LevelTree.id).pre.length = f.pre.length := List.length_map _
  have hdonor := pair_cellAt (f.map LevelTree.id) true d (LevelTree.id left) (LevelTree.id right)
  rw [← pair_map, hlen, if_pos rfl] at hdonor
  have hbody := nodeBody_set_divider f d p left right
  have hused : (indexFormat.nodeBody ((pair f true p left right).map LevelTree.id)).usedBytes =
      (interiorPage (f.pre.map Prod.snd ++ p :: f.post.map Prod.fst)).usedBytes := by
    rw [usedBytes_node, pair_dividers]
  have hinterior : indexInteriorCells f.id s = (.ok
      (((pair f true d left right).map LevelTree.id).kids.map indexFormat.cell,
        ((pair f true d left right).map LevelTree.id).last), s) :=
    indexInteriorCells_of_read (readBody_live hlive.live (List.mem_cons_self ..))
  have hdown := rightmostLeafPath_live ht.live (.inside (TreeFormat.split f d right) up)
    (fun q hq => List.mem_append_left _ (hleft hq)) (by have := ht.height_lt; omega)
  have hleafCells := indexLeafCells_live (l := left.lastLeaf) ht.live
    fun q hq => List.mem_append_left _ (hleaf hq)
  rw [hlast] at hdown hleafCells
  rw [IndexBTree.replaceDividerMoves, post_bind]
  refine Post.of_eq hinterior ?_
  simp only
  rw [hdonor, post_bind, post_lift_ok, post_bind]
  refine Post.of_eq hdown ?_
  simp only
  rw [post_bind]
  refine Post.of_eq hleafCells ?_
  rw [post_bind, post_raiseIf]
  refine ⟨fun hnil => ?_, fun _ => ?_⟩
  · rw [List.map_append] at hnil
    exact absurd hnil (List.append_ne_nil_of_right_ne_nil _ (List.cons_ne_nil _ _))
  have hpred := cellAt_around init p []
  have herase := eraseIdx_around Entry.cell init p []
  have hslot : (init ++ [p]).length - 1 = init.length := by
    rw [List.length_append, List.length_singleton, Nat.add_sub_cancel]
  rw [List.append_nil] at herase
  rw [hslot, hpred, post_bind, post_lift_ok, hp.encodeInterior hleftId, post_bind, post_lift_ok,
    hbody, herase, post_bind, post_raiseIf, hused]
  refine ⟨fun hfull => ⟨⟨_, rfl⟩, .inl ⟨by rw [hrefits, decide_eq_true hfull, Bool.true_or], rfl⟩⟩,
    fun hroom => ?_⟩
  have hpath := Ctx.path_last (.inside (TreeFormat.split f d right) up)
    (.inside (TreeFormat.split f p right) up) rfl left
  rw [hpath]
  refine (swap_post ht hlost hplug hlast hT hC (Nat.le_of_not_lt hroom)).mono (fun _ s' hs' => ?_)
    fun _ s' hs' => ⟨hs'.1, Or.inr ⟨?_, hs'.2.2⟩⟩
  · exact ⟨hs'.1, by rw [hrefits, hs'.2.1, Bool.or_true], hs'.2.2⟩
  · rw [hrefits, hs'.2.1, decide_eq_false hroom, Bool.or_false]

/-! ### The entry point -/

/-- A deletion of the entry with the key finds room for what it moves. -/
def deletionFits (k : List Value) (T : IndexTree H) : Bool :=
  match seek k .root T with
  | .absent => true
  | .leaf c _ pre _ post => leafRefits c (pre ++ post)
  | .divider up f left _ right => dividerRefits up f left right

/-- A deletion that returned. -/
def IndexDeleted (s : PageStore) (root : Nat) (others : Image) (T : IndexTree H) (k : List Value)
    (found : Bool) (s' : PageStore) : Prop :=
  found = false ∧ s' = s ∧
      (∀ n, Comparable n k → Sorted n T.entries → ∀ e ∈ T.entries, e.place ≠ keyPlace k) ∨
    found = true ∧ ∃ xs e ys, T.entries = xs ++ e :: ys ∧ compareKeys e.key k = .eq ∧
      IndexHolds s' root others (xs ++ ys)

/-- A deletion that returned, and lost no page. -/
def IndexDeletedBut (lost : Residue) (s : PageStore) (root : Nat) (others : Image) (T : IndexTree H)
    (k : List Value) (found : Bool) (s' : PageStore) : Prop :=
  found = false ∧ s' = s ∧
      (∀ n, Comparable n k → Sorted n T.entries → ∀ e ∈ T.entries, e.place ≠ keyPlace k) ∨
    found = true ∧ ∃ xs e ys, T.entries = xs ++ e :: ys ∧ compareKeys e.key k = .eq ∧
      IndexHoldsBut lost s' root others (xs ++ ys)

theorem IndexDeletedBut.deleted {found : Bool} (h : IndexDeletedBut lost s root others T k found s') :
    IndexDeleted s root others T k found s' := by
  refine h.imp_right ?_
  rintro ⟨hfound, xs, e, ys, hT, hkey, hholds⟩
  exact ⟨hfound, xs, e, ys, hT, hkey, hholds.holds⟩

/-- `IndexBTree.delete`: the entry is gone, or nothing was touched, or a rotation
failed half-way. -/
theorem deleteMoves_index (ht : IndexStored s root others T)
    (hlost : LiveBut lost s (T.image ++ others)) (values : List Value) (rowid : Int) :
    Post (IndexBTree.deleteMoves root values rowid) s
      (fun r s' => SettledIn H r.2 ∧ deletionFits (values ++ [.int rowid]) T = true ∧
        IndexDeletedBut lost s root others T (values ++ [.int rowid]) r.1 s')
      fun e s' => OutOfRoom e ∧ (deletionFits (values ++ [.int rowid]) T = true ∧ s' = s ∨
        deletionFits (values ++ [.int rowid]) T = false ∧ Robbed T.image s') := by
  obtain ⟨hsound, hlocate⟩ := locate_spec (values ++ [.int rowid]) ht
  rw [IndexBTree.deleteMoves, post_bind, deletionFits]
  refine Post.of_eq hlocate ?_
  rcases hseek : seek (values ++ [.int rowid]) .root T with
    _ | ⟨c, i, pre, e, post⟩ | ⟨up, f, left, d, right⟩
  · rw [hseek] at hsound ⊢
    exact ⟨.inl rfl, rfl, .inl ⟨rfl, rfl, hsound⟩⟩
  · rw [hseek] at hsound ⊢
    obtain ⟨hplug, hkey⟩ := hsound
    refine (deleteLeaf_post ht hlost hplug).mono (fun r s' hs' => ⟨hs'.2.1, hs'.2.2.1, Or.inr ⟨hs'.1, ?_⟩⟩)
      fun _ s' hs' => ⟨hs'.1, Or.inr hs'.2⟩
    refine ⟨c.entriesBefore ++ pre, e, post ++ c.entriesAfter, ?_, hkey, ?_⟩
    · have hentries := Ctx.walk_of_plug hplug (fun items => items) fun e => [e]
      refine hentries.trans ?_
      rw [LevelTree.walk_leaf]
      simp only [List.append_assoc, List.cons_append]
      rfl
    · have hholds := hs'.2.2.2
      simp only [List.append_assoc] at hholds ⊢
      exact hholds
  · rw [hseek] at hsound ⊢
    obtain ⟨hplug, hkey⟩ := hsound
    simp only [Spot.located]
    rw [post_bind]
    refine (replaceDivider_post ht hlost hplug).mono (fun _ s' hs' => ⟨hs'.1, hs'.2.1, Or.inr ⟨rfl, ?_⟩⟩)
      fun _ s' hs' => hs'
    refine ⟨_, d, _, ?_, hkey, hs'.2.2⟩
    have hentries := Ctx.walk_of_plug hplug (fun items => items) fun e => [e]
    refine hentries.trans ?_
    have hnode := entries_fill (TreeFormat.split f d right) left
    rw [entriesAfter_split] at hnode
    have hbefore : (TreeFormat.split f d right).entriesBefore = f.entriesBefore := rfl
    rw [hbefore] at hnode
    show up.entriesBefore ++ LevelTree.entries _ ++ up.entriesAfter = _
    rw [hnode]
    simp only [List.append_assoc, List.cons_append]

theorem delete_index_but (ht : IndexStored s root others T)
    (hlost : LiveBut lost s (T.image ++ others)) (values : List Value) (rowid : Int) :
    Post (IndexBTree.delete root values rowid) s
      (fun found s' => deletionFits (values ++ [.int rowid]) T = true ∧
        IndexDeletedBut lost s root others T (values ++ [.int rowid]) found s')
      fun _ s' => deletionFits (values ++ [.int rowid]) T = true ∧ s' = s ∨
        deletionFits (values ++ [.int rowid]) T = false ∧ Robbed T.image s' := by
  rw [← IndexBTree.map_deleteMoves, ← bind_pure_comp]
  exact (deleteMoves_index ht hlost values rowid).bind (fun r s' hs' => hs'.2) fun _ _ he => he.2

theorem delete_index (ht : IndexStored s root others T) (values : List Value) (rowid : Int) :
    Post (IndexBTree.delete root values rowid) s
      (fun found s' => deletionFits (values ++ [.int rowid]) T = true ∧
        IndexDeleted s root others T (values ++ [.int rowid]) found s')
      fun _ s' => deletionFits (values ++ [.int rowid]) T = true ∧ s' = s ∨
        deletionFits (values ++ [.int rowid]) T = false ∧ Robbed T.image s' := by
  obtain ⟨lost, hlost⟩ := ht.live.exists_lost
  exact (delete_index_but ht hlost values rowid).mono (fun _ _ h => ⟨h.1, h.2.deleted⟩) fun _ _ he => he

end Delete

end QuillDb
