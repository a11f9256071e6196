/-
  BTree/Rebalance.lean --- an emptied page and its neighbour.

  Source: the merge and the rotation of `IndexBTree._rebalance` in
  `quilldb/btree/index.py`.

  An emptied page turns to the next sibling, or to the one before it if it is the
  last.  Either way the two pages and the entry between them list the same entries
  afterwards, and own the same further pages.
-/
import QuillDb.BTree.IndexTree

set_option autoImplicit false

namespace QuillDb

open Prog PageStore PageTree

/-! ## Neighbours -/

/-- `xs`, `ds` and `ys` in this order, or in the opposite one. -/
def beside {β : Type} (prepend : Bool) (xs ds ys : List β) : List β :=
  if prepend then xs ++ (ds ++ ys) else ys ++ (ds ++ xs)

theorem beside_perm {β : Type} (prepend : Bool) (xs ds ys : List β) :
    (beside prepend xs ds ys).Perm (xs ++ (ds ++ ys)) := by
  cases prepend with
  | true => exact List.Perm.refl _
  | false =>
      have hswap : (ds ++ xs ++ ys).Perm (xs ++ ds ++ ys) := List.perm_append_comm.append_right ys
      rw [List.append_assoc xs] at hswap
      exact List.perm_append_comm.trans hswap

section Pair

variable {δ τ τ' β : Type}

/-- A frame whose hole is filled by `x`, `d` and `sib`: `x` comes first, or last. -/
def pair (g : Frame δ τ) (prepend : Bool) (d : δ) (x sib : τ) : Node δ τ :=
  if prepend then (TreeFormat.split g d sib).fill x else (TreeFormat.split g d x).fill sib

@[simp] theorem pair_id (g : Frame δ τ) (prepend : Bool) (d : δ) (x sib : τ) :
    (pair g prepend d x sib).id = g.id := by
  cases prepend <;> rfl

theorem pair_flatten (f : τ → List β) (e : δ → List β) (g : Frame δ τ) (prepend : Bool) (d : δ)
    (x sib : τ) : (pair g prepend d x sib).flatten f e =
      g.before f e ++ beside prepend (f x) (e d) (f sib) ++ g.after f e := by
  have hsplit (left right : τ) : ((TreeFormat.split g d right).fill left).flatten f e =
      g.before f e ++ (f left ++ (e d ++ f right)) ++ g.after f e := by
    rw [Frame.flatten_fill, Frame.after, TreeFormat.split, List.flatMap_cons, Frame.before,
      Frame.before, Frame.after]
    simp only [List.append_assoc]
  cases prepend with
  | true => exact hsplit x sib
  | false => exact hsplit sib x

/-- The kids of a pair, around its divider. -/
theorem pair_kids (g : Frame δ τ) (prepend : Bool) (d : δ) (x sib : τ) :
    (pair g prepend d x sib).kids = g.pre ++ (if prepend then x else sib, d) ::
      (linkPost (if prepend then sib else x) g.post).1 ∧
    (pair g prepend d x sib).last = (linkPost (if prepend then sib else x) g.post).2 := by
  cases prepend <;> exact ⟨rfl, rfl⟩

theorem pair_dividers (g : Frame δ τ) (prepend : Bool) (d : δ) (x sib : τ) :
    (pair g prepend d x sib).dividers = g.pre.map Prod.snd ++ d :: g.post.map Prod.fst := by
  rw [Node.dividers, (pair_kids g prepend d x sib).1, List.map_append, List.map_cons,
    Frame.linkPost_dividers]

theorem pair_map (k : τ → τ') (g : Frame δ τ) (prepend : Bool) (d : δ) (x sib : τ) :
    (pair g prepend d x sib).map k = pair (g.map k) prepend d (k x) (k sib) := by
  cases prepend with
  | true => exact Frame.map_fill k _ x
  | false => exact Frame.map_fill k _ sib

/-- The sibling that an emptied page turns to, the divider between the two, and
whether the page comes first. -/
structure Neighbour (δ τ : Type) where
  divider : δ
  sibling : τ
  prepend : Bool

def neighbour (f : Frame δ τ) : Option (Neighbour δ τ) :=
  match f.post with
  | (d, y) :: _ => some ⟨d, y, true⟩
  | [] =>
      match f.pre.getLast? with
      | some (y, d) => some ⟨d, y, false⟩
      | none => none

/-- The dividers on both sides of a hole. -/
def frameDividers (f : Frame δ τ) : List δ := f.pre.map Prod.snd ++ f.post.map Prod.fst

theorem length_frameDividers (f : Frame δ τ) :
    (frameDividers f).length = f.pre.length + f.post.length := by
  rw [frameDividers, List.length_append, List.length_map, List.length_map]

/-- The hole and the neighbour as a pair, at the slots of `_rebalance`. -/
structure PairedAt (f : Frame δ τ) (nb : Neighbour δ τ) (g : Frame δ τ) : Prop where
  fill : ∀ x, f.fill x = pair g nb.prepend nb.divider x nb.sibling
  donorSlot : (IndexBTree.chooseDonor f.pre.length (f.pre.length + f.post.length)).donorSlot =
    g.pre.length
  siblingSlot : (IndexBTree.chooseDonor f.pre.length (f.pre.length + f.post.length)).siblingSlot =
    if nb.prepend then g.pre.length + 1 else g.pre.length
  prepend : (IndexBTree.chooseDonor f.pre.length (f.pre.length + f.post.length)).prepend = nb.prepend
  last : nb.prepend = false → g.post = []
  before : ∀ {β : Type} (k : τ → List β) (e : δ → List β),
    f.before k e ++ f.after k e = g.before k e ++
      beside nb.prepend [] (e nb.divider) (k nb.sibling) ++ g.after k e
  dividers : frameDividers f = g.pre.map Prod.snd ++ nb.divider :: g.post.map Prod.fst

theorem exists_paired {f : Frame δ τ} {nb : Neighbour δ τ} (h : neighbour f = some nb) :
    ∃ g, g.id = f.id ∧ PairedAt f nb g := by
  unfold neighbour at h
  split at h
  · rename_i d y post hpost
    obtain rfl := Option.some.inj h
    have hslots : IndexBTree.chooseDonor f.pre.length (f.pre.length + f.post.length) =
        ⟨f.pre.length, f.pre.length + 1, true⟩ := by
      rw [IndexBTree.chooseDonor, hpost, List.length_cons, if_pos (by omega)]
    have hf : f = TreeFormat.split { f with post := post } d y := by
      rw [TreeFormat.split, ← hpost]
    refine ⟨{ f with post := post }, rfl, fun x => congrArg (Frame.fill · x) hf, ?_, ?_, ?_, ?_, ?_, ?_⟩
    · rw [hslots]
    · rw [hslots]
      rfl
    · rw [hslots]
    · exact fun h => by cases h
    · intro β k e
      rw [Frame.after, hpost, List.flatMap_cons]
      simp only [beside, Frame.before, Frame.after, if_true, List.nil_append, List.append_assoc]
    · rw [frameDividers, hpost, List.map_cons]
  · rename_i hpost
    split at h
    · rename_i y d hlast
      obtain rfl := Option.some.inj h
      have hpre : f.pre = f.pre.dropLast ++ [(y, d)] :=
        (List.dropLast_append_getLast? (y, d) hlast).symm
      have hlen : f.pre.length = f.pre.dropLast.length + 1 := by
        nth_rewrite 1 [hpre]
        rw [List.length_append, List.length_singleton]
      have hslots : IndexBTree.chooseDonor f.pre.length (f.pre.length + f.post.length) =
          ⟨f.pre.dropLast.length, f.pre.dropLast.length, false⟩ := by
        rw [IndexBTree.chooseDonor, hpost, List.length_nil, if_neg (by omega), hlen]
        rfl
      refine ⟨⟨f.id, f.pre.dropLast, []⟩, rfl, fun x => ?_, ?_, ?_, ?_, fun _ => rfl, ?_, ?_⟩
      · rw [Frame.fill, hpost]
        nth_rewrite 1 [hpre]
        simp only [pair, TreeFormat.split, Frame.fill, linkPost, Bool.false_eq_true, if_false,
          List.append_nil]
      · rw [hslots]
      · rw [hslots]
        rfl
      · rw [hslots]
      · intro β k e
        rw [Frame.after, hpost, Frame.before]
        nth_rewrite 1 [hpre]
        simp only [beside, Frame.before, Frame.after, Bool.false_eq_true, if_false, List.append_nil,
          List.flatMap_append, List.flatMap_cons, List.flatMap_nil]
      · rw [frameDividers, hpost]
        nth_rewrite 1 [hpre]
        rw [List.map_append, List.append_assoc]
        rfl
    · cases h

/-- Only an only child has no neighbour. -/
theorem neighbour_eq_none {f : Frame δ τ} (h : neighbour f = none) : f.pre = [] ∧ f.post = [] := by
  unfold neighbour at h
  split at h
  · cases h
  · rename_i hpost
    split at h
    · cases h
    · rename_i hlast
      exact ⟨List.getLast?_eq_none_iff.mp hlast, hpost⟩

end Pair

/-! ## Pages of the tree -/

/-- The room a cell with this entry takes on a page `h` levels above the leaves. -/
def cellSizeAt (h : Nat) (e : Entry) : Nat :=
  match h with
  | 0 => e.cell.size
  | _ + 1 => 4 + e.cell.size

namespace IndexTree

/-- The entries on the root page. -/
def keys : {h : Nat} → IndexTree h → List Entry
  | 0, t => Leaf.items t
  | _ + 1, t => Node.dividers t

/-- The root page. -/
def body : {h : Nat} → IndexTree h → PageBody
  | 0, t => .indexLeaf ((Leaf.items t).map Entry.cell)
  | _ + 1, t => indexFormat.nodeBody (Node.map LevelTree.id t)

/-- The pages below the root page. -/
def below : {h : Nat} → IndexTree h → Image
  | 0, t => (Leaf.items t).flatMap indexFormat.leafExtra
  | _ + 1, t => Node.flatten indexFormat.image indexFormat.dividerExtra t

variable {h : Nat}

theorem image_eq (t : IndexTree h) : IndexTree.image t = (LevelTree.id t, .body (body t)) :: below t := by
  cases h <;> rfl

theorem cellSizes_body (t : IndexTree h) : (body t).cellSizes = (keys t).map (cellSizeAt h) := by
  cases h with
  | zero => exact List.map_map
  | succ h =>
      obtain ⟨n, hn⟩ := LevelTree.exists_node t
      have hcells : (body t).cellSizes =
          (((n.map LevelTree.id).kids.map indexFormat.cell).map (InteriorCell.size Payload.size)) := by
        rw [hn]
        rfl
      have hkeys : keys t = n.kids.map Prod.snd := by
        rw [hn]
        rfl
      rw [hcells, hkeys, Node.map, List.map_map, List.map_map, List.map_map]
      rfl

theorem hasCells_body {t : IndexTree h} : (PageContent.body (body t)).HasCells ↔ keys t ≠ [] := by
  rw [PageContent.HasCells, cellSizes_body, Ne, Ne, List.map_eq_nil_iff]

/-- The used bytes of a page do not depend on its child pointers. -/
theorem usedBytes_perm {t : IndexTree h} {es : List Entry} (hkeys : (keys t).Perm es) :
    (body t).usedBytes = (body t).headerSize + 2 * es.length + (es.map (cellSizeAt h)).sum := by
  rw [PageBody.usedBytes, cellSizes_body, List.length_map, hkeys.length_eq,
    (hkeys.map (cellSizeAt h)).sum_eq]

theorem headerSize_body (t : IndexTree h) :
    (body t).headerSize = if h = 0 then leafHeaderSize else interiorHeaderSize := by
  cases h <;> rfl

theorem headerSize_congr (t t' : IndexTree h) : (body t).headerSize = (body t').headerSize := by
  rw [headerSize_body, headerSize_body]

end IndexTree

/-! ## Merging and rotating -/

section Moves

variable {h : Nat}

open IndexTree

theorem exists_hollow_leaf {x : IndexTree 0} (hx : keys x = []) :
    ∃ i, x = LevelTree.leaf ⟨i, []⟩ := by
  obtain ⟨⟨i, items⟩, hl⟩ := LevelTree.exists_leaf x
  have hitems : items = [] := by rw [← hx, hl]; rfl
  exact ⟨i, by rw [hl, hitems]⟩

theorem exists_hollow_node {x : IndexTree (h + 1)} (hx : keys x = []) :
    ∃ i only, x = LevelTree.node ⟨i, [], only⟩ := by
  obtain ⟨⟨i, kids, only⟩, hn⟩ := LevelTree.exists_node x
  have hkids : kids.map Prod.snd = [] := by rw [← hx, hn]; rfl
  exact ⟨i, only, by rw [hn, List.map_eq_nil_iff.mp hkids]⟩

/-- The pages below a node include its children. -/
theorem image_child_subset {n : Node Entry (IndexTree h)} {t : IndexTree h} (ht : t ∈ n.children) :
    IndexTree.image t ⊆ below (LevelTree.node n) := by
  intro p hp
  rcases List.mem_append.mp ht with ht | ht
  · obtain ⟨q, hq, rfl⟩ := List.mem_map.mp ht
    exact List.mem_append_left _ (List.mem_flatMap.mpr ⟨q, hq, List.mem_append_left _ hp⟩)
  · rw [List.mem_singleton.mp ht] at hp
    exact List.mem_append_right _ hp

theorem small_child {n : Node Entry (IndexTree h)} (hsmall : Small (below (LevelTree.node n)))
    {t : IndexTree h} (ht : t ∈ n.children) : LevelTree.id t < 2 ^ 32 :=
  hsmall _ (List.map_subset _ (image_child_subset ht) (LevelTree.id_mem_image _ t))

theorem rightChild_body_lt {t : IndexTree h} (hsmall : Small (below t)) :
    (body t).rightChild < 2 ^ 32 := by
  cases h with
  | zero => exact Nat.two_pow_pos 32
  | succ h =>
      obtain ⟨n, hn⟩ := LevelTree.exists_node t
      rw [hn] at hsmall ⊢
      exact small_child hsmall (List.mem_append_right _ (List.mem_singleton_self n.last))

theorem entries_node (n : Node Entry (IndexTree h)) :
    LevelTree.entries (LevelTree.node n) = n.flatten LevelTree.entries fun d => [d] := rfl

theorem below_node (n : Node Entry (IndexTree h)) :
    below (LevelTree.node n) = n.flatten indexFormat.image indexFormat.dividerExtra := rfl

theorem entries_leaf (i : Nat) (es : List Entry) :
    LevelTree.entries (LevelTree.leaf ⟨i, es⟩ : IndexTree 0) = es := rfl

theorem below_leaf (i : Nat) (es : List Entry) :
    below (LevelTree.leaf ⟨i, es⟩) = es.flatMap fun e => e.stored.image := rfl

theorem dividerExtra_index (d : Entry) : indexFormat.dividerExtra d = d.stored.image := rfl

/-- The page that takes the emptied one over. -/
structure Merged (prepend : Bool) (x : IndexTree h) (d : Entry) (sib m : IndexTree h) : Prop where
  id : LevelTree.id m = LevelTree.id sib
  keys : (keys m).Perm (d :: keys sib)
  entries : LevelTree.entries m =
    beside prepend (LevelTree.entries x) [d] (LevelTree.entries sib)
  below : (below m).Perm (below x ++ (d.stored.image ++ below sib))
  code : IndexBTree.mergeBody (body x) (body sib) d.cell prepend = .ok (cellSizeAt h d, body m)

theorem exists_merged {x sib : IndexTree h} (hx : keys x = []) {d : Entry} (hd : d.Packs)
    (hxsmall : Small (below x)) (hsibsmall : Small (below sib)) (prepend : Bool) :
    ∃ m, Merged prepend x d sib m := by
  cases h with
  | zero =>
      obtain ⟨i, rfl⟩ := exists_hollow_leaf hx
      obtain ⟨⟨j, items⟩, rfl⟩ := LevelTree.exists_leaf sib
      have henc := hd.encodeLeaf
      cases prepend with
      | true =>
          refine ⟨.leaf ⟨j, d :: items⟩, rfl, List.Perm.refl _, rfl, List.Perm.refl _, ?_⟩
          simp only [IndexBTree.mergeBody, body, LevelTree.leaf, henc]
          rfl
      | false =>
          refine ⟨.leaf ⟨j, items ++ [d]⟩, rfl, List.perm_append_singleton _ _, rfl, ?_, ?_⟩
          · have happend : below (LevelTree.leaf ⟨j, items ++ [d]⟩ : IndexTree 0) =
                below (LevelTree.leaf ⟨j, items⟩ : IndexTree 0) ++ d.stored.image := by
              simp only [below, LevelTree.leaf, List.flatMap_append, List.flatMap_singleton]
              rfl
            rw [happend]
            exact List.perm_append_comm
          · simp only [IndexBTree.mergeBody, body, LevelTree.leaf, henc]
            simp only [List.map_append]
            rfl
  | succ h =>
      obtain ⟨i, only, rfl⟩ := exists_hollow_node hx
      obtain ⟨⟨j, kids, last⟩, rfl⟩ := LevelTree.exists_node sib
      cases prepend with
      | true =>
          have henc := hd.encodeInterior (small_child hxsmall (List.mem_singleton_self only))
          refine ⟨.node ⟨j, (only, d) :: kids, last⟩, rfl, List.Perm.refl _, ?_, ?_, ?_⟩
          · simp only [entries_node, Node.flatten, List.flatMap_cons, List.flatMap_nil,
              List.nil_append, List.append_assoc, beside, if_true]
          · simp only [below_node, Node.flatten, List.flatMap_cons, List.flatMap_nil,
              List.nil_append, List.append_assoc, dividerExtra_index]
            exact List.Perm.refl _
          · simp only [IndexBTree.mergeBody, body, LevelTree.node, TreeFormat.nodeBody, Node.map,
              indexFormat, indexInteriorFormat, if_true, henc]
            rfl
      | false =>
          have henc := hd.encodeInterior (small_child hsibsmall
            (List.mem_append_right _ (List.mem_singleton_self last)))
          refine ⟨.node ⟨j, kids ++ [(last, d)], only⟩, rfl, ?_, ?_, ?_, ?_⟩
          · have happend : keys (LevelTree.node ⟨j, kids ++ [(last, d)], only⟩ : IndexTree (h + 1)) =
                keys (LevelTree.node ⟨j, kids, last⟩ : IndexTree (h + 1)) ++ [d] := List.map_append
            rw [happend]
            exact List.perm_append_singleton _ _
          · simp only [entries_node, Node.flatten, List.flatMap_append, List.flatMap_cons,
              List.flatMap_nil, List.nil_append, List.append_nil, List.append_assoc, beside,
              Bool.false_eq_true, if_false]
          · simp only [below_node, Node.flatten, List.flatMap_append, List.flatMap_cons,
              List.flatMap_nil, List.nil_append, List.append_nil, List.append_assoc,
              dividerExtra_index]
            have hswap := beside_perm false (indexFormat.image only) d.stored.image
              (kids.flatMap (fun p => indexFormat.image p.1 ++ p.2.stored.image) ++
                indexFormat.image last)
            simp only [beside, Bool.false_eq_true, if_false, List.append_assoc] at hswap
            exact hswap
          · simp only [IndexBTree.mergeBody, body, LevelTree.node, TreeFormat.nodeBody, Node.map,
              indexFormat, indexInteriorFormat, Bool.false_eq_true, if_false, henc, List.map_append]
            rfl

/-- The entry of the sibling next to the divider. -/
def borrowed (prepend : Bool) (sib : IndexTree h) : Option Entry :=
  if prepend then (keys sib).head? else (keys sib).getLast?

/-- The emptied page takes the divider, and the sibling gives up the entry next to
it. -/
structure Rotated (prepend : Bool) (x : IndexTree h) (d : Entry) (sib : IndexTree h) (b : Entry)
    (x' sib' : IndexTree h) : Prop where
  id : LevelTree.id x' = LevelTree.id x
  sibling_id : LevelTree.id sib' = LevelTree.id sib
  borrowed : borrowed prepend sib = some b
  keys : keys x' = [d]
  sibling_keys : (IndexTree.keys sib).Perm (b :: IndexTree.keys sib')
  entries : beside prepend (LevelTree.entries x') [b] (LevelTree.entries sib') =
    beside prepend (LevelTree.entries x) [d] (LevelTree.entries sib)
  below : (below x' ++ (b.stored.image ++ below sib')).Perm
    (below x ++ (d.stored.image ++ below sib))
  code : IndexBTree.rotateBody (body x) (body sib) d.cell prepend = .ok ⟨body x', body sib', b.cell⟩

theorem rotate_perm {β : Type} (a b c d e f : List β) :
    (a ++ b ++ c ++ (d ++ (e ++ f))).Perm (c ++ (b ++ (e ++ (f ++ d ++ a)))) := by
  classical
  rw [List.perm_iff_count]
  intro x
  simp only [List.count_append]
  omega

/-- Dropping the last cell by its index. -/
theorem eraseIdx_concat {α : Type} (xs : List α) (a : α) :
    (xs ++ [a]).eraseIdx ((xs ++ [a]).length - 1) = xs := by
  rw [List.length_append, List.length_singleton, Nat.add_sub_cancel,
    List.eraseIdx_append_of_length_le (Nat.le_refl _), Nat.sub_self]
  exact List.append_nil xs

theorem cellAt_concat {α : Type} (xs : List α) (a : α) :
    cellAt (xs ++ [a]) ((xs ++ [a]).length - 1) = .ok a := by
  rw [cellAt, List.length_append, List.length_singleton, Nat.add_sub_cancel,
    List.getElem?_append_right (Nat.le_refl _), Nat.sub_self]
  rfl

theorem exists_concat {α : Type} {xs : List α} (h : xs ≠ []) : ∃ ys a, xs = ys ++ [a] :=
  ⟨xs.dropLast, xs.getLast h, (List.dropLast_append_getLast h).symm⟩

theorem borrowed_concat {sib : IndexTree h} {es : List Entry} {b : Entry}
    (hkeys : keys sib = es ++ [b]) : borrowed false sib = some b := by
  rw [borrowed, hkeys]
  exact List.getLast?_concat

theorem exists_rotated {x sib : IndexTree h} (hx : keys x = []) (hsib : keys sib ≠ []) {d : Entry}
    (hd : d.Packs) (hxsmall : Small (below x)) (hsibsmall : Small (below sib)) (prepend : Bool) :
    ∃ b x' sib', Rotated prepend x d sib b x' sib' := by
  cases h with
  | zero =>
      obtain ⟨i, rfl⟩ := exists_hollow_leaf hx
      obtain ⟨⟨j, items⟩, rfl⟩ := LevelTree.exists_leaf sib
      have henc := hd.encodeLeaf
      cases prepend with
      | true =>
          obtain ⟨b, rest, rfl⟩ := List.exists_cons_of_ne_nil hsib
          refine ⟨b, .leaf ⟨i, [d]⟩, .leaf ⟨j, rest⟩, rfl, rfl, rfl, rfl, List.Perm.refl _, rfl, ?_, ?_⟩
          · simp only [below_leaf, List.flatMap_cons, List.flatMap_nil, List.append_nil,
              List.nil_append]
            exact List.Perm.refl _
          · simp only [IndexBTree.rotateBody, body, LevelTree.leaf, henc]
            rfl
      | false =>
          obtain ⟨rest, b, rfl⟩ := exists_concat hsib
          refine ⟨b, .leaf ⟨i, [d]⟩, .leaf ⟨j, rest⟩, rfl, rfl, ?_, rfl, ?_, ?_, ?_, ?_⟩
          · exact borrowed_concat rfl
          · exact List.perm_append_singleton b rest
          · simp only [entries_leaf, beside, Bool.false_eq_true, if_false, List.append_nil,
              List.append_assoc]
          · simp only [below_leaf, List.flatMap_append, List.flatMap_cons, List.flatMap_nil,
              List.append_nil, List.nil_append]
            exact List.Perm.append_left _ List.perm_append_comm
          · have hcells : (rest ++ [b]).map Entry.cell = rest.map Entry.cell ++ [b.cell] :=
              List.map_append
            simp only [IndexBTree.rotateBody, body, LevelTree.leaf, Bool.false_eq_true, if_false,
              hcells, cellAt_concat, eraseIdx_concat, henc]
            rfl
  | succ h =>
      obtain ⟨i, only, rfl⟩ := exists_hollow_node hx
      obtain ⟨⟨j, kids, last⟩, rfl⟩ := LevelTree.exists_node sib
      have hkids : kids ≠ [] := by
        rintro rfl
        exact hsib rfl
      cases prepend with
      | true =>
          have henc := hd.encodeInterior (small_child hxsmall (List.mem_singleton_self only))
          obtain ⟨⟨y, b⟩, rest, rfl⟩ := List.exists_cons_of_ne_nil hkids
          refine ⟨b, .node ⟨i, [(only, d)], y⟩, .node ⟨j, rest, last⟩, rfl, rfl, rfl, rfl,
            List.Perm.refl _, ?_, ?_, ?_⟩
          · simp only [entries_node, Node.flatten, List.flatMap_cons, List.flatMap_nil,
              List.nil_append, List.append_nil, List.append_assoc, beside, if_true]
          · simp only [below_node, Node.flatten, List.flatMap_cons, List.flatMap_nil,
              List.nil_append, List.append_nil, List.append_assoc, dividerExtra_index]
            exact List.Perm.refl _
          · simp only [IndexBTree.rotateBody, body, LevelTree.node, TreeFormat.nodeBody, Node.map,
              indexFormat, indexInteriorFormat, if_true, henc]
            rfl
      | false =>
          have henc := hd.encodeInterior (small_child hsibsmall
            (List.mem_append_right _ (List.mem_singleton_self last)))
          obtain ⟨rest, ⟨y, b⟩, rfl⟩ := exists_concat hkids
          refine ⟨b, .node ⟨i, [(last, d)], only⟩, .node ⟨j, rest, y⟩, rfl, rfl, ?_, rfl, ?_, ?_, ?_,
            ?_⟩
          · exact borrowed_concat (List.map_append)
          · have happend : keys (LevelTree.node ⟨j, rest ++ [(y, b)], last⟩ : IndexTree (h + 1)) =
                keys (LevelTree.node ⟨j, rest, y⟩ : IndexTree (h + 1)) ++ [b] := List.map_append
            rw [happend]
            exact List.perm_append_singleton _ _
          · simp only [entries_node, Node.flatten, List.flatMap_append, List.flatMap_cons,
              List.flatMap_nil, List.nil_append, List.append_nil, List.append_assoc, beside,
              Bool.false_eq_true, if_false]
          · simp only [below_node, Node.flatten, List.flatMap_append, List.flatMap_cons,
              List.flatMap_nil, List.nil_append, List.append_nil, List.append_assoc,
              dividerExtra_index]
            have hswap := rotate_perm (indexFormat.image last) d.stored.image
              (indexFormat.image only) b.stored.image
              (rest.flatMap fun p => indexFormat.image p.1 ++ p.2.stored.image) (indexFormat.image y)
            simp only [List.append_assoc] at hswap
            exact hswap
          · have hcells : (rest ++ [(y, b)]).map (fun p => (LevelTree.id p.1, p.2)) =
                rest.map (fun p => (LevelTree.id p.1, p.2)) ++ [(LevelTree.id y, b)] := List.map_append
            have hcells' : (rest.map (fun p => (LevelTree.id p.1, p.2)) ++
                [(LevelTree.id y, b)]).map indexFormat.cell =
                  (rest.map fun p => (LevelTree.id p.1, p.2)).map indexFormat.cell ++
                    [⟨LevelTree.id y, b.cell⟩] := List.map_append
            have hbody : body (LevelTree.node ⟨j, rest ++ [(y, b)], last⟩ : IndexTree (h + 1)) =
                .indexInterior ((rest.map fun p => (LevelTree.id p.1, p.2)).map indexFormat.cell ++
                  [⟨LevelTree.id y, b.cell⟩]) (LevelTree.id last) := by
              rw [← hcells', ← hcells]
              rfl
            have hhollow : body (LevelTree.node ⟨i, [], only⟩ : IndexTree (h + 1)) =
                .indexInterior [] (LevelTree.id only) := rfl
            rw [hbody, hhollow]
            simp only [IndexBTree.rotateBody, Bool.false_eq_true, if_false, cellAt_concat,
              eraseIdx_concat]
            rw [henc]
            rfl

end Moves

/-! ## Cells of a pair -/

section PairCells

variable (g : Frame Entry Nat) (prepend : Bool) (d b : Entry) (x sib : Nat)

theorem pair_cells : (pair g prepend d x sib).kids.map indexFormat.cell =
    g.pre.map indexFormat.cell ++ ⟨if prepend then x else sib, d.cell⟩ ::
      (linkPost (if prepend then sib else x) g.post).1.map indexFormat.cell := by
  rw [(pair_kids g prepend d x sib).1, List.map_append, List.map_cons]
  rfl

theorem pair_cellAt : cellAt ((pair g prepend d x sib).kids.map indexFormat.cell) g.pre.length =
    .ok ⟨if prepend then x else sib, d.cell⟩ := by
  rw [pair_cells, cellAt, List.getElem?_append_right (by rw [List.length_map]), List.length_map,
    Nat.sub_self]
  rfl

theorem pair_set : ((pair g prepend d x sib).kids.map indexFormat.cell).set g.pre.length
    ⟨if prepend then x else sib, b.cell⟩ = (pair g prepend b x sib).kids.map indexFormat.cell := by
  rw [pair_cells, pair_cells, List.set_append_right _ _ (by rw [List.length_map]), List.length_map,
    Nat.sub_self, List.set_cons_zero]

/-- Without its cell the parent of a pair keeps the sibling in the hole. -/
theorem pair_eraseIdx (hlast : prepend = false → g.post = []) :
    ((pair g prepend d x sib).kids.map indexFormat.cell).eraseIdx g.pre.length =
      (g.fill sib).kids.map indexFormat.cell ∧
    (if prepend then (pair g prepend d x sib).last else sib) = (g.fill sib).last := by
  rw [pair_cells, List.eraseIdx_append_of_length_le (by rw [List.length_map]), List.length_map,
    Nat.sub_self, List.eraseIdx_cons_zero, Frame.fill]
  cases prepend with
  | true => exact ⟨List.map_append.symm, rfl⟩
  | false =>
      rw [hlast rfl]
      exact ⟨List.map_append.symm, rfl⟩

theorem pair_childAt : childAt (childrenOfInterior
    ((pair g prepend d x sib).kids.map indexFormat.cell) (pair g prepend d x sib).last)
      (if prepend then g.pre.length + 1 else g.pre.length) = .ok sib := by
  have hchildren : childrenOfInterior ((pair g prepend d x sib).kids.map indexFormat.cell)
      (pair g prepend d x sib).last = (pair g prepend d x sib).children := by
    rw [childrenOfInterior, List.map_map, Node.children]
    rfl
  have hcut : (pair g prepend d x sib).children = g.pre.map Prod.fst ++
      (if prepend then x else sib) :: ((linkPost (if prepend then sib else x) g.post).1.map Prod.fst ++
        [(linkPost (if prepend then sib else x) g.post).2]) := by
    rw [Node.children, (pair_kids g prepend d x sib).1, (pair_kids g prepend d x sib).2,
      List.map_append, List.map_cons, List.append_assoc]
    rfl
  rw [hchildren, hcut, childAt]
  cases prepend with
  | true =>
      simp only [if_true]
      rw [List.getElem?_append_right (by rw [List.length_map]; omega), List.length_map,
        Nat.add_sub_cancel_left, List.getElem?_cons_succ, Frame.linkPost_head]
  | false =>
      simp only [Bool.false_eq_true, if_false]
      rw [List.getElem?_append_right (by rw [List.length_map]), List.length_map, Nat.sub_self,
        List.getElem?_cons_zero]

end PairCells

end QuillDb
