/-
  BTree/Settles.lean --- rebalancing leaves no page without cells.

  Source: `IndexBTree._rebalance`, `IndexBTree._pull_up_into_root` and
  `IndexBTree.delete` of `quilldb/btree/index.py`.

  `_rebalance` has two ways to return without a move from a page that is not the
  root: the parent has no cells, or the sibling has neither the room for a merge
  nor the two cells for a rotation.  Neither is taken: a parent has a cell, and a
  sibling with one cell, a quarter of a page at most, has the room.
-/
import QuillDb.BTree.IndexRun

set_option autoImplicit false

namespace QuillDb

open Prog PageStore PageTree

section Settles

variable {s : PageStore} {root : Nat} {others : Image} {h H : Nat} {T : IndexTree H}
variable {c : Ctx Entry Entry h} {t x : IndexTree h}

/-- The pages at `root` store a tree in which the page at `c` has no cells, and
every other page has. -/
structure Hollowed (s : PageStore) (root : Nat) (others : Image) {h : Nat} (c : Ctx Entry Entry h)
    (x : IndexTree h) : Prop where
  root : c.rootId x.id = root
  keys : x.keys = []
  celled : Celled (c.image indexFormat.layout x.id ++ x.below)
  small : Small (c.image indexFormat.layout x.id ++ x.image)
  live : Live s (c.image indexFormat.layout x.id ++ x.image ++ others)

/-- The moves from an emptied page and the tree they leave. -/
def Refilled (root : Nat) (others : Image) (c : Ctx Entry Entry h) (x : IndexTree h)
    (moves : List RebalanceMove) (s' : PageStore) : Prop :=
  RebalanceMove.Settle c.path.length moves ∧
    IndexHolds s' root others (c.entriesBefore ++ x.entries ++ c.entriesAfter)

/-- `_rebalance` from an emptied page: each page it visits below the root is merged
or refilled by a rotation, unless a rotation finds the parent full. -/
theorem Hollowed.rebalanceMoves_post (hx : Hollowed s root others c x) (slot : Nat) :
    Post (IndexBTree.rebalanceMoves root ((x.id, slot) :: c.path)) s (Refilled root others c x)
      fun e _ => OutOfRoom e := by
  obtain ⟨lost, hlost⟩ := hx.live.exists_lost
  refine (rebalance_post c s x slot hx.keys hx.root hx.celled hx.small hlost).mono
    (fun moves s' hs' => ⟨hs'.1, hs'.2.2.holds⟩) fun e s' hs' => ?_
  exact ⟨_, hs'.2.1⟩

/-- A page of a stored tree has lost its last cell. -/
theorem IndexStored.hollowed (ht : IndexStored s root others T) (hplug : c.plug t = ⟨H, T⟩)
    (hid : x.id = t.id) (hkeys : x.keys = []) (hcelled : Celled x.below) (hsmall : Small x.below)
    {s' : PageStore} (hlive : Live s' (c.image indexFormat.layout x.id ++ x.image ++ others)) :
    Hollowed s' root others c x := by
  have himage := Ctx.image_of_plug hplug indexFormat.layout
  rw [← hid] at himage
  have houter : Small (c.image indexFormat.layout x.id) := fun i hi =>
    ht.small i ((himage.map Prod.fst).mem_iff.mpr (by
      rw [List.map_append]
      exact List.mem_append_left _ hi))
  have hpage : x.id < 2 ^ 32 := by
    refine ht.small x.id ((himage.map Prod.fst).mem_iff.mpr ?_)
    rw [List.map_append, hid]
    exact List.mem_append_right _ (LevelTree.id_mem_image _ t)
  refine ⟨?_, hkeys, fun p hp => ?_, ?_, hlive⟩
  · rw [hid, ← Ctx.id_of_plug hplug, ht.root]
  · rcases List.mem_append.mp hp with hp | hp
    · rw [hid] at hp
      exact ht.celled_ctx hplug p hp
    · exact hcelled p hp
  · intro i hi
    rw [IndexTree.image_eq, List.map_append, List.map_cons] at hi
    rcases List.mem_append.mp hi with hi | hi
    · exact houter i hi
    · rcases List.mem_cons.mp hi with rfl | hi
      · exact hpage
      · exact hsmall i hi

theorem IndexStored.holds (ht : IndexStored s root others T) : IndexHolds s root others T.entries :=
  ⟨H, T, ht.root, rfl, ht.filled, ht.small, ht.live⟩

/-- A deletion, with the moves it ends in. -/
theorem IndexStored.deleteMoves_post (ht : IndexStored s root others T) (values : List Value)
    (rowid : Int) : Post (IndexBTree.deleteMoves root values rowid) s
      (fun r s' => SettledIn H r.2 ∧ ∃ es, IndexHolds s' root others es) fun e _ => OutOfRoom e := by
  obtain ⟨lost, hlost⟩ := ht.live.exists_lost
  refine (deleteMoves_index ht hlost values rowid).mono (fun r s' hs' => ⟨hs'.1, ?_⟩)
    fun _ _ he => he.1
  rcases hs'.2.2 with ⟨-, rfl, -⟩ | ⟨-, xs, e, ys, -, -, hholds⟩
  · exact ⟨T.entries, ht.holds⟩
  · exact ⟨xs ++ ys, hholds.holds⟩

end Settles

/-- Calls that returned left a tree with a cell on every page, the root leaf of an
empty index apart.  If a page of it loses its last cell, at any level, `_rebalance`
merges or rotates at each level it visits below the root and leaves such a tree, or
it raises `PageFullError`; and this is where a deletion calls it. -/
theorem rebalance_settles (s₀ : PageStore) (root : Nat) (others : Image) (hroot : root < 2 ^ 32)
    (hlive : Live s₀ ((root, .body (.indexLeaf [])) :: others)) (calls : List IndexCall)
    (answers : List Bool) (s : PageStore) (hrun : runIndexCalls root calls s₀ = (.ok answers, s)) :
    (∀ path, (fun _ => ()) <$> IndexBTree.rebalanceMoves root path = IndexBTree.rebalance root path) ∧
    (∀ values rowid, Prod.fst <$> IndexBTree.deleteMoves root values rowid =
      IndexBTree.delete root values rowid) ∧
    ∃ (H : Nat) (T : IndexTree H), IndexStored s root others T ∧
      (∀ (h : Nat) (c : Ctx Entry Entry h) (t x : IndexTree h), c.plug t = ⟨H, T⟩ → x.id = t.id →
        x.keys = [] → Celled x.below → Small x.below →
        ∀ s', Live s' (c.image indexFormat.layout x.id ++ x.image ++ others) →
        ∀ slot, Post (IndexBTree.rebalanceMoves root ((x.id, slot) :: c.path)) s'
          (Refilled root others c x) fun e _ => OutOfRoom e) ∧
      ∀ values rowid, Post (IndexBTree.deleteMoves root values rowid) s
        (fun r s' => SettledIn H r.2 ∧ ∃ es, IndexHolds s' root others es) fun e _ => OutOfRoom e := by
  have hunsorted : SortedIf (fun _ => False) (LevelTree.entries (.leaf ⟨root, []⟩)) :=
    fun _ hn => hn.elim
  obtain ⟨H, T, ht, -⟩ := (indexStored_empty hroot hlive).afterCalls hunsorted
    (fun _ hn => hn.elim) hrun
  exact ⟨IndexBTree.map_rebalanceMoves root, IndexBTree.map_deleteMoves root, H, T, ht,
    fun h c t x hplug hid hkeys hcelled hsmall s' hlive' slot =>
      (ht.hollowed hplug hid hkeys hcelled hsmall hlive').rebalanceMoves_post slot,
    ht.deleteMoves_post⟩

/-- The first of two leaves loses its last entry: it takes its sibling in, and the root
pulls the page up. -/
theorem rebalance_settles_keys :
    (IndexBTree.deleteMoves 2 [.int 3, filler 985 7] 3
      ((runIndexCalls 2 lastInLeaf).exec emptyIndex)).1 = .ok (true, [.merge, .pullUp]) ∧
    ∃ (H : Nat) (T : IndexTree H),
      IndexStored ((runIndexCalls 2 lastInLeaf).exec emptyIndex) 2 [] T ∧
      SettledIn H [.merge, .pullUp] ∧
      ∀ (h : Nat) (c : Ctx Entry Entry h) (t x : IndexTree h), c.plug t = ⟨H, T⟩ → x.id = t.id →
        x.keys = [] → Celled x.below → Small x.below →
        ∀ s', Live s' (c.image indexFormat.layout x.id ++ x.image ++ []) →
        ∀ slot, Post (IndexBTree.rebalanceMoves 2 ((x.id, slot) :: c.path)) s'
          (Refilled 2 [] c x) fun e _ => OutOfRoom e := by
  obtain ⟨s, hs⟩ : ∃ s, s = (runIndexCalls 2 lastInLeaf).exec emptyIndex := ⟨_, rfl⟩
  have hrun : runIndexCalls 2 lastInLeaf emptyIndex = (.ok (List.replicate 7 true), s) :=
    hs ▸ apply_eq (by decide +kernel)
  have hmoves : (IndexBTree.deleteMoves 2 [.int 3, filler 985 7] 3 s).1 =
      .ok (true, [.merge, .pullUp]) := by
    rw [hs]
    decide +kernel
  obtain ⟨-, -, H, T, ht, hrefill, hdelete⟩ :=
    rebalance_settles emptyIndex 2 [] (by decide) emptyIndex_live lastInLeaf _ s hrun
  have hsettled := (hdelete [.int 3, filler 985 7] 3).ok (apply_eq hmoves)
  exact hs ▸ ⟨hmoves, H, T, ht, hsettled.1, hrefill⟩

end QuillDb
