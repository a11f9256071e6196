/-
  BTree/RebalanceMoves.lean --- the moves of a rebalancing.

  Source: `IndexBTree._rebalance` of `quilldb/btree/index.py`.

  The programs of `BTree/Index.lean` with a log: one move for each level of the
  path that is visited, the emptied page first.  Without the log they are the
  programs they were.
-/
import QuillDb.BTree.Index

set_option autoImplicit false

namespace QuillDb

open Prog PageStore

/-- What `_rebalance` does about a page without cells. -/
inductive RebalanceMove where
  /-- the divider descends into the sibling, and the page is freed -/
  | merge
  /-- the divider descends into the page, and an entry of the sibling replaces it -/
  | rotate
  /-- the only child of the root is pulled up into it -/
  | pullUp
  /-- the root is left as it is -/
  | keepRoot
  /-- a page that is not the root is left as it is -/
  | giveUp
  deriving Repr, DecidableEq

namespace IndexBTree

/-- `_rebalance` with its moves. -/
def rebalanceMoves (root : Nat) : List (Nat × Nat) → StoreM (List RebalanceMove)
  | [] => raise (.indexError "list index out of range")
  | (pageId, _) :: above => do
      let body ← readBody pageId
      match above with
      | [] =>
          if body.pageType ≠ .leafIndex ∧ body.rightChild ≠ 0 then
            pullUpIntoRoot root body.rightChild
            return [.pullUp]
          else return [.keepRoot]
      | (parentPageId, childSlot) :: ancestors =>
          let (cells, rightChild) ← indexInteriorCells parentPageId
          if cells = [] then return [.giveUp]
          else
            let donor := chooseDonor childSlot cells.length
            let siblingId ← lift (childAt (childrenOfInterior cells rightChild) donor.siblingSlot)
            let divider ← lift (cellAt cells donor.donorSlot)
            let preferRotation := cells.length = 1 ∧ parentPageId ≠ root
            let sibling ← readBody siblingId
            let (size, merged) ← lift (mergeBody body sibling divider.key donor.prepend)
            let canRotate := 2 ≤ sibling.cellSizes.length
            if sibling.fits size ∧ ¬ (preferRotation ∧ canRotate) then
              writeBody siblingId merged
              let remaining := cells.eraseIdx donor.donorSlot
              writeBody parentPageId
                (.indexInterior remaining (if donor.prepend then rightChild else siblingId))
              freePage pageId
              if remaining = [] then
                let moves ← rebalanceMoves root ((parentPageId, childSlot) :: ancestors)
                return .merge :: moves
              else return [.merge]
            else if canRotate then
              let rotation ← lift (rotateBody body sibling divider.key donor.prepend)
              writeBody siblingId rotation.sibling
              initBody pageId rotation.refilled
              let cell ← lift (encodeInteriorIndexCell divider.child rotation.borrowed)
              writeBody parentPageId (.indexInterior (cells.set donor.donorSlot cell) rightChild)
              return [.rotate]
            else return [.giveUp]

/-- `_replace_divider_with_predecessor` with the moves it ends in. -/
def replaceDividerMoves (root : Nat) : List (Nat × Nat) → StoreM (List RebalanceMove)
  | [] => raise (.indexError "list index out of range")
  | (pageId, slot) :: ancestors => do
      let (cells, rightChild) ← indexInteriorCells pageId
      let divider ← lift (cellAt cells slot)
      match ← rightmostLeafPath ((pageId, slot) :: ancestors) divider.child with
      | [] => raise (.indexError "list index out of range")
      | (leafPageId, leafSlot) :: above =>
          let leaf ← indexLeafCells leafPageId
          raiseIf (leaf = []) (.btreeInvariant
            (s!"page {leafPageId}: the left subtree of the divider on page {pageId} " ++
              "ends in an empty leaf, so it has no predecessor to promote"))
          let promoted ← lift (cellAt leaf leafSlot)
          let replacement ← lift (encodeInteriorIndexCell divider.child promoted)
          let swapped := PageBody.indexInterior (cells.set slot replacement) rightChild
          raiseIf (pageSize < swapped.usedBytes) (.pageFull
            ("cannot delete this index divider: its replacement key is longer and page " ++
              s!"{pageId} has no room -- needs interior rebalancing, unimplemented"))
          writeBody pageId swapped
          let remaining := leaf.eraseIdx leafSlot
          writeBody leafPageId (.indexLeaf remaining)
          if divider.key.overflow ≠ 0 then freeOverflowChain divider.key.overflow
          if remaining = [] then rebalanceMoves root ((leafPageId, leafSlot) :: above)
          else return []

/-- `IndexBTree.delete` with the moves it ends in. -/
def deleteMoves (root : Nat) (values : List Value) (rowid : Int) :
    StoreM (Bool × List RebalanceMove) := do
  match ← locate root (values ++ [.int rowid]) with
  | (none, _) => return (false, [])
  | (some path, false) =>
      let moves ← replaceDividerMoves root path
      return (true, moves)
  | (some [], true) => raise (.indexError "list index out of range")
  | (some ((leafPageId, leafSlot) :: ancestors), true) =>
      let cells ← indexLeafCells leafPageId
      let cell ← lift (cellAt cells leafSlot)
      let remaining := cells.eraseIdx leafSlot
      writeBody leafPageId (.indexLeaf remaining)
      if cell.overflow ≠ 0 then freeOverflowChain cell.overflow
      let moves ← if remaining = [] then rebalanceMoves root ((leafPageId, leafSlot) :: ancestors)
        else pure []
      return (true, moves)

/-! ## Without the log -/

/-- A guarded first part returns nothing that the log could change. -/
theorem map_guard {α β : Type} {c : Prop} [Decidable c] {m : StoreM Unit} {rest : StoreM α}
    {rest' : StoreM β} {f : α → β} (h : f <$> rest = rest') :
    f <$> (if c then m >>= fun _ => rest else rest) = if c then m >>= fun _ => rest' else rest' := by
  split
  · rw [map_bind, h]
  · exact h

theorem map_rebalanceMoves (root : Nat) (path : List (Nat × Nat)) :
    (fun _ => ()) <$> rebalanceMoves root path = rebalance root path := by
  induction path with
  | nil => rfl
  | cons page above ih =>
      obtain ⟨pageId, slot⟩ := page
      rw [rebalanceMoves, rebalance, map_bind]
      refine bind_congr fun body => ?_
      cases above with
      | nil =>
          simp only
          split
          · simp only [map_bind, map_pure, bind_pure_unit]
          · rfl
      | cons parent ancestors =>
          obtain ⟨parentPageId, childSlot⟩ := parent
          simp only [map_bind]
          refine bind_congr fun interior => ?_
          split
          · rfl
          · simp only [map_bind]
            refine bind_congr fun siblingId => bind_congr fun divider => bind_congr fun sibling =>
              bind_congr fun merged => ?_
            split
            · simp only [map_bind]
              refine bind_congr fun _ => bind_congr fun _ => bind_congr fun _ => ?_
              split
              · rw [← ih]
                simp only [bind_pure_comp, Functor.map_map]
              · rfl
            · split
              · simp only [map_bind, map_pure, bind_pure_unit]
              · rfl

theorem map_replaceDividerMoves (root : Nat) (path : List (Nat × Nat)) :
    (fun _ => ()) <$> replaceDividerMoves root path = replaceDividerWithPredecessor root path := by
  cases path with
  | nil => rfl
  | cons page ancestors =>
      obtain ⟨pageId, slot⟩ := page
      rw [replaceDividerMoves, replaceDividerWithPredecessor, map_bind]
      refine bind_congr fun interior => ?_
      simp only [map_bind]
      refine bind_congr fun divider => bind_congr fun down => ?_
      cases down with
      | nil => rfl
      | cons leaf above =>
          obtain ⟨leafPageId, leafSlot⟩ := leaf
          simp only [map_bind]
          refine bind_congr fun cells => bind_congr fun _ => bind_congr fun promoted =>
            bind_congr fun replacement => bind_congr fun _ => bind_congr fun _ =>
              bind_congr fun _ => map_guard ?_
          split
          · exact map_rebalanceMoves _ _
          · rfl

/-- The moves of `deleteMoves` are a log of what `delete` does. -/
theorem map_deleteMoves (root : Nat) (values : List Value) (rowid : Int) :
    Prod.fst <$> deleteMoves root values rowid = delete root values rowid := by
  rw [deleteMoves, delete, map_bind]
  refine bind_congr fun located => ?_
  match located with
  | (none, _) => rfl
  | (some path, false) =>
      simp only [← map_replaceDividerMoves, map_bind, map_pure, bind_map_left]
  | (some [], true) => rfl
  | (some ((leafPageId, leafSlot) :: ancestors), true) =>
      simp only [map_bind]
      refine bind_congr fun cells => bind_congr fun cell => bind_congr fun _ => map_guard ?_
      split
      · simp only [← map_rebalanceMoves, map_bind, bind_map_left, map_pure]
      · rfl

end IndexBTree

/-- The moves from an emptied page `depth` levels below the root: merges up to the
page that keeps a cell, up to a rotation, or up to the root. -/
inductive RebalanceMove.Settle : Nat → List RebalanceMove → Prop where
  | keepRoot : Settle 0 [.keepRoot]
  | pullUp : Settle 0 [.pullUp]
  | rotate (depth : Nat) : Settle (depth + 1) [.rotate]
  | merge (depth : Nat) : Settle (depth + 1) [.merge]
  | cascade {depth : Nat} {moves : List RebalanceMove} (above : Settle depth moves) :
      Settle (depth + 1) (.merge :: moves)

end QuillDb
