/-
  BTree/IndexAtomic.lean --- deletions that raise.

  Source: `IndexBTree.delete` of `quilldb/btree/index.py`.

  `_replace_divider_with_predecessor` looks for room before it writes; a rotation
  of `_rebalance` does not.
-/
import QuillDb.BTree.IndexRun
import QuillDb.BTree.IndexScan

set_option autoImplicit false

namespace QuillDb

open Prog PageStore PageTree

/-- A deletion that raises leaves what a scan lists and every page of the tree as
they were. -/
def DeleteAtomic (s : PageStore) (root : Nat) {H : Nat} (T : IndexTree H) (values : List Value)
    (rowid : Int) : Prop :=
  ∀ e s', IndexBTree.delete root values rowid s = (.error e, s') →
    (IndexBTree.scan root s').1 = (IndexBTree.scan root s).1 ∧
      ∀ p ∈ T.image, s'.pages p.1 = s.pages p.1

section Atomic

variable {s s' : PageStore} {root : Nat} {others : Image} {H : Nat} {T : IndexTree H}

/-- A page that was robbed is not what it was. -/
theorem not_robbed (ht : IndexStored s root others T)
    (hsame : ∀ p ∈ T.image, s'.pages p.1 = s.pages p.1) : ¬ Robbed T.image s' := by
  rintro ⟨i, b, b', hmem, hpage, hlt⟩
  have hold : s.pages i = .body b := ht.live.holds _ (List.mem_append_left _ hmem)
  have hnew : s'.pages i = s.pages i := hsame _ hmem
  rw [hpage, hold] at hnew
  obtain rfl := PageContent.body.inj hnew
  exact Nat.lt_irrefl _ hlt

/-- In a stored tree, a deletion is atomic exactly if it finds room for what it moves. -/
theorem delete_atomic_iff (ht : IndexStored s root others T) (values : List Value) (rowid : Int) :
    DeleteAtomic s root T values rowid ↔ deletionFits (values ++ [.int rowid]) T = true := by
  have hpost := delete_index ht values rowid
  constructor
  · intro hatomic
    rcases hrun : IndexBTree.delete root values rowid s with ⟨e | found, s'⟩
    · rcases hpost.error hrun with ⟨hfits, -⟩ | ⟨-, hrobbed⟩
      · exact hfits
      · exact absurd hrobbed (not_robbed ht (hatomic e s' hrun).2)
    · exact (hpost.ok hrun).1
  · intro hfits e s' hrun
    rcases hpost.error hrun with ⟨-, rfl⟩ | ⟨hnot, -⟩
    · exact ⟨rfl, fun _ _ => rfl⟩
    · rw [hfits] at hnot
      cases hnot

end Atomic

/-! ## A rotation without room -/

/-- A key of `size + 2` bytes. -/
def longKey (group index : UInt8) (size : Nat) : List Value :=
  [.blob (group :: index :: List.replicate size 0)]

def insertKeys (group : UInt8) (indices : List UInt8) (size : Nat) : List IndexCall :=
  indices.map fun i => .insert (longKey group i size) 1

/-- The root page ends up with dividers of 91, 20 and four times 987 bytes.  Left of
the first one lies a leaf with one entry, right of it a full leaf. -/
def crowdedRoot : List IndexCall :=
  insertKeys 1 [0, 1, 2, 3] 975 ++ insertKeys 1 [9] 80 ++ insertKeys 2 [0, 1, 2, 3] 994 ++
    insertKeys 2 [9] 10 ++ insertKeys 3 [0, 1, 2, 3] 975 ++ insertKeys 4 [0, 1, 2, 3] 975 ++
      insertKeys 5 [0, 1, 2, 3] 975 ++ insertKeys 6 [0, 1, 2, 3] 975 ++ insertKeys 7 [0] 975 ++
        [0, 1, 2].map fun i => .delete (longKey 1 i 975) 1

/-- After the calls, all of which return, a deletion raises and the scan has changed. -/
def tears (calls : List IndexCall) (values : List Value) (rowid : Int) : Bool :=
  match runIndexCalls 2 calls emptyIndex with
  | (.ok _, s) =>
      match IndexBTree.delete 2 values rowid s with
      | (.error _, s') => (IndexBTree.scan 2 s').1 ≠ (IndexBTree.scan 2 s).1
      | (.ok _, _) => false
  | (.error _, _) => false

/-- A deletion that returns has nothing to put back. -/
theorem atomic_of_returns {s : PageStore} {root H : Nat} {T : IndexTree H} {values : List Value}
    {rowid : Int} {found : Bool} (h : (IndexBTree.delete root values rowid s).1 = .ok found) :
    DeleteAtomic s root T values rowid := by
  intro e s' hrun
  rw [hrun] at h
  cases h

theorem not_atomic_of_tears {calls : List IndexCall} {values : List Value} {rowid : Int}
    (h : tears calls values rowid = true) :
    ∃ answers s, runIndexCalls 2 calls emptyIndex = (.ok answers, s) ∧
      ∀ (H : Nat) (T : IndexTree H), ¬ DeleteAtomic s 2 T values rowid := by
  unfold tears at h
  split at h
  · rename_i answers s hrun
    refine ⟨answers, s, hrun, fun H T hatomic => ?_⟩
    split at h
    · rename_i e s' hdelete
      exact of_decide_eq_true h (hatomic e s' hdelete).1
    · cases h
  · cases h

/-- There the deletion of the last entry of the first leaf finds no room; that of an
entry of the leaf beside it does, and takes the entry. -/
theorem delete_atomic_crowded : ∃ (H : Nat) (T : IndexTree H),
    IndexStored ((runIndexCalls 2 crowdedRoot).exec emptyIndex) 2 [] T ∧
      deletionFits (longKey 1 3 975 ++ [.int 1]) T = false ∧
      deletionFits (longKey 2 0 994 ++ [.int 1]) T = true := by
  obtain ⟨s, hs⟩ : ∃ s, s = (runIndexCalls 2 crowdedRoot).exec emptyIndex := ⟨_, rfl⟩
  have hrun : runIndexCalls 2 crowdedRoot emptyIndex = (.ok (List.replicate 30 true), s) :=
    hs ▸ apply_eq (by decide +kernel)
  have hunsorted : SortedIf (fun _ => False) (LevelTree.entries (.leaf ⟨2, []⟩)) :=
    fun _ hn => hn.elim
  obtain ⟨H, T, ht, -⟩ := (indexStored_empty (by decide) emptyIndex_live).afterCalls hunsorted
    (fun _ hn => hn.elim) hrun
  refine ⟨H, T, hs ▸ ht, ?_, ?_⟩
  · have htears : tears crowdedRoot (longKey 1 3 975) 1 = true := by decide +kernel
    obtain ⟨answers, s', hrun', hnot⟩ := not_atomic_of_tears htears
    obtain rfl : s' = s := congrArg Prod.snd (hrun'.symm.trans hrun)
    exact Bool.eq_false_iff.mpr fun hfits => hnot H T ((delete_atomic_iff ht _ _).mpr hfits)
  · have htaken : (IndexBTree.delete 2 (longKey 2 0 994) 1 s).1 = .ok true := by
      rw [hs]
      decide +kernel
    exact (delete_atomic_iff ht _ _).mp (atomic_of_returns htaken)

/-- The borrowed entry is longer than the divider it would replace, and is lost. -/
theorem delete_not_atomic : ∃ answers s, runIndexCalls 2 crowdedRoot emptyIndex = (.ok answers, s) ∧
    ∀ (H : Nat) (T : IndexTree H), ¬ DeleteAtomic s 2 T (longKey 1 3 975) 1 :=
  not_atomic_of_tears (by decide +kernel)

end QuillDb
