/-
  BTree/ScanReverse.lean --- an index tree listed from both ends.

  Source: `IndexBTree.scan` and `scan_reverse` of `quilldb/btree/index.py`.

  Both generators cut the rowid off each stored key before they yield it.
-/
import QuillDb.BTree.IndexRun
import QuillDb.BTree.Seek

set_option autoImplicit false

namespace QuillDb

open Prog PageStore PageTree

namespace IndexBTree

/-- What the scans yield for a key: `stored[:-1]` and `_rowid_of(stored)`. -/
def yielded (stored : List Value) : Except DbError (List Value × Value) :=
  match stored.getLast? with
  | some rowid => .ok (stored.dropLast, rowid)
  | none => .error (.indexError "tuple index out of range")

/-- `list(scan())`. -/
def scanList (root : Nat) : StoreM (List (List Value × Value)) := do
  let stored ← scan root
  lift (stored.mapM yielded)

/-- `list(scan_reverse())`; `_descend_rightmost` is `_rightmost_leaf_path`. -/
def scanReverseList (root : Nat) : StoreM (List (List Value × Value)) := do
  let path ← rightmostLeafPath [] root
  let s ← state
  let stored ← scanBackwardFrom (s.pageCount + 1) path
  lift (stored.mapM yielded)

end IndexBTree

/-! ## Lists of keys -/

section Lists

variable {ε α β : Type} {f : α → Except ε β} {e : ε}

theorem mapM_error (hf : ∀ a e', f a = .error e' → e' = e) {xs : List α} {e' : ε}
    (h : xs.mapM f = .error e') : e' = e := by
  induction xs with
  | nil => cases h
  | cons x xs ih =>
      rw [List.mapM_cons] at h
      cases hx : f x with
      | error e₁ =>
          rw [hx] at h
          obtain rfl : e₁ = e' := Except.error.inj h
          exact hf x e₁ hx
      | ok y =>
          cases hxs : xs.mapM f with
          | error e₂ =>
              rw [hx, hxs] at h
              obtain rfl : e₂ = e' := Except.error.inj h
              exact ih hxs
          | ok ys =>
              rw [hx, hxs] at h
              cases h

/-- Where all failures are the same, a list may be mapped from either end. -/
theorem mapM_reverse (hf : ∀ a e', f a = .error e' → e' = e) (xs : List α) :
    xs.reverse.mapM f = (xs.mapM f).map List.reverse := by
  induction xs with
  | nil => rfl
  | cons x xs ih =>
      rw [List.reverse_cons, List.mapM_append, ih, List.mapM_cons, List.mapM_cons, List.mapM_nil]
      cases hx : f x with
      | ok y =>
          cases xs.mapM f with
          | ok ys => exact congrArg Except.ok (@List.reverse_cons _ y ys).symm
          | error e' => rfl
      | error e' =>
          cases hxs : xs.mapM f with
          | ok ys => rfl
          | error e'' =>
              obtain rfl := hf x e' hx
              exact congrArg Except.error (mapM_error hf hxs)

end Lists

theorem yielded_error {stored : List Value} {e : DbError} (h : IndexBTree.yielded stored = .error e) :
    e = .indexError "tuple index out of range" := by
  unfold IndexBTree.yielded at h
  split at h
  · cases h
  · exact (Except.error.inj h).symm

theorem yielded_of_ne_nil {stored : List Value} (h : stored ≠ []) :
    IndexBTree.yielded stored = .ok (stored.dropLast, stored.getLast h) := by
  rw [IndexBTree.yielded, List.getLast?_eq_some_getLast h]

/-! ## Both lists -/

section Stored

variable {s : PageStore} {root : Nat} {others : Image} {H : Nat} {T : IndexTree H}

theorem scanList_live (ht : IndexStored s root others T) :
    IndexBTree.scanList root s = ((T.entries.map Entry.key).mapM IndexBTree.yielded, s) := by
  rw [IndexBTree.scanList, bind_of_ok (scan_live ht), lift_apply]

theorem scanReverseList_live (ht : IndexStored s root others T) :
    IndexBTree.scanReverseList root s =
      ((T.entries.map Entry.key).reverse.mapM IndexBTree.yielded, s) := by
  obtain ⟨path, hlast, hscan⟩ := scanBackward_live ht
  rw [IndexBTree.scanReverseList, bind_of_ok hlast, bind_of_ok (state_apply s), bind_of_ok hscan,
    lift_apply]

/-- An entry of a leaf, or a divider of an interior page. -/
inductive StoredIn (T : IndexTree H) (e : Entry) : Prop
  | leaf {c : Ctx Entry Entry 0} {l : Leaf Entry} (hplug : c.plug (.leaf l) = ⟨H, T⟩)
      (he : e ∈ l.items)
  | interior {h : Nat} {c : Ctx Entry Entry (h + 1)} {n : Node Entry (IndexTree h)}
      (hplug : c.plug (.node n) = ⟨H, T⟩) (he : e ∈ n.dividers)

theorem StoredIn.mem {e : Entry} (h : StoredIn T e) : e ∈ T.entries := by
  cases h with
  | leaf hplug he => exact (sublist_of_plug hplug).subset he
  | interior hplug he => exact (sublist_of_plug hplug).subset (dividers_subset _ he)

/-- Where each key ends in a rowid, the list has them all. -/
theorem scanList_ok (ht : IndexStored s root others T) (hkeys : ∀ e ∈ T.entries, e.key ≠ []) :
    ∃ rows, IndexBTree.scanList root s = (.ok rows, s) ∧
      rows.map (fun row => row.1 ++ [row.2]) = T.entries.map Entry.key := by
  rw [scanList_live ht]
  generalize T.entries = es at hkeys
  induction es with
  | nil => exact ⟨[], rfl, rfl⟩
  | cons e es ih =>
      obtain ⟨rows, hrows, hmap⟩ := ih fun e he => hkeys e (List.mem_cons_of_mem _ he)
      have hkey := yielded_of_ne_nil (hkeys e (List.mem_cons_self ..))
      have hrows : (es.map Entry.key).mapM IndexBTree.yielded = .ok rows := congrArg Prod.fst hrows
      refine ⟨(e.key.dropLast, e.key.getLast (hkeys e (List.mem_cons_self ..))) :: rows, ?_, ?_⟩
      · rw [List.map_cons, List.mapM_cons, hkey, hrows]
        rfl
      · rw [List.map_cons, List.map_cons, hmap, List.dropLast_append_getLast]

/-- The list of a backward scan is that of a forward scan turned round.  Where each key
ends in a rowid both are whole, with every entry of every leaf and every interior page. -/
theorem scan_reverse_eq_reverse_scan (s : PageStore) (root : Nat) (others : Image) (H : Nat)
    (T : IndexTree H) (ht : IndexStored s root others T) :
    IndexBTree.scanReverseList root s = ((IndexBTree.scanList root s).1.map List.reverse, s) ∧
      ((∀ e ∈ T.entries, e.key ≠ []) → ∃ rows, IndexBTree.scanList root s = (.ok rows, s) ∧
        ∀ e, StoredIn T e → ∃ row ∈ rows, row.1 ++ [row.2] = e.key) := by
  refine ⟨?_, fun hkeys => ?_⟩
  · rw [scanReverseList_live ht, scanList_live ht, mapM_reverse fun _ _ he => yielded_error he]
  · obtain ⟨rows, hrows, hmap⟩ := scanList_ok ht hkeys
    refine ⟨rows, hrows, fun e he => ?_⟩
    have hkey : e.key ∈ T.entries.map Entry.key := List.mem_map_of_mem he.mem
    rw [← hmap] at hkey
    exact List.mem_map.mp hkey

end Stored

/-! ## Two leaves and a divider -/

theorem chain_length_local {data : Bytes} (hlocal : spilledPart .leafIndex data = []) :
    ([] : List Nat).length = chainLength (spilledPart .leafIndex data).length := by
  rw [hlocal]
  rfl

theorem chain_pos_local : 0 ∉ ([] : List Nat) := List.not_mem_nil

/-- An entry that is whole on its page. -/
def localEntry (data : Bytes) (key : List Value) (hdecode : decodeRecord data 0 = .ok key)
    (hlocal : spilledPart .leafIndex data = []) : Entry where
  key := key
  stored :=
    { data := data
      chain := []
      chain_length := chain_length_local hlocal
      chain_pos := chain_pos_local }
  decodes := hdecode

/-- The rowids 0, 1 and 5, the second of them in the root page. -/
def dividedTree : IndexTree 1 :=
  .node ⟨2, [(.leaf ⟨3, [localEntry [2, 8] [.int 0] rfl rfl]⟩, localEntry [2, 9] [.int 1] rfl rfl)],
    .leaf ⟨4, [localEntry [2, 1, 5] [.int 5] rfl rfl]⟩⟩

/-- A database with that tree only. -/
def dividedIndex : PageStore where
  pageCount := 4
  freelistTrunk := 0
  freelistCount := 0
  pages id := ((dividedTree.image.find? fun p => p.1 = id).map Prod.snd).getD (.link 0 [])

theorem dividedIndex_stored : IndexStored dividedIndex 2 [] dividedTree where
  root := rfl
  filled := .inr (by decide)
  small := by decide
  live :=
    { free := ⟨[], [], rfl, Nat.two_pow_pos 32, by decide⟩
      holds := by decide
      fits := by decide }

theorem scan_reverse_eq_reverse_scan_divided :
    IndexBTree.scanReverseList 2 dividedIndex =
      ((IndexBTree.scanList 2 dividedIndex).1.map List.reverse, dividedIndex) ∧
        ∃ rows, IndexBTree.scanList 2 dividedIndex = (.ok rows, dividedIndex) ∧
          ∀ e, StoredIn dividedTree e → ∃ row ∈ rows, row.1 ++ [row.2] = e.key := by
  obtain ⟨hreverse, hrows⟩ :=
    scan_reverse_eq_reverse_scan dividedIndex 2 [] 1 dividedTree dividedIndex_stored
  exact ⟨hreverse, hrows (by decide)⟩

end QuillDb
