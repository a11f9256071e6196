/-
  BTree/Seek.lean --- seeks in an index tree.

  Source: `IndexBTree.seek_eq`, `seek_range`, `scan_reverse` and `_scan_backward` of
  `quilldb/btree/index.py`.

  The generators are drained.  A seek walks forward from the first key at or behind
  its probe; over keys in index order what it yields is a filter of all of them.
-/
import QuillDb.BTree.IndexScan

set_option autoImplicit false

namespace QuillDb

open Prog PageStore PageTree

/-! ## The source -/

/-- `_rowid_of`: the last column, which is an int. -/
def rowidOf (key : List Value) : Int :=
  match key.getLast? with
  | some (.int rowid) => rowid
  | _ => 0

namespace IndexBTree

/-- `_scan_forward` from a path. -/
def scanForward (path : List (Nat × Nat)) : StoreM (List (List Value)) := do
  let s ← state
  scanForwardFrom (s.pageCount + 1) path

/-- `seek_eq`. -/
def seekEq (root : Nat) (values : List Value) : StoreM (List Int) := do
  let path ← findLeaf root values
  let stored ← scanForward path
  return (stored.takeWhile fun key => compareKeys values key = .eq).map rowidOf

/-- `find_conflict`: NULL never conflicts. -/
def findConflict (root : Nat) (values : List Value) : StoreM (Option Int) := do
  if Value.null ∈ values then return none
  else
    let rowids ← seekEq root values
    return rowids.head?

/-- The loop of `seek_range`. -/
def seekRangeLoop (low high : Option (List Value)) (lowInclusive highInclusive : Bool) :
    List (List Value) → List Int
  | [] => []
  | stored :: rest =>
      if low.any fun probe => !lowInclusive && compareKeys probe stored = .eq then
        seekRangeLoop low high lowInclusive highInclusive rest
      else if high.any fun probe => compareKeys probe stored = .lt ||
          (compareKeys probe stored = .eq && !highInclusive) then []
      else rowidOf stored :: seekRangeLoop low high lowInclusive highInclusive rest

/-- `seek_range`. -/
def seekRange (root : Nat) (low high : Option (List Value)) (lowInclusive highInclusive : Bool) :
    StoreM (List Int) := do
  let path ← (match low with
    | some probe => findLeaf root probe
    | none => descendLeftmost [] root : StoreM (List (Nat × Nat)))
  let stored ← scanForward path
  return seekRangeLoop low high lowInclusive highInclusive stored

/-- The ascent of `_scan_backward`: the first divider to the left of the path, and the
path to the leaf before it. -/
def ascendBackward : List (Nat × Nat) → StoreM (Option (List Value × List (Nat × Nat)))
  | [] => return none
  | (pageId, slot) :: above => do
      let (cells, rightChild) ← indexInteriorCells pageId
      if slot = 0 then ascendBackward above
      else
        let cell ← lift (cellAt cells (slot - 1))
        let separator ← decodeKey cell.key
        let nextChild ← lift (childAt (childrenOfInterior cells rightChild) (slot - 1))
        let path ← rightmostLeafPath ((pageId, slot - 1) :: above) nextChild
        return some (separator, path)

/-- `_scan_backward`. -/
def scanBackwardFrom : Nat → List (Nat × Nat) → StoreM (List (List Value))
  | _, [] => return []
  | 0, _ => raise (.btreeInvariant "the scan does not end")
  | fuel + 1, (leafPageId, leafSlot) :: above => do
      let cells ← indexLeafCells leafPageId
      let keys ← decodeKeys (cells.take (leafSlot + 1))
      match ← ascendBackward above with
      | none => return keys.reverse
      | some (separator, path) =>
          let rest ← scanBackwardFrom fuel path
          return keys.reverse ++ separator :: rest

/-- The rowids of `scan_reverse`; `_descend_rightmost` is `_rightmost_leaf_path`. -/
def scanReverse (root : Nat) : StoreM (List Int) := do
  let path ← rightmostLeafPath [] root
  let s ← state
  let stored ← scanBackwardFrom (s.pageCount + 1) path
  return stored.map rowidOf

end IndexBTree

/-! ## Lists in order -/

section Lists

variable {α β : Type} {xs : List α}

/-- Of what holds up to some point, everything is taken. -/
theorem takeWhile_eq_filter {p : α → Bool} (h : xs.Pairwise fun a b => p b = true → p a = true) :
    xs.takeWhile p = xs.filter p := by
  induction xs with
  | nil => rfl
  | cons x xs ih =>
      obtain ⟨hx, hxs⟩ := List.pairwise_cons.mp h
      by_cases hp : p x = true
      · rw [List.takeWhile_cons_of_pos hp, List.filter_cons_of_pos hp, ih hxs]
      · rw [List.takeWhile_cons_of_neg hp, List.filter_cons_of_neg hp]
        refine (List.filter_eq_nil_iff.mpr fun a ha hpa => hp (hx a ha hpa)).symm

end Lists

/-- Keys in index order. -/
def KeysOrdered (keys : List (List Value)) : Prop := keys.Pairwise fun a b => compareKeys a b ≠ .gt

/-- The probe has no more columns than any key. -/
def Covers (keys : List (List Value)) (probe : List Value) : Prop :=
  ∀ key ∈ keys, probe.length ≤ key.length

section Probe

variable {keys : List (List Value)} {probe : List Value}

/-- From where on a probe is below the keys. -/
theorem KeysOrdered.lt_monotone (h : KeysOrdered keys) (hprobe : Covers keys probe) :
    keys.Pairwise fun a b => compareKeys probe a = .lt → compareKeys probe b = .lt :=
  h.imp_of_mem fun ha hb hab => (compareKeys_trans (hprobe _ ha) (hprobe _ hb) hab).1

/-- From where on it is not above them. -/
theorem KeysOrdered.le_monotone (h : KeysOrdered keys) (hprobe : Covers keys probe) :
    keys.Pairwise fun a b => compareKeys probe a ≠ .gt → compareKeys probe b ≠ .gt := by
  refine h.imp_of_mem fun {a b} ha hb hab hle => ?_
  obtain ⟨hlt, heq⟩ := compareKeys_trans (hprobe _ ha) (hprobe _ hb) hab
  cases hcmp : compareKeys probe a with
  | lt =>
      rw [hlt hcmp]
      decide
  | eq => exact heq hcmp
  | gt => exact absurd hcmp hle

/-- The keys that a high probe leaves. -/
def belowHigh (high : Option (List Value)) (highInclusive : Bool) (key : List Value) : Bool :=
  high.all fun probe => compareKeys probe key = .gt || (compareKeys probe key = .eq && highInclusive)

/-- The keys that a low probe leaves. -/
def aboveLow (low : Option (List Value)) (lowInclusive : Bool) (key : List Value) : Bool :=
  low.all fun probe => compareKeys probe key = .lt || (compareKeys probe key = .eq && lowInclusive)

/-- A key that the high probe does not leave ends the walk: it leaves none behind it. -/
theorem belowHigh_antitone {high : Option (List Value)} (hordered : KeysOrdered keys)
    (hhigh : ∀ probe ∈ high, Covers keys probe) (highInclusive : Bool) :
    keys.Pairwise fun a b => belowHigh high highInclusive b = true →
      belowHigh high highInclusive a = true := by
  cases high with
  | none => exact List.pairwise_of_forall fun _ _ _ => rfl
  | some probe =>
      have hprobe := hhigh probe rfl
      refine ((hordered.lt_monotone hprobe).and (hordered.le_monotone hprobe)).imp ?_
      rintro a b ⟨hlt, hle⟩ hb
      unfold belowHigh at hb ⊢
      rw [Option.all_some] at hb ⊢
      cases hcmp : compareKeys probe a with
      | gt => rfl
      | lt =>
          rw [hlt hcmp] at hb
          cases hb
      | eq =>
          have hb' := hle (by rw [hcmp]; decide)
          cases hcmp' : compareKeys probe b with
          | gt => exact absurd hcmp' hb'
          | lt =>
              rw [hcmp'] at hb
              cases hb
          | eq =>
              rw [hcmp'] at hb
              exact hb

theorem seekRangeLoop_eq {low high : Option (List Value)} {lowInclusive highInclusive : Bool}
    (hordered : KeysOrdered keys) (hhigh : ∀ probe ∈ high, Covers keys probe)
    (hlow : ∀ probe ∈ low, ∀ key ∈ keys, compareKeys probe key ≠ .gt) :
    IndexBTree.seekRangeLoop low high lowInclusive highInclusive keys =
      (keys.filter fun key => aboveLow low lowInclusive key && belowHigh high highInclusive key).map
        rowidOf := by
  have hbelow := belowHigh_antitone hordered hhigh highInclusive
  clear hhigh hordered
  induction keys with
  | nil => rfl
  | cons key rest ih =>
      obtain ⟨hkey, hbelow⟩ := List.pairwise_cons.mp hbelow
      have hrest := ih (fun probe hp key hkey => hlow probe hp key (List.mem_cons_of_mem _ hkey)) hbelow
      have hskip : (low.any fun probe => !lowInclusive && compareKeys probe key = .eq) =
          !aboveLow low lowInclusive key := by
        cases low with
        | none => rfl
        | some probe =>
            have hle := hlow probe rfl key (List.mem_cons_self ..)
            rw [aboveLow, Option.any_some, Option.all_some]
            cases hcmp : compareKeys probe key with
            | gt => exact absurd hcmp hle
            | lt => cases lowInclusive <;> rfl
            | eq => cases lowInclusive <;> rfl
      have hstop : (high.any fun probe => compareKeys probe key = .lt ||
          (compareKeys probe key = .eq && !highInclusive)) = !belowHigh high highInclusive key := by
        cases high with
        | none => rfl
        | some probe =>
            rw [belowHigh, Option.any_some, Option.all_some]
            cases compareKeys probe key <;> cases highInclusive <;> rfl
      rw [IndexBTree.seekRangeLoop, hskip, hstop, List.filter_cons]
      cases habove : aboveLow low lowInclusive key with
      | false => exact hrest
      | true =>
          cases hin : belowHigh high highInclusive key with
          | true =>
              rw [if_neg (by decide), if_neg (by decide), if_pos (by decide), List.map_cons, hrest]
          | false =>
              have hnone : rest.filter (fun key => aboveLow low lowInclusive key &&
                  belowHigh high highInclusive key) = [] := by
                refine List.filter_eq_nil_iff.mpr fun b hb hboth => ?_
                rw [hkey b hb (Bool.and_eq_true_iff.mp hboth).2] at hin
                cases hin
              rw [if_neg (by decide), if_pos (by decide), if_neg (by decide), hnone, List.map_nil]

end Probe

/-! ## Seeks in a stored tree -/

section Stored

variable {s : PageStore} {root : Nat} {others : Image} {H : Nat} {T : IndexTree H}

theorem scanForward_live (ht : IndexStored s root others T) {c : Ctx Entry Entry 0} {l : Leaf Entry}
    (hplug : c.plug (.leaf l) = ⟨H, T⟩) (slot : Nat) :
    IndexBTree.scanForward ((l.id, slot) :: c.path) s =
      (.ok ((l.items.drop slot ++ c.entriesAfter).map Entry.key), s) := by
  have hleaves := Ctx.walk_of_plug hplug (fun items => [items]) fun _ => []
  have hlen := T.leaves_length_le indexFormat.layout
  have hpages := ht.live.length_lt
  have hcount := congrArg List.length hleaves
  have hall : (T.walk (fun items => [items]) fun _ => []).length ≤ T.image.length := hlen
  rw [List.length_append, List.length_append] at hcount
  rw [List.length_append] at hpages
  rw [IndexBTree.scanForward, bind_of_ok (state_apply s)]
  exact scanForwardFrom_live ht hplug (by omega) slot

/-- The walk from where a descent for `probe` ends. -/
theorem seek_live (ht : IndexStored s root others T) {probe : List Value}
    (hordered : KeysOrdered (T.entries.map Entry.key))
    (hprobe : Covers (T.entries.map Entry.key) probe) :
    ∃ path, IndexBTree.findLeaf root probe s = (.ok path, s) ∧
      IndexBTree.scanForward path s = (.ok ((T.entries.map Entry.key).filter fun key =>
        compareKeys probe key ≠ .gt), s) := by
  obtain ⟨c, l, hr, hfind⟩ := findLeaf_index probe ht
  refine ⟨_, hfind, ?_⟩
  have hmono : Monotone (atOrAfter probe) T.entries := by
    refine (List.pairwise_map.mp (hordered.le_monotone hprobe)).imp fun hab hat => ?_
    rw [atOrAfter, decide_eq_true_eq] at hat ⊢
    exact hab hat
  obtain ⟨hbefore, hafter⟩ := hr.cuts hmono
  have hentries := entries_of_plug hr.plug
  have hleaf : LevelTree.entries (.leaf l) = l.items := rfl
  have hcut := entrySlot_spec (hmono.of_sublist (sublist_of_plug hr.plug))
  rw [hleaf] at hentries hcut
  obtain ⟨htake, hdrop⟩ := hcut
  have hitems : l.items = l.items.take (entrySlot probe l.items) ++
      l.items.drop (entrySlot probe l.items) := (List.take_append_drop _ _).symm
  have hfilter : T.entries.filter (atOrAfter probe) =
      l.items.drop (entrySlot probe l.items) ++ c.entriesAfter := by
    rw [hentries, List.filter_append, List.filter_append, List.filter_eq_self.mpr hafter,
      List.filter_eq_nil_iff.mpr fun e he => Bool.not_eq_true _ ▸ hbefore e he, List.nil_append]
    congr 1
    conv => lhs; rw [hitems]
    rw [List.filter_append, List.filter_eq_nil_iff.mpr fun e he => Bool.not_eq_true _ ▸ htake e he,
      List.nil_append, List.filter_eq_self.mpr hdrop]
  rw [scanForward_live ht hr.plug, ← hfilter, List.filter_map]
  rfl

/-- `seek_eq`: the rowids of the keys that begin with the probe, in order. -/
theorem seekEq_live (ht : IndexStored s root others T) {values : List Value}
    (hordered : KeysOrdered (T.entries.map Entry.key))
    (hprobe : Covers (T.entries.map Entry.key) values) :
    IndexBTree.seekEq root values s = (.ok (((T.entries.map Entry.key).filter fun key =>
      compareKeys values key = .eq).map rowidOf), s) := by
  obtain ⟨path, hfind, hscan⟩ := seek_live ht hordered hprobe
  rw [IndexBTree.seekEq, bind_of_ok hfind, bind_of_ok hscan, pure_apply]
  generalize T.entries.map Entry.key = keys at hordered hprobe
  have htake := @takeWhile_eq_filter _ (keys.filter fun key => compareKeys values key ≠ .gt)
    (fun key => decide (compareKeys values key = .eq)) (by
      refine ((hordered.lt_monotone hprobe).sublist (List.filter_sublist ..)).imp_of_mem
        fun {a b} ha _ hab hb => ?_
      rw [decide_eq_true_eq] at hb ⊢
      have hle := of_decide_eq_true (List.mem_filter.mp ha).2
      cases hcmp : compareKeys values a with
      | eq => rfl
      | gt => exact absurd hcmp hle
      | lt =>
          rw [hab hcmp] at hb
          cases hb)
  rw [htake, List.filter_filter]
  congr 3
  refine List.filter_congr fun key _ => ?_
  cases compareKeys values key <;> rfl

/-- `seek_range`: the rowids of the keys within the probes, in order. -/
theorem seekRange_live (ht : IndexStored s root others T) {low high : Option (List Value)}
    (hordered : KeysOrdered (T.entries.map Entry.key))
    (hlow : ∀ probe ∈ low, Covers (T.entries.map Entry.key) probe)
    (hhigh : ∀ probe ∈ high, Covers (T.entries.map Entry.key) probe) (lowInclusive highInclusive : Bool) :
    IndexBTree.seekRange root low high lowInclusive highInclusive s =
      (.ok (((T.entries.map Entry.key).filter fun key => aboveLow low lowInclusive key &&
        belowHigh high highInclusive key).map rowidOf), s) := by
  cases low with
  | none =>
      have hfirst := descendLeftmost_live ht.live (t := T) .root (List.subset_append_left _ _)
        ht.height_lt
      have hafter := Ctx.after_first (fun items => items) (fun d => [d]) .root T
      have hscan := scanForward_live ht (Ctx.plug_first (.root : Ctx Entry Entry H) T) 0
      rw [Ctx.after, List.append_nil] at hafter
      rw [Ctx.path_root, ht.root] at hfirst
      rw [List.drop_zero, Ctx.entriesAfter, hafter] at hscan
      rw [IndexBTree.seekRange, bind_of_ok hfirst, bind_of_ok hscan, pure_apply]
      exact congrArg (fun rowids => (Except.ok rowids, s))
        (seekRangeLoop_eq hordered hhigh fun probe hp => by cases hp)
  | some probe =>
      obtain ⟨path, hfind, hscan⟩ := seek_live ht hordered (hlow probe rfl)
      rw [IndexBTree.seekRange, bind_of_ok hfind, bind_of_ok hscan, pure_apply]
      generalize T.entries.map Entry.key = keys at hordered hlow hhigh
      rw [seekRangeLoop_eq (hordered.sublist (List.filter_sublist ..))
        (fun p hp key hkey => hhigh p hp key (List.mem_filter.mp hkey).1) (fun p hp key hkey => by
          obtain rfl := Option.some.inj hp
          exact of_decide_eq_true (List.mem_filter.mp hkey).2), List.filter_filter]
      congr 3
      refine List.filter_congr fun key _ => ?_
      rw [aboveLow, Option.all_some]
      cases compareKeys probe key <;> simp

/-! ## The backward scan -/

/-- `ascendBackward` goes to the context before. -/
theorem ascendBackward_live (ht : IndexStored s root others T) {h : Nat} {t : IndexTree h}
    {c : Ctx Entry Entry h} (hplug : c.plug t = ⟨H, T⟩) : IndexBTree.ascendBackward c.path s =
      (.ok ((c.prev t).map fun p =>
        (p.1.key, (p.2.2.id, p.2.2.items.length - 1) :: p.2.1.path)), s) := by
  induction c with
  | root => rw [Ctx.path_root, IndexBTree.ascendBackward, Ctx.prev, pure_apply, Option.map_none]
  | inside f up ih =>
      have hnode : up.plug (.node (f.fill t)) = ⟨H, T⟩ := hplug
      have hsub : IndexTree.image (.node (f.fill t)) ⊆ T.image := fun p hp =>
        (Ctx.image_of_plug hnode indexFormat.layout).mem_iff.mpr (List.mem_append_right _ hp)
      have hread := readBody_indexNode ht.live fun p hp => List.mem_append_left _ (hsub hp)
      have hcells : indexInteriorCells f.id s = (.ok
          (((f.fill t).map LevelTree.id).kids.map indexFormat.cell,
            ((f.fill t).map LevelTree.id).last), s) := indexInteriorCells_of_read hread
      rw [Ctx.path, IndexBTree.ascendBackward, bind_of_ok hcells]
      simp only
      rcases hpre : f.pre.getLast? with _ | ⟨left, d⟩
      · rw [List.getLast?_eq_none_iff] at hpre
        have hzero : f.pre.length = 0 := hpre ▸ rfl
        rw [if_pos hzero, Ctx.prev, List.getLast?_eq_none_iff.mpr hpre]
        exact ih hnode
      · have hcut : f.pre = f.pre.dropLast ++ [(left, d)] := (List.dropLast_append_getLast? _ hpre).symm
        -- the node, seen from the child on the left
        have hfill := Ctx.fill_unsnoc f (t := t) hcut
        have hlen : f.pre.length = f.pre.dropLast.length + 1 := by
          conv => lhs; rw [hcut]
          rw [List.length_append, List.length_singleton]
        have hget : (((f.fill t).map LevelTree.id).kids.map indexFormat.cell)[f.pre.dropLast.length]? =
            some ⟨left.id, d.cell⟩ := by
          rw [← hfill]
          exact cellAt_split ⟨f.id, f.pre.dropLast, f.post⟩ d left t
        have hd : d ∈ T.entries := by
          refine (sublist_of_plug hnode).subset ?_
          rw [← hfill, entries_fill, Frame.entriesAfter, Frame.after, List.flatMap_cons]
          exact List.mem_append_right _ (List.mem_cons_self ..)
        have hleft : IndexTree.image left ⊆ T.image := fun p hp => by
          have hchild := indexImage_child ⟨f.id, f.pre.dropLast, (d, t) :: f.post⟩ left hp
          rw [hfill] at hchild
          exact hsub hchild
        have hchild : childAt ((f.fill t).children.map LevelTree.id) f.pre.dropLast.length = .ok left.id := by
          rw [← hfill]
          exact indexChildAt_fill ⟨f.id, f.pre.dropLast, (d, t) :: f.post⟩ left
        have hheight := ht.height_lt
        have hle := up.le_plug (.node (f.fill t))
        rw [hnode] at hle
        have hdown := rightmostLeafPath_live ht.live (Ctx.inside
          ⟨f.id, f.pre.dropLast, (d, t) :: f.post⟩ up)
          (fun p hp => List.mem_append_left _ (hleft hp)) (by
            have hle : _ + 1 ≤ H := hle
            omega)
        rw [Ctx.path] at hdown
        have hcell : lift (cellAt (((f.fill t).map LevelTree.id).kids.map indexFormat.cell)
            f.pre.dropLast.length) s = (.ok ⟨left.id, d.cell⟩, s) := by
          rw [lift_apply, cellAt, hget]
        rw [if_neg (by omega), hlen, Nat.add_sub_cancel, bind_of_ok hcell,
          bind_of_ok (ht.readable d hd), indexChildren_eq, hchild, bind_of_ok (lift_apply _ _),
          bind_of_ok hdown, Ctx.prev, hpre]
        rfl

/-- The rest of a backward scan, from the last slot of a leaf on. -/
theorem scanBackwardFrom_live (ht : IndexStored s root others T) {c : Ctx Entry Entry 0}
    {l : Leaf Entry} {fuel : Nat} (hplug : c.plug (.leaf l) = ⟨H, T⟩)
    (hfuel : (c.before (fun items => [items]) fun _ => []).length < fuel) :
    IndexBTree.scanBackwardFrom fuel ((l.id, l.items.length - 1) :: c.path) s =
      (.ok ((c.entriesBefore ++ l.items).map Entry.key).reverse, s) := by
  induction fuel generalizing c l with
  | zero => exact absurd hfuel (Nat.not_lt_zero _)
  | succ fuel ih =>
      have hmem : IndexTree.image (.leaf l) ⊆ T.image ++ others := fun p hp =>
        List.mem_append_left _ ((Ctx.image_of_plug hplug indexFormat.layout).mem_iff.mpr
          (List.mem_append_right _ hp))
      have hkeys := decodeKeys_live (ht.readable.subset fun e (he : e ∈ l.items) =>
        (sublist_of_plug hplug).subset he)
      have hall : (l.items.map Entry.cell).take (l.items.length - 1 + 1) = l.items.map Entry.cell :=
        List.take_of_length_le (by rw [List.length_map]; omega)
      rw [IndexBTree.scanBackwardFrom, bind_of_ok (indexLeafCells_live ht.live hmem), hall,
        bind_of_ok hkeys, bind_of_ok (ascendBackward_live ht hplug)]
      rcases hprev : c.prev (.leaf l) with _ | ⟨d, c', l'⟩
      · rw [Ctx.entriesBefore, Ctx.before_of_prev_none hprev, List.nil_append]
        rfl
      · obtain ⟨hplug', hbefore⟩ := Ctx.prev_some hprev
        have hleaves := hbefore (fun items => [items]) fun _ => []
        have hentries : c.entriesBefore = (c'.entriesBefore ++ l'.items) ++ [d] :=
          hbefore (fun items => items) fun d => [d]
        rw [hleaves, List.append_nil, List.length_append, List.length_singleton] at hfuel
        have hrest := ih (hplug'.trans hplug) (by omega)
        simp only [Option.map_some]
        rw [bind_of_ok hrest, pure_apply, hentries]
        simp only [List.map_append, List.map_cons, List.map_nil, List.reverse_append, List.reverse_cons,
          List.reverse_nil, List.nil_append, List.singleton_append]

/-- A backward scan from the last leaf: all keys, the last of them first. -/
theorem scanBackward_live (ht : IndexStored s root others T) :
    ∃ path, IndexBTree.rightmostLeafPath [] root s = (.ok path, s) ∧
      IndexBTree.scanBackwardFrom (s.pageCount + 1) path s =
        (.ok (T.entries.map Entry.key).reverse, s) := by
  have hlast := rightmostLeafPath_live ht.live (t := T) .root (List.subset_append_left _ _)
    ht.height_lt
  have hleaves := (Ctx.before_last (fun items => [items]) (fun _ => []) .root T).1
  have hentries := (Ctx.before_last (fun items => items) (fun d => [d]) .root T).1
  have hlen := T.leaves_length_le indexFormat.layout
  have hpages := ht.live.length_lt
  have hcount := congrArg List.length hleaves
  have hall : (T.walk (fun items => [items]) fun _ => []).length ≤ T.image.length := hlen
  rw [Ctx.before, List.nil_append, List.length_append, List.length_singleton] at hcount
  rw [List.length_append] at hpages
  rw [Ctx.path_root, ht.root] at hlast
  have hscan : IndexBTree.scanBackwardFrom (s.pageCount + 1)
      ((T.lastLeaf.id, T.lastLeaf.items.length - 1) :: (Ctx.root.last T).path) s = _ :=
    scanBackwardFrom_live ht (Ctx.plug_last (.root : Ctx Entry Entry H) T) (by omega)
  rw [Ctx.before, List.nil_append] at hentries
  rw [Ctx.entriesBefore, hentries] at hscan
  exact ⟨_, hlast, hscan⟩

/-- `scan_reverse`: the rowids of all keys, the last of them first. -/
theorem scanReverse_live (ht : IndexStored s root others T) :
    IndexBTree.scanReverse root s = (.ok ((T.entries.map Entry.key).map rowidOf).reverse, s) := by
  obtain ⟨path, hlast, hscan⟩ := scanBackward_live ht
  rw [IndexBTree.scanReverse, bind_of_ok hlast, bind_of_ok (state_apply s), bind_of_ok hscan, pure_apply,
    List.map_reverse]

end Stored

end QuillDb
