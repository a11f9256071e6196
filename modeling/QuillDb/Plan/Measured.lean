/-
  Plan/Measured.lean --- what ANALYZE counts in a stored tree.

  Source: `measure_table` and `measure_index` of `quilldb/plan/analyze.py`.

  The walk over a table counts its rows.  The walk over an index counts the entries of
  its leaves, and an index keeps entries between two children too, one for each leaf but
  the first; those it leaves out.
-/
import QuillDb.BTree.Content
import QuillDb.Lib.TreeCounts
import QuillDb.Plan.Analyze
import Mathlib.Data.List.Dedup

set_option autoImplicit false

namespace QuillDb

open Prog PageStore PageTree Fallible

section Walks

variable {s : PageStore} {img : Image} {h : Nat}

/-- A loop that only looks. -/
theorem mapM_live {τ β α : Type} {f : β → StoreM α} {see : τ → α} {k : τ → β} {ts : List τ}
    (h : ∀ t ∈ ts, f (k t) s = (.ok (see t), s)) : (ts.map k).mapM f s = (.ok (ts.map see), s) := by
  induction ts with
  | nil => rfl
  | cons t ts ih =>
      have hrest := ih fun u hu => h u (List.mem_cons_of_mem _ hu)
      rw [List.map_cons, List.mapM_cons, bind_of_ok (h t (List.mem_cons_self ..)), bind_of_ok hrest]
      rfl

/-- A child of a node, in its place. -/
theorem exists_frame_of_mem {α δ : Type} {n : Node δ (LevelTree α δ h)} {t : LevelTree α δ h}
    (ht : t ∈ n.children) : ∃ f : Frame δ (LevelTree α δ h), f.fill t = n := by
  obtain ⟨i, hi, hget⟩ := List.getElem_of_mem ht
  have hlength : n.children.length = n.kids.length + 1 := by simp [Node.children]
  obtain ⟨f, x, rfl, rfl⟩ := n.exists_frame (i := i) (by omega)
  have hx := f.fill_children_get x
  rw [List.getElem?_eq_getElem hi, hget] at hx
  exact ⟨f, congrArg f.fill (Option.some.inj hx)⟩

theorem getLast_children {τ δ : Type} (n : Node δ τ) : n.children.getLast? = some n.last := by
  simp [Node.children]

theorem measureTableFrom_live (hlive : Live s img) {t : TableTree h} (hsub : t.image ⊆ img) {fuel : Nat}
    (hfuel : h < fuel) :
    measureTableFrom fuel t.id s = (.ok ⟨t.items.length, t.nodeCount, h + 1⟩, s) := by
  induction h generalizing fuel with
  | zero =>
      obtain ⟨fuel, rfl⟩ : ∃ n, fuel = n + 1 := ⟨fuel - 1, by omega⟩
      obtain ⟨l, hl⟩ := t.exists_leaf
      rw [hl] at hsub ⊢
      rw [measureTableFrom, LevelTree.id_leaf, bind_of_ok (readBody_leaf hlive hsub)]
      simp only [List.length_map]
      rfl
  | succ h ih =>
      obtain ⟨fuel, rfl⟩ : ∃ n, fuel = n + 1 := ⟨fuel - 1, by omega⟩
      obtain ⟨n, hn⟩ := t.exists_node
      rw [hn] at hsub ⊢
      have hkids : ∀ u ∈ n.children, measureTableFrom fuel u.id s =
          (.ok ⟨u.items.length, u.nodeCount, h + 1⟩, s) := by
        intro u hu
        obtain ⟨f, rfl⟩ := exists_frame_of_mem hu
        exact ih (fun p hp => hsub (image_child f u hp)) (by omega)
      rw [measureTableFrom, LevelTree.id_node, bind_of_ok (readBody_node hlive hsub)]
      simp only
      rw [children_eq, bind_of_ok (mapM_live hkids), LevelTree.items_node, LevelTree.nodeCount_node]
      simp only [List.map_map, List.length_flatMap, List.getLast?_map, getLast_children, Function.comp_def]
      rfl

theorem measureIndexFrom_live (hlive : Live s img) {t : IndexTree h} (hsub : t.image ⊆ img)
    (hread : Readable s t.entries) {fuel : Nat} (hfuel : h < fuel) :
    measureIndexFrom fuel t.id s = (.ok (t.items.map Entry.key, t.leaves.length, h + 1), s) := by
  induction h generalizing fuel with
  | zero =>
      obtain ⟨fuel, rfl⟩ : ∃ n, fuel = n + 1 := ⟨fuel - 1, by omega⟩
      obtain ⟨l, hl⟩ := t.exists_leaf
      rw [hl] at hsub hread ⊢
      rw [measureIndexFrom, LevelTree.id_leaf, bind_of_ok (readBody_indexLeaf hlive hsub)]
      simp only
      have hkeys : ∀ e ∈ l.items, IndexBTree.decodeKey e.cell s = (.ok e.key, s) := hread
      rw [bind_of_ok (mapM_live hkeys)]
      rfl
  | succ h ih =>
      obtain ⟨fuel, rfl⟩ : ∃ n, fuel = n + 1 := ⟨fuel - 1, by omega⟩
      obtain ⟨n, hn⟩ := t.exists_node
      rw [hn] at hsub hread ⊢
      have hkids : ∀ u ∈ n.children, measureIndexFrom fuel u.id s =
          (.ok (u.items.map Entry.key, u.leaves.length, h + 1), s) := by
        intro u hu
        obtain ⟨f, rfl⟩ := exists_frame_of_mem hu
        exact ih (fun p hp => hsub (indexImage_child f u hp)) (hread.subset (entries_child f u)) (by omega)
      rw [measureIndexFrom, LevelTree.id_node, bind_of_ok (readBody_indexNode hlive hsub)]
      simp only
      rw [indexChildren_eq, bind_of_ok (mapM_live hkids), LevelTree.items_node, LevelTree.length_leaves_node]
      simp only [List.map_map, List.map_flatMap, List.getLast?_map, getLast_children, Function.comp_def]
      rfl

end Walks

/-! ## Averages -/

section Averages

variable {listEq : List Value → List Value → Bool}

theorem sum_runLengths (current : List Value) (length : Nat) (keys : List (List Value)) :
    (runLengths listEq current length keys).sum = length + keys.length := by
  induction keys generalizing current length with
  | nil => simp [runLengths]
  | cons key keys ih =>
      rw [runLengths, List.length_cons]
      split
      · rw [ih]
        omega
      · rw [List.sum_cons, ih]
        omega

/-- Sorted keys that are equal stand together, so there is one run for each. -/
theorem length_runLengths {β : Type} [DecidableEq β] [PartialOrder β] {place : List Value → β}
    {current : List Value} {length : Nat} {keys : List (List Value)}
    (hsame : ∀ key ∈ current :: keys, ∀ other ∈ current :: keys, listEq key other = true ↔ place key = place other)
    (hsorted : (current :: keys).Pairwise fun a b => place a ≤ place b) :
    (runLengths listEq current length keys).length = ((current :: keys).map place).dedup.length := by
  induction keys generalizing current length with
  | nil => simp [runLengths]
  | cons key keys ih =>
      obtain ⟨hfirst, hrest⟩ := List.pairwise_cons.mp hsorted
      obtain ⟨hkey, hkeys⟩ := List.pairwise_cons.mp hrest
      have hcurrent : current ∈ current :: key :: keys := List.mem_cons_self ..
      have hmem : key ∈ current :: key :: keys := List.mem_cons_of_mem _ (List.mem_cons_self ..)
      rw [runLengths]
      split
      · -- the run goes on
        rename_i hequal
        have hplace := (hsame key hmem current hcurrent).mp hequal
        have hskip : (current :: keys).Sublist (current :: key :: keys) :=
          (List.sublist_cons_self key keys).cons_cons current
        rw [ih (fun a ha b hb => hsame a (hskip.subset ha) b (hskip.subset hb)) (hsorted.sublist hskip)]
        have hthere : place current ∈ (key :: keys).map place := by simp [hplace]
        rw [List.map_cons (l := key :: keys), List.dedup_cons_of_mem hthere, List.map_cons, List.map_cons, hplace]
      · -- the next key begins a run, and no key behind it is in this one
        rename_i hother
        have hplace : place current ≠ place key := fun h => hother ((hsame key hmem current hcurrent).mpr h.symm)
        have hfresh : place current ∉ (key :: keys).map place := by
          intro hthere
          obtain ⟨other, hother, hplaced⟩ := List.mem_map.mp hthere
          apply hplace
          apply le_antisymm (hfirst key (List.mem_cons_self ..))
          rw [← hplaced]
          rcases List.mem_cons.mp hother with rfl | hother
          · exact le_refl _
          · exact hkey other hother
        rw [List.map_cons (l := key :: keys), List.dedup_cons_of_notMem hfresh, List.length_cons, List.length_cons,
          ih (fun a ha b hb => hsame a (List.mem_cons_of_mem _ ha) b (List.mem_cons_of_mem _ hb)) hrest]

/-- The first columns of sorted keys are sorted. -/
theorem keyPlace_take_le {n : Nat} {a b : List Value} (ha : Comparable n a) (hb : Comparable n b)
    (h : keyPlace a ≤ keyPlace b) (p : Nat) : keyPlace (a.take p) ≤ keyPlace (b.take p) := by
  have htake : ∀ {key : List Value}, Comparable n key → Comparable (min p n) (key.take p) := fun hkey =>
    ⟨by rw [List.length_take, hkey.1], fun v hv => hkey.2 v (List.mem_of_mem_take hv)⟩
  rw [← compareKeys_le (htake ha) (htake hb)]
  intro hgt
  apply (compareKeys_le ha hb).mpr h
  rw [← List.take_append_drop p a, ← List.take_append_drop p b,
    compareKeys_append ((htake ha).1.trans (htake hb).1.symm), hgt]
  rfl

/-- Equal tuples have one place. -/
theorem tupleEq_iff_place {n : Nat} {a b : List Value} (ha : Comparable n a) (hb : Comparable n b) :
    tupleEq a b = true ↔ keyPlace a = keyPlace b := by
  have hlength := ha.1.trans hb.1.symm
  replace ha := ha.2
  replace hb := hb.2
  unfold tupleEq
  induction a generalizing b with
  | nil =>
      obtain rfl : b = [] := List.length_eq_zero_iff.mp hlength.symm
      simp [List.isEqv]
  | cons u a ih =>
      obtain ⟨v, b, rfl⟩ : ∃ v b', b = v :: b' :=
        List.exists_cons_of_ne_nil (List.ne_nil_of_length_pos (hlength ▸ Nat.succ_pos _))
      have huv := Value.pyEq_iff (ha u (List.mem_cons_self ..)) (hb v (List.mem_cons_self ..))
      have hrest := ih (Nat.succ.inj hlength) (fun w hw => ha w (List.mem_cons_of_mem _ hw))
        fun w hw => hb w (List.mem_cons_of_mem _ hw)
      have hcons : keyPlace (u :: a) = keyPlace (v :: b) ↔ u.place = v.place ∧ keyPlace a = keyPlace b := by
        simp [keyPlace]
      rw [List.isEqv, Bool.and_eq_true, huv, hcons]
      exact and_congr_right fun _ => hrest

/-- The average of a prefix length: the keys, over the different prefixes among them. -/
theorem rowsPerPrefix_eq {n : Nat} {keys : List (List Value)} (hne : keys ≠ [])
    (hsorted : KeysSorted n keys) (keyColumns : Nat) : rowsPerPrefix tupleEq keys keyColumns =
      (List.range keyColumns).map fun p =>
        keys.length / (keys.map fun key => keyPlace (key.take (p + 1))).dedup.length := by
  obtain ⟨first, rest, rfl⟩ := List.exists_cons_of_ne_nil hne
  rw [rowsPerPrefix]
  apply List.map_congr_left
  intro p _
  have htake : ∀ key ∈ (first :: rest).map fun key => key.take (p + 1), Comparable (min (p + 1) n) key := by
    intro key hkey
    obtain ⟨whole, hwhole, rfl⟩ := List.mem_map.mp hkey
    have hcomparable := hsorted.comparable whole hwhole
    exact ⟨by rw [List.length_take, hcomparable.1], fun v hv => hcomparable.2 v (List.mem_of_mem_take hv)⟩
  have hpairwise : ((first :: rest).map fun key => key.take (p + 1)).Pairwise fun a b => keyPlace a ≤ keyPlace b := by
    apply List.pairwise_map.mpr
    exact hsorted.ordered.imp_of_mem fun ha hb hle =>
      keyPlace_take_le (hsorted.comparable _ ha) (hsorted.comparable _ hb) hle _
  rw [List.map_cons] at htake hpairwise
  have hruns : (runLengths tupleEq (first.take (p + 1)) 1 (rest.map fun key => key.take (p + 1))).length = _ :=
    length_runLengths (fun a ha b hb => tupleEq_iff_place (htake a ha) (htake b hb)) hpairwise
  simp only
  rw [sum_runLengths, hruns, List.length_map, ← List.map_cons (f := fun key : List Value => key.take (p + 1)),
    List.map_map, List.length_cons, Nat.add_comm]
  rfl

end Averages

/-! ## Trees of a database -/

section Stores

variable {header : PageContent} {slots : List (TreeKind × Nat)} {content : Content} {s : PageStore} {root : Nat}

/-- `measure_table` counts the rows. -/
theorem Stores.measureTable_eq (hs : Stores header slots content s) (hslot : (.table, root) ∈ slots) :
    ∃ pageCount height, measureTable root s = (.ok ⟨(content.rows root).length, pageCount, height⟩, s) ∧
      1 ≤ height ∧ height ≤ pageCount ∧ pageCount < s.pageCount := by
  obtain ⟨H, T, rest, rfl, hf, -, hrows, -⟩ := hs.exists_table hslot
  have hlive := hf.tableAt.toTableAt.live
  have hcount := LevelTree.nodeCount_le tableFormat.layout T
  have hheight := T.height_lt_nodeCount
  have hlength := hlive.length_lt
  rw [List.length_append] at hlength
  have himage : T.image.length = (LevelTree.image tableFormat.layout T).length := rfl
  have hwalk : measureTableFrom (s.pageCount + 1) T.id s = (.ok ⟨T.items.length, T.nodeCount, H + 1⟩, s) :=
    measureTableFrom_live hlive (List.subset_append_left _ _) (by omega)
  refine ⟨T.nodeCount, H + 1, ?_, by omega, by omega, by omega⟩
  rw [measureTable, bind_of_ok (state_apply s), hwalk, hrows.length_eq]

/-- `measure_index` counts the entries of the leaves, and not those between two leaves. -/
theorem Stores.measureIndex_eq (hs : Stores header slots content s) (hslot : (.index, root) ∈ slots)
    (listEq : List Value → List Value → Bool) (keyColumns : Nat) : ∃ leafKeys leafPages height,
      measureIndex listEq root keyColumns s =
        (.ok ⟨leafKeys.length, rowsPerPrefix listEq leafKeys keyColumns, height, leafPages⟩, s) ∧
      leafKeys.Sublist (content.keys root) ∧ leafKeys.length + leafPages = (content.keys root).length + 1 ∧
      1 ≤ leafPages := by
  obtain ⟨H, T, rest, rfl, hf, -, hkeys, -⟩ := hs.exists_index hslot
  have ht := hf.indexStored
  have hwalk := measureIndexFrom_live ht.live (List.subset_append_left _ _) ht.readable ht.height_lt
  have hentries := T.length_entries
  have hleaves := T.length_leaves
  refine ⟨T.items.map Entry.key, T.leaves.length, H + 1, ?_, ?_, ?_, by omega⟩
  · rw [measureIndex, bind_of_ok (state_apply s), bind_of_ok hwalk]
    rfl
  · exact hkeys ▸ T.items_sublist.map _
  · rw [← hkeys, List.length_map, List.length_map]
    omega

end Stores

end QuillDb
