/-
  Exec/Indexed.lean --- an index in step with its table.

  Source: `compare_keys` and `find_conflict` of `quilldb/btree/index.py`, and the keys
  that `Insert`, `Delete` and `Update` of `quilldb/exec/operators.py` enter and remove.

  An UPDATE from 1 to 1.0 leaves the entry of 1 alone, so an entry and its row have
  keys that compare equal, and need not have the same key.
-/
import QuillDb.BTree.Content
import QuillDb.Catalog.UniqueIndex
import QuillDb.Exec.IndexScan

set_option autoImplicit false

namespace QuillDb

/-- The keys of an index are sorted, and there is one for each row, with the row's
rowid and equal to the row's key, and no other. -/
structure Indexed (positions : List Nat) (rows : List (Int × List Value)) (keys : List (List Value)) : Prop where
  sorted : KeysSorted (positions.length + 1) keys
  comparable : ∀ row ∈ rows, Comparable (positions.length + 1) (indexKey positions row)
  rowids : ∀ key ∈ keys, ∃ values rowid, key = values ++ [.int rowid]
  matched : (keys.map keyPlace).Perm (rows.map fun row => keyPlace (indexKey positions row))

theorem indexKey_eq (positions : List Nat) (row : Int × List Value) :
    indexKey positions row = keyAt positions row.2 ++ [.int row.1] := rfl

theorem length_keyAt (positions : List Nat) (row : List Value) : (keyAt positions row).length = positions.length :=
  List.length_map _

/-- Different integers have different places. -/
theorem Value.place_int {a b : Int} : (Value.int a).place = (Value.int b).place ↔ a = b := by
  constructor
  · intro h
    have hfinite : (Number.finite (a * 2 ^ 1074)).place = (Number.finite (b * 2 ^ 1074)).place := (List.cons.inj h).2
    have hscaled : a * 2 ^ 1074 = b * 2 ^ 1074 := (List.cons.inj (List.cons.inj hfinite).2).1
    exact mul_right_cancel₀ (pow_ne_zero 1074 two_ne_zero) hscaled
  · intro h
    rw [h]

/-- A key ends with a rowid like the row's, and what is before it compares alike. -/
theorem keyPlace_concat {values values' : List Value} {rowid rowid' : Int} :
    keyPlace (values ++ [.int rowid]) = keyPlace (values' ++ [.int rowid']) ↔
      keyPlace values = keyPlace values' ∧ rowid = rowid' := by
  unfold keyPlace
  rw [List.map_append, List.map_append, List.map_singleton, List.map_singleton, List.append_singleton_inj,
    Value.place_int]

section Indexed

variable {positions : List Nat} {rows rows' : List (Int × List Value)} {keys keys' : List (List Value)}
  {row : Int × List Value}

/-- A new row, and its key in the index. -/
theorem Indexed.gain (h : Indexed positions rows keys)
    (hrow : Comparable (positions.length + 1) (indexKey positions row))
    (hgains : Gains (indexKey positions row) keys keys') (hperm : rows'.Perm (row :: rows)) :
    Indexed positions rows' keys' := by
  obtain ⟨xs, ys, rfl, rfl, hkeep⟩ := hgains
  have hmiddle : (xs ++ indexKey positions row :: ys).Perm (indexKey positions row :: (xs ++ ys)) :=
    List.perm_middle
  constructor
  · exact hkeep _ hrow h.sorted
  · intro other hother
    rcases List.mem_cons.mp (hperm.mem_iff.mp hother) with rfl | hother
    · exact hrow
    · exact h.comparable other hother
  · intro key hkey
    rcases List.mem_cons.mp (hmiddle.mem_iff.mp hkey) with rfl | hkey
    · exact ⟨_, _, indexKey_eq positions row⟩
    · exact h.rowids key hkey
  · apply (hmiddle.map keyPlace).trans
    apply ((h.matched.cons _).trans _)
    exact (hperm.map fun row => keyPlace (indexKey positions row)).symm

/-- A row goes, and its key with it. -/
theorem Indexed.lose (h : Indexed positions rows keys) (hloses : Loses (indexKey positions row) keys keys')
    (hperm : rows.Perm (row :: rows')) : Indexed positions rows' keys' := by
  have hmem : row ∈ rows := hperm.mem_iff.mpr (List.mem_cons_self ..)
  have hrow := h.comparable row hmem
  have hplaces := h.matched.trans (hperm.map fun row => keyPlace (indexKey positions row))
  rcases hloses with ⟨xs, found, ys, rfl, rfl, hfound⟩ | ⟨rfl, habsent⟩
  · have hmiddle : (xs ++ found :: ys).Perm (found :: (xs ++ ys)) := List.perm_middle
    have hsub : (xs ++ ys).Sublist (xs ++ found :: ys) := (List.sublist_cons_self found ys).append_left xs
    have hsorted := h.sorted
    have hcomparable := hsorted.comparable found (hmiddle.mem_iff.mpr (List.mem_cons_self ..))
    constructor
    · exact ⟨fun key hkey => hsorted.comparable key (hsub.subset hkey), hsorted.ordered.sublist hsub⟩
    · exact fun other hother => h.comparable other (hperm.mem_iff.mpr (List.mem_cons_of_mem _ hother))
    · exact fun key hkey => h.rowids key (hsub.subset hkey)
    · have hcons := (hmiddle.map keyPlace).symm.trans hplaces
      rw [List.map_cons, List.map_cons, (compareKeys_eq hcomparable hrow).mp hfound] at hcons
      exact hcons.cons_inv
  · -- the key was there
    have hthere : keyPlace (indexKey positions row) ∈ keys'.map keyPlace := hplaces.mem_iff.mpr (List.mem_cons_self ..)
    obtain ⟨other, hother, hplace⟩ := List.mem_map.mp hthere
    exact absurd hplace (habsent _ hrow h.sorted other hother)

/-- A row in another's place, under a key that compares equal. -/
theorem Indexed.replace {xs ys : List (Int × List Value)} {row' : Int × List Value}
    (h : Indexed positions (xs ++ row :: ys) keys)
    (hrow' : Comparable (positions.length + 1) (indexKey positions row'))
    (hplace : keyPlace (indexKey positions row') = keyPlace (indexKey positions row)) :
    Indexed positions (xs ++ row' :: ys) keys := by
  constructor
  · exact h.sorted
  · intro other hother
    rcases List.mem_append.mp hother with hother | hother
    · exact h.comparable other (List.mem_append_left _ hother)
    · rcases List.mem_cons.mp hother with rfl | hother
      · exact hrow'
      · exact h.comparable other (List.mem_append_right _ (List.mem_cons_of_mem _ hother))
  · exact h.rowids
  · have hmatched := h.matched
    rw [List.map_append, List.map_cons] at hmatched ⊢
    rwa [hplace]

/-! ## Looking a key up -/

/-- Each key is one of a row, under its rowid. -/
theorem Indexed.exists_row (h : Indexed positions rows keys) {key : List Value} (hkey : key ∈ keys) :
    ∃ row ∈ rows, ∃ values, key = values ++ [.int row.1] ∧ values.length = positions.length ∧
      keyPlace values = keyPlace (keyAt positions row.2) := by
  obtain ⟨values, rowid, rfl⟩ := h.rowids key hkey
  have hlen := (h.sorted.comparable _ hkey).1
  have hplace := h.matched.mem_iff.mp (List.mem_map_of_mem hkey)
  obtain ⟨row, hrow, hplace⟩ := List.mem_map.mp hplace
  rw [indexKey_eq, keyPlace_concat] at hplace
  obtain ⟨hvalues, rfl⟩ := hplace
  refine ⟨row, hrow, values, rfl, ?_, hvalues.symm⟩
  simpa using hlen

/-- Each row has its key. -/
theorem Indexed.exists_key (h : Indexed positions rows keys) (hrow : row ∈ rows) :
    ∃ values, values ++ [.int row.1] ∈ keys ∧ values.length = positions.length ∧
      keyPlace values = keyPlace (keyAt positions row.2) := by
  have hplace := h.matched.mem_iff.mpr (List.mem_map_of_mem hrow)
  obtain ⟨key, hkey, hplace⟩ := List.mem_map.mp hplace
  obtain ⟨values, rowid, rfl⟩ := h.rowids key hkey
  have hlen := (h.sorted.comparable _ hkey).1
  rw [indexKey_eq, keyPlace_concat] at hplace
  obtain ⟨hvalues, rfl⟩ := hplace
  refine ⟨values, hkey, ?_, hvalues⟩
  simpa using hlen

/-- A probe without the rowid. -/
theorem compareKeys_concat {probe values : List Value} (hlen : probe.length = values.length) (rowid : Int) :
    compareKeys probe (values ++ [.int rowid]) = compareKeys probe values := by
  have happend := compareKeys_append hlen [] [.int rowid]
  rw [List.append_nil] at happend
  rw [happend]
  cases compareKeys probe values <;> simp [compareKeys]

theorem Indexed.comparable_keyAt (h : Indexed positions rows keys) (hrow : row ∈ rows) :
    Comparable positions.length (keyAt positions row.2) := by
  have hkey := h.comparable row hrow
  exact ⟨length_keyAt _ _, fun v hv => hkey.2 v (List.mem_append_left _ hv)⟩

/-! ## Conflicts -/

theorem Clash.symm {n : Nat} {a b : List Value} (ha : Comparable n a) (hb : Comparable n b) (h : Clash a b) :
    Clash b a :=
  ⟨h.2.1, h.1, (compareKeys_symm ha hb).mp h.2.2⟩

/-- A key without NULL clashes with each key that compares equal. -/
theorem clash_of_eq {n : Nat} {a b : List Value} (ha : Comparable n a) (hb : Comparable n b)
    (hnull : Value.null ∉ a) (h : compareKeys a b = .eq) : Clash a b :=
  ⟨hnull, fun hmem => hnull (null_mem_of_compareKeys hb ha ((compareKeys_symm ha hb).mp h) hmem), h⟩

/-- Keys that compare equal clash with the same keys. -/
theorem Clash.of_place {n : Nat} {a a' b : List Value} (ha : Comparable n a) (ha' : Comparable n a')
    (hb : Comparable n b) (hplace : keyPlace a = keyPlace a') (h : Clash a b) : Clash a' b := by
  have hsame : compareKeys a' a = .eq := (compareKeys_eq ha' ha).mpr hplace.symm
  refine clash_of_eq ha' hb (fun hnull => h.1 (null_mem_of_compareKeys ha' ha hsame hnull)) ?_
  rw [compareKeys_eq ha' hb, ← hplace]
  exact (compareKeys_eq ha hb).mp h.2.2

variable {probe : List Value}

/-- What the probe finds is a row that it clashes with. -/
theorem Indexed.clash_of_conflict (h : Indexed positions rows keys) (hprobe : Comparable positions.length probe)
    {rowid : Int} (hfound : firstConflict keys probe = some rowid) :
    ∃ row ∈ rows, row.1 = rowid ∧ Clash probe (keyAt positions row.2) := by
  unfold firstConflict at hfound
  split at hfound
  · cases hfound
  · rename_i hnull
    obtain ⟨key, hkey, rfl⟩ := List.mem_map.mp (List.mem_of_head? hfound)
    obtain ⟨hkey, heq⟩ := List.mem_filter.mp hkey
    obtain ⟨row, hrow, values, rfl, hlen, hplace⟩ := h.exists_row hkey
    have hcomparable := h.sorted.comparable _ hkey
    have hvalues : Comparable positions.length values :=
      ⟨hlen, fun v hv => hcomparable.2 v (List.mem_append_left _ hv)⟩
    rw [decide_eq_true_eq, compareKeys_concat (hprobe.1.trans hlen.symm), compareKeys_eq hprobe hvalues] at heq
    have hrowKey := h.comparable_keyAt hrow
    refine ⟨row, hrow, by simp [rowidOf], clash_of_eq hprobe hrowKey hnull ?_⟩
    exact (compareKeys_eq hprobe hrowKey).mpr (heq.trans hplace)

/-- A probe that finds nothing clashes with no row. -/
theorem Indexed.not_clash_of_none (h : Indexed positions rows keys) (hprobe : Comparable positions.length probe)
    (hnone : firstConflict keys probe = none) : ∀ row ∈ rows, ¬ Clash probe (keyAt positions row.2) := by
  intro row hrow hclash
  unfold firstConflict at hnone
  rw [if_neg hclash.1, List.head?_eq_none_iff, List.map_eq_nil_iff, List.filter_eq_nil_iff] at hnone
  obtain ⟨values, hkey, hlen, hplace⟩ := h.exists_key hrow
  have hcomparable := h.sorted.comparable _ hkey
  have hvalues : Comparable positions.length values :=
    ⟨hlen, fun v hv => hcomparable.2 v (List.mem_append_left _ hv)⟩
  apply hnone _ hkey
  rw [decide_eq_true_eq, compareKeys_concat (hprobe.1.trans hlen.symm), compareKeys_eq hprobe hvalues, hplace]
  exact (compareKeys_eq hprobe (h.comparable_keyAt hrow)).mp hclash.2.2

/-- The rows of a UNIQUE index hold a clashing key at most once, so what the probe finds
is another row if any clashing row is. -/
theorem Indexed.conflict_other_iff (h : Indexed positions rows keys)
    (hdistinct : ¬ HasDuplicate (keyedBy positions rows)) (hprobe : Comparable positions.length probe) (rowid : Int) :
    ((firstConflict keys probe).any fun other => other ≠ rowid) = true ↔
      ∃ other ∈ rows, other.1 ≠ rowid ∧ Clash probe (keyAt positions other.2) := by
  cases hfound : firstConflict keys probe with
  | none =>
      refine iff_of_false (by simp) ?_
      rintro ⟨other, hother, -, hclash⟩
      exact h.not_clash_of_none hprobe hfound other hother hclash
  | some found =>
      obtain ⟨row, hrow, rfl, hclash⟩ := h.clash_of_conflict hprobe hfound
      rw [Option.any_some, decide_eq_true_eq]
      constructor
      · intro hne
        exact ⟨row, hrow, hne, hclash⟩
      · rintro ⟨other, hother, hne, hclash'⟩ heq
        -- both rows would hold the key
        apply hdistinct
        refine ⟨_, List.mem_map_of_mem hother, _, List.mem_map_of_mem hrow, heq ▸ hne, hclash'.2.1, hclash.2.1, ?_⟩
        have hotherKey := h.comparable_keyAt hother
        have hrowKey := h.comparable_keyAt hrow
        rw [compareKeys_eq hotherKey hrowKey, ← (compareKeys_eq hprobe hotherKey).mp hclash'.2.2]
        exact (compareKeys_eq hprobe hrowKey).mp hclash.2.2

/-! ## No duplicates -/

theorem HasDuplicate.mono {rows rows' : List (Int × List Value)} (hsub : rows ⊆ rows')
    (h : HasDuplicate (keyedBy positions rows)) : HasDuplicate (keyedBy positions rows') := by
  have hkeyed : keyedBy positions rows ⊆ keyedBy positions rows' := List.map_subset _ hsub
  obtain ⟨a, ha, b, hb, hclash⟩ := h
  exact ⟨a, hkeyed ha, b, hkeyed hb, hclash⟩

/-- A row that clashes with no other makes no duplicate. -/
theorem not_hasDuplicate_insert {xs ys : List (Int × List Value)}
    (hdistinct : ¬ HasDuplicate (keyedBy positions (xs ++ ys)))
    (hcomparable : ∀ other ∈ xs ++ row :: ys, Comparable positions.length (keyAt positions other.2))
    (hclash : ∀ other ∈ xs ++ ys, other.1 ≠ row.1 → ¬ Clash (keyAt positions row.2) (keyAt positions other.2)) :
    ¬ HasDuplicate (keyedBy positions (xs ++ row :: ys)) := by
  have hmiddle : (xs ++ row :: ys).Perm (row :: (xs ++ ys)) := List.perm_middle
  have hrow := hcomparable row (hmiddle.mem_iff.mpr (List.mem_cons_self ..))
  have hothers : ∀ other ∈ xs ++ ys, Comparable positions.length (keyAt positions other.2) :=
    fun other hother => hcomparable other (hmiddle.mem_iff.mpr (List.mem_cons_of_mem _ hother))
  rintro ⟨a', ha', b', hb', hne, hab⟩
  obtain ⟨a, ha, rfl⟩ := List.mem_map.mp ha'
  obtain ⟨b, hb, rfl⟩ := List.mem_map.mp hb'
  rcases List.mem_cons.mp (hmiddle.mem_iff.mp ha) with heqA | hmemA
  · subst heqA
    rcases List.mem_cons.mp (hmiddle.mem_iff.mp hb) with heqB | hmemB
    · subst heqB
      exact hne rfl
    · exact hclash b hmemB hne.symm hab
  · rcases List.mem_cons.mp (hmiddle.mem_iff.mp hb) with heqB | hmemB
    · subst heqB
      exact hclash a hmemA hne (hab.symm (hothers a hmemA) hrow)
    · exact hdistinct ⟨_, List.mem_map_of_mem hmemA, _, List.mem_map_of_mem hmemB, hne, hab⟩

end Indexed

end QuillDb
