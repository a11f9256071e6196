/-
  Exec/IndexScan.lean --- the rowids that an index scan yields.

  Source: `IndexScan.open` and `_seek_value` of `quilldb/exec/operators.py`.

  The table lock and the lookup of each row by its rowid are left out.  The scan of
  an equality prefix and a range is exact unless some row slips through the bounds: a
  range from above alone lets NULL through, which is below every value.
-/
import QuillDb.Exec.SeekBounds

set_option autoImplicit false

namespace QuillDb

open Prog PageStore PageTree

/-! ## The source -/

section Source

variable (ops : FloatOps)

/-- `_seek_value`: the value of a seek term, over the row outside. -/
def seekValue (outer : List Value) (p : Object Predicate) : Except DbError Value :=
  evaluate ops outer p.val.value

/-- The loop that looks for a bound that is NULL. -/
def nullBound (outer : List Value) : List (Object Predicate) → Except DbError Bool
  | [] => .ok false
  | p :: rest => do
      let value ← seekValue ops outer p
      if value = .null ∧ p.val.operator ≠ .is then .ok true else nullBound outer rest

/-- The loop over the seek terms. -/
def boundsOf (outer : List Value) (terms : List (Object Predicate)) : Except DbError SeekBounds :=
  terms.foldlM (fun b p => do
    let value ← seekValue ops outer p
    .ok (b.tighten p.val.operator value)) {}

/-- The rowids of `IndexScan.open`, drained. -/
def indexScanOpen (path : AccessPath) (outer : List Value) : StoreM (List Int) :=
  match path.index with
  | none => return []
  | some index => do
      if ← lift (nullBound ops outer path.seekTerms) then return []
      else if path.seekTerms.all fun p => p.val.operator.isEquality then
        if path.seekTerms = [] ∧ path.reverse then IndexBTree.scanReverse index.rootPage
        else
          let values ← lift (path.seekTerms.mapM (seekValue ops outer))
          IndexBTree.seekEq index.rootPage values
      else
        let equalityPrefix ← lift ((equalities path.seekTerms).mapM (seekValue ops outer))
        let bounds ← lift (boundsOf ops outer path.seekTerms)
        IndexBTree.seekRange index.rootPage (seekProbe equalityPrefix bounds.lowBound)
          (seekProbe equalityPrefix bounds.highBound) bounds.lowInclusive bounds.highInclusive

end Source

/-! ## What it is for -/

/-- The key of a row: the indexed columns and the rowid. -/
def indexKey (positions : List Nat) (row : Int × List Value) : List Value :=
  positions.map (fun i => row.2.getD i .null) ++ [.int row.1]

/-- A term that is TRUE of nothing: a comparison with NULL. -/
def SeekTerm.isVoid (t : SeekTerm) : Bool := t.value = .null && t.operator ≠ .is

/-- The equalities are TRUE of the first columns of the index. -/
def prefixPasses (ops : FloatOps) (eqs : List SeekTerm) (cells : List Value) : Bool :=
  (eqs.zip cells).all fun p => p.1.passes ops p.2

/-- The order of a walk: a walk over the whole index may go back to front. -/
def walkOrder (path : AccessPath) (rowids : List Int) : List Int :=
  if path.seekTerms = [] ∧ path.reverse then rowids.reverse else rowids

/-- The column behind the equality prefix. -/
def boundCell (positions : List Nat) (eqs : List SeekTerm) (row : Int × List Value) : Value :=
  row.2.getD (positions.getD eqs.length 0) .null

/-- Every seek term is TRUE of the row. -/
def rowPasses (ops : FloatOps) (eqs ranges : List SeekTerm) (positions : List Nat)
    (row : Int × List Value) : Bool :=
  prefixPasses ops eqs (positions.map fun i => row.2.getD i .null) &&
    ranges.all fun t => t.passes ops (boundCell positions eqs row)

/-- The predicate has the operator and the value of the term. -/
abbrev IsTerm (ops : FloatOps) (outer : List Value) (p : Object Predicate) (t : SeekTerm) : Prop :=
  p.val.operator = t.operator ∧ seekValue ops outer p = .ok t.value

/-- The seek terms of a path have these operators and values. -/
def HasTerms (ops : FloatOps) (outer : List Value) (path : AccessPath) (terms : List SeekTerm) : Prop :=
  List.Forall₂ (IsTerm ops outer) path.seekTerms terms

/-- An equality for each of the first columns of an index with columns at `positions`, and
bounds of the column behind them. -/
structure SeekShape (positions : List Nat) (eqs ranges : List SeekTerm) : Prop where
  equalities : ∀ t ∈ eqs, t.operator.isEquality = true
  bounds : Bounding ranges
  columns : eqs.length + (if ranges = [] then 0 else 1) ≤ positions.length

/-- The index holds the keys of the rows, in index order. -/
structure IndexContent (s : PageStore) (root : Nat) (positions : List Nat)
    (rows : List (Int × List Value)) (others : Image) {H : Nat} (T : IndexTree H) : Prop where
  stored : IndexStored s root others T
  ordered : KeysOrdered (T.entries.map Entry.key)
  keys : T.entries.map Entry.key = rows.map (indexKey positions)

section Terms

variable {ops : FloatOps} {outer : List Value} {ps : List (Object Predicate)} {terms : List SeekTerm}

theorem isVoid_iff {t : SeekTerm} : t.isVoid = true ↔ t.value = .null ∧ t.operator ≠ .is := by
  rw [SeekTerm.isVoid, Bool.and_eq_true, decide_eq_true_eq, decide_eq_true_eq]

theorem nullBound_eq (h : List.Forall₂ (IsTerm ops outer) ps terms) :
    nullBound ops outer ps = .ok (terms.any SeekTerm.isVoid) := by
  induction h with
  | nil => rfl
  | cons hp _ ih =>
      obtain ⟨hop, hvalue⟩ := hp
      rw [nullBound, hvalue, List.any_cons]
      simp only [bind, Except.bind]
      split
      · rename_i hnull
        rw [hop, ← isVoid_iff] at hnull
        rw [hnull, Bool.true_or]
      · rename_i hnull
        rw [hop, ← isVoid_iff, Bool.not_eq_true] at hnull
        rw [ih, hnull, Bool.false_or]

theorem values_eq (h : List.Forall₂ (IsTerm ops outer) ps terms) :
    ps.mapM (seekValue ops outer) = .ok (terms.map SeekTerm.value) :=
  Fallible.mapM_eq_ok_iff.mpr (List.forall₂_map_right_iff.mpr (h.imp fun _ _ hp => hp.2))

theorem equalities_terms (h : List.Forall₂ (IsTerm ops outer) ps terms) :
    List.Forall₂ (IsTerm ops outer) (equalities ps)
      (terms.filter fun t => t.operator.isEquality) := by
  induction h with
  | nil => exact .nil
  | cons hp _ ih =>
      rw [equalities, List.filter_cons, List.filter_cons, hp.1]
      split
      · exact .cons hp ih
      · exact ih

theorem allEquality_iff (h : List.Forall₂ (IsTerm ops outer) ps terms) :
    (ps.all fun p => p.val.operator.isEquality) = terms.all fun t => t.operator.isEquality := by
  induction h with
  | nil => rfl
  | cons hp _ ih => rw [List.all_cons, List.all_cons, ih, hp.1]

theorem boundsOf_eq (h : List.Forall₂ (IsTerm ops outer) ps terms) :
    boundsOf ops outer ps = .ok (tightest terms) := by
  unfold boundsOf tightest
  generalize ({} : SeekBounds) = b
  induction h generalizing b with
  | nil => rfl
  | cons hp _ ih =>
      rw [List.foldlM_cons, hp.2, hp.1]
      exact ih _

/-- An equality leaves the bounds. -/
theorem tighten_equality {t : SeekTerm} (ht : t.operator.isEquality = true) (b : SeekBounds) :
    b.add t = b := by
  obtain ⟨operator, v⟩ := t
  cases operator <;> first | rfl | cases ht

theorem tightest_append {eqs ranges : List SeekTerm}
    (heqs : ∀ t ∈ eqs, t.operator.isEquality = true) : tightest (eqs ++ ranges) = tightest ranges := by
  rw [tightest, List.foldl_append]
  congr 1
  induction eqs with
  | nil => rfl
  | cons t eqs ih =>
      rw [List.foldl_cons, tighten_equality (heqs t (List.mem_cons_self ..))]
      exact ih fun t ht => heqs t (List.mem_cons_of_mem _ ht)

/-- A bound is no equality. -/
theorem not_equality {t : SeekTerm} (ht : t.isLower = true ∨ t.isUpper = true) :
    t.operator.isEquality = false ∧ t.operator ≠ .is := by
  obtain ⟨operator, v⟩ := t
  cases operator <;> first | exact ⟨rfl, nofun⟩ | (rcases ht with ht | ht <;> cases ht)

end Terms

/-! ## The terms of a shape -/

section Shape

variable {ops : FloatOps} {positions : List Nat} {eqs ranges : List SeekTerm}

theorem SeekShape.filter_eq (h : SeekShape positions eqs ranges) :
    (eqs ++ ranges).filter (fun t => t.operator.isEquality) = eqs := by
  rw [List.filter_append, List.filter_eq_self.mpr h.equalities,
    List.filter_eq_nil_iff.mpr fun t ht => ?_, List.append_nil]
  rw [(not_equality (h.bounds t ht)).1]
  exact Bool.false_ne_true

theorem SeekShape.all_iff (h : SeekShape positions eqs ranges) :
    ((eqs ++ ranges).all fun t => t.operator.isEquality) = true ↔ ranges = [] := by
  rw [List.all_append, List.all_eq_true.mpr h.equalities, Bool.true_and]
  cases hranges : ranges with
  | nil => exact iff_of_true rfl rfl
  | cons t rest =>
      rw [List.all_cons, (not_equality (h.bounds t (hranges ▸ List.mem_cons_self ..))).1]
      exact iff_of_false Bool.false_ne_true nofun

/-- The equality prefix picks the rows that the equalities are TRUE of. -/
theorem compareKeys_prefix (heqs : ∀ t ∈ eqs, t.operator.isEquality = true)
    (hvoid : eqs.any SeekTerm.isVoid = false) {cells : List Value} (hlen : eqs.length ≤ cells.length) :
    compareKeys (eqs.map SeekTerm.value) cells = .eq ↔ prefixPasses ops eqs cells = true := by
  induction eqs generalizing cells with
  | nil => exact iff_of_true rfl rfl
  | cons t eqs ih =>
      cases cells with
      | nil => exact absurd hlen (Nat.not_succ_le_zero _)
      | cons cell cells =>
          rw [List.any_cons, Bool.or_eq_false_iff] at hvoid
          have hvalue : t.operator ≠ .is → t.value ≠ .null :=
            fun hop hnull => Bool.false_ne_true (hvoid.1.symm.trans (isVoid_iff.mpr ⟨hnull, hop⟩))
          have hrest := ih (fun t ht => heqs t (List.mem_cons_of_mem _ ht)) hvoid.2
            (Nat.le_of_succ_le_succ hlen)
          have hhead := @passes_equality ops cell t (heqs t (List.mem_cons_self ..)) hvalue
          rw [List.map_cons, compareKeys_cons, prefixPasses, List.zip_cons_cons, List.all_cons,
            Bool.and_eq_true, ← prefixPasses, hhead, ← hrest]
          cases compareKeys [t.value] [cell] with
          | eq => exact ⟨fun h => ⟨rfl, h⟩, And.right⟩
          | lt => exact iff_of_false (fun h => by cases h) fun h => by cases h.1
          | gt => exact iff_of_false (fun h => by cases h) fun h => by cases h.1

theorem prefixPasses_append {cells : List Value} (hlen : eqs.length ≤ cells.length) (rest : List Value) :
    prefixPasses ops eqs (cells ++ rest) = prefixPasses ops eqs cells := by
  induction eqs generalizing cells with
  | nil => rfl
  | cons t eqs ih =>
      cases cells with
      | nil => exact absurd hlen (Nat.not_succ_le_zero _)
      | cons cell cells =>
          rw [List.cons_append, prefixPasses, prefixPasses, List.zip_cons_cons, List.zip_cons_cons,
            List.all_cons, List.all_cons]
          exact congrArg _ (ih (Nat.le_of_succ_le_succ hlen))

end Shape

/-! ## Probes -/

section Probe

variable {equalityPrefix bound pre rest : List Value} {inclusive : Bool} {cell : Value}

theorem aboveLow_seekProbe (h : bound = [] → inclusive = true) (key : List Value) :
    aboveLow (seekProbe equalityPrefix bound) inclusive key = true ↔
      compareKeys (equalityPrefix ++ bound) key = .lt ∨
        compareKeys (equalityPrefix ++ bound) key = .eq ∧ inclusive = true := by
  unfold seekProbe
  split
  · rename_i hnil
    rw [hnil.1, hnil.2]
    exact iff_of_true rfl (.inr ⟨rfl, h hnil.2⟩)
  · rw [aboveLow, Option.all_some, Bool.or_eq_true, Bool.and_eq_true, decide_eq_true_eq,
      decide_eq_true_eq]

theorem belowHigh_seekProbe (h : bound = [] → inclusive = true) (key : List Value) :
    belowHigh (seekProbe equalityPrefix bound) inclusive key = true ↔
      compareKeys (equalityPrefix ++ bound) key = .gt ∨
        compareKeys (equalityPrefix ++ bound) key = .eq ∧ inclusive = true := by
  unfold seekProbe
  split
  · rename_i hnil
    rw [hnil.1, hnil.2]
    exact iff_of_true rfl (.inr ⟨rfl, h hnil.2⟩)
  · rw [belowHigh, Option.all_some, Bool.or_eq_true, Bool.and_eq_true, decide_eq_true_eq,
      decide_eq_true_eq]

/-- A bound of one column meets the column behind the prefix. -/
theorem compareKeys_probe (hlen : equalityPrefix.length = pre.length) (hbound : bound.length ≤ 1) :
    compareKeys (equalityPrefix ++ bound) (pre ++ cell :: rest) =
      (compareKeys equalityPrefix pre).then (compareKeys bound [cell]) := by
  rw [compareKeys_append hlen]
  congr 1
  match bound, hbound with
  | [], _ => rfl
  | [w], _ => exact compareKeys_single w cell rest

/-- The probes on both sides leave the keys that begin with the prefix and whose next
column is between the bounds. -/
theorem between_probes {b : SeekBounds} (hlen : equalityPrefix.length = pre.length)
    (hlow : b.lowBound.length ≤ 1 ∧ (b.lowBound = [] → b.lowInclusive = true))
    (hhigh : b.highBound.length ≤ 1 ∧ (b.highBound = [] → b.highInclusive = true)) :
    (aboveLow (seekProbe equalityPrefix b.lowBound) b.lowInclusive (pre ++ cell :: rest) &&
      belowHigh (seekProbe equalityPrefix b.highBound) b.highInclusive (pre ++ cell :: rest)) = true ↔
      compareKeys equalityPrefix pre = .eq ∧ b.admitsLow cell = true ∧ b.admitsHigh cell = true := by
  rw [Bool.and_eq_true, aboveLow_seekProbe hlow.2, belowHigh_seekProbe hhigh.2,
    compareKeys_probe hlen hlow.1, compareKeys_probe hlen hhigh.1, SeekBounds.admitsLow,
    SeekBounds.admitsHigh, aboveLow_seekProbe hlow.2, belowHigh_seekProbe hhigh.2]
  cases compareKeys equalityPrefix pre with
  | eq => exact ⟨fun h => ⟨rfl, h⟩, And.right⟩
  | lt =>
      rw [Ordering.lt_then, Ordering.lt_then]
      exact iff_of_false (fun h => by rcases h.2 with h | ⟨h, -⟩ <;> cases h) fun h => by cases h.1
  | gt =>
      rw [Ordering.gt_then, Ordering.gt_then]
      exact iff_of_false (fun h => by rcases h.1 with h | ⟨h, -⟩ <;> cases h) fun h => by cases h.1

end Probe

/-- The bounds of the fold have at most one column. -/
theorem tightest_bounds {ts : List SeekTerm} (hts : Proper ts) :
    ((tightest ts).lowBound.length ≤ 1 ∧ ((tightest ts).lowBound = [] → (tightest ts).lowInclusive = true)) ∧
      ((tightest ts).highBound.length ≤ 1 ∧
        ((tightest ts).highBound = [] → (tightest ts).highInclusive = true)) := by
  constructor
  · cases lowState hts with
    | unbounded _ hbound hinc => exact ⟨hbound ▸ Nat.zero_le 1, fun _ => hinc⟩
    | number _ w _ hbound => exact ⟨hbound ▸ Nat.le_refl 1, fun h => by rw [hbound] at h; cases h⟩
    | other w _ _ _ hbound => exact ⟨hbound ▸ Nat.le_refl 1, fun h => by rw [hbound] at h; cases h⟩
  · cases highState hts with
    | unbounded _ hbound hinc => exact ⟨hbound ▸ Nat.zero_le 1, fun _ => hinc⟩
    | number _ w _ hbound => exact ⟨hbound ▸ Nat.le_refl 1, fun h => by rw [hbound] at h; cases h⟩
    | other w _ hbound => exact ⟨hbound ▸ Nat.le_refl 1, fun h => by rw [hbound] at h; cases h⟩

/-! ## The rows of a scan -/

section Rows

variable {ops : FloatOps} {outer : List Value} {path : AccessPath} {index : IndexSchema}
  {s : PageStore} {positions : List Nat} {rows : List (Int × List Value)} {others : Image} {H : Nat}
  {T : IndexTree H} {eqs ranges : List SeekTerm}

theorem rowidOf_indexKey (positions : List Nat) (row : Int × List Value) :
    rowidOf (indexKey positions row) = row.1 := by
  rw [rowidOf, indexKey, List.getLast?_concat]

/-- A key that begins with the bounded column behind the prefix. -/
theorem indexKey_split {k : Nat} (h : k < positions.length) (row : Int × List Value) :
    ∃ rest, indexKey positions row = (positions.take k).map (fun i => row.2.getD i .null) ++
      row.2.getD (positions.getD k 0) .null :: rest := by
  refine ⟨(positions.drop (k + 1)).map (fun i => row.2.getD i .null) ++ [.int row.1], ?_⟩
  have hcut : positions = positions.take k ++ positions.getD k 0 :: positions.drop (k + 1) := by
    rw [List.getD_eq_getElem?_getD, List.getElem?_eq_getElem h, Option.getD_some, List.getElem_cons_drop, List.take_append_drop]
  rw [indexKey]
  conv => lhs; rw [hcut]
  rw [List.map_append, List.map_cons, List.append_assoc, List.cons_append]

theorem IndexContent.covers (h : IndexContent s index.rootPage positions rows others T)
    {probe : List Value} (hlen : probe.length ≤ positions.length + 1) :
    Covers (T.entries.map Entry.key) probe := by
  intro key hkey
  rw [h.keys] at hkey
  obtain ⟨row, -, rfl⟩ := List.mem_map.mp hkey
  rwa [indexKey, List.length_append, List.length_map]

/-- The rowids of the keys that are left, as rows. -/
theorem IndexContent.filter (h : IndexContent s index.rootPage positions rows others T)
    {p : List Value → Bool} {q : Int × List Value → Bool}
    (hpq : ∀ row, p (indexKey positions row) = q row) :
    ((T.entries.map Entry.key).filter p).map rowidOf = (rows.filter q).map Prod.fst := by
  rw [h.keys, List.filter_map, List.map_map]
  have hrows : rows.filter (p ∘ indexKey positions) = rows.filter q :=
    List.filter_congr fun row _ => hpq row
  rw [hrows]
  exact List.map_congr_left fun row _ => rowidOf_indexKey positions row

/-- No comparison with NULL is among the bounds. -/
theorem proper_of_not_void (hranges : Bounding ranges) (h : (eqs ++ ranges).any SeekTerm.isVoid = false) :
    Proper ranges := by
  intro t ht hnull
  have hvoid := List.any_eq_false.mp h t (List.mem_append_right _ ht)
  exact hvoid (isVoid_iff.mpr ⟨hnull, (not_equality (hranges t ht)).2⟩)

/-- The rows that a scan yields. -/
def rowYielded (ops : FloatOps) (eqs ranges : List SeekTerm) (positions : List Nat)
    (row : Int × List Value) : Bool :=
  prefixPasses ops eqs (positions.map fun i => row.2.getD i .null) &&
    (ranges.isEmpty || (tightest ranges).admitsLow (boundCell positions eqs row) &&
      (tightest ranges).admitsHigh (boundCell positions eqs row))

theorem prefix_indexKey (hshape : SeekShape positions eqs ranges)
    (hvoid : (eqs ++ ranges).any SeekTerm.isVoid = false) (row : Int × List Value) :
    compareKeys (eqs.map SeekTerm.value) (indexKey positions row) = .eq ↔
      prefixPasses ops eqs (positions.map fun i => row.2.getD i .null) = true := by
  have hlen : eqs.length ≤ (positions.map fun i => row.2.getD i .null).length :=
    (List.length_map _).ge.trans' (le_of_add_le_left hshape.columns)
  rw [List.any_append, Bool.or_eq_false_iff] at hvoid
  rw [indexKey, compareKeys_prefix hshape.equalities hvoid.1 (by
    rw [List.length_append]
    omega), prefixPasses_append hlen]

theorem rowYielded_nil (positions : List Nat) (row : Int × List Value) :
    rowYielded ops [] [] positions row = true := rfl

/-- What a scan yields when no seek term is a comparison with NULL. -/
theorem indexScanOpen_live (hindex : path.index = some index)
    (hcontent : IndexContent s index.rootPage positions rows others T)
    (hterms : HasTerms ops outer path (eqs ++ ranges)) (hshape : SeekShape positions eqs ranges)
    (hvoid : (eqs ++ ranges).any SeekTerm.isVoid = false) :
    indexScanOpen ops path outer s =
      (.ok (walkOrder path ((rows.filter (rowYielded ops eqs ranges positions)).map Prod.fst)), s) := by
  have hnull : lift (nullBound ops outer path.seekTerms) s = (.ok false, s) := by
    rw [lift_apply, nullBound_eq hterms, hvoid]
  have hcols := hshape.columns
  rw [indexScanOpen, hindex]
  simp only
  rw [bind_of_ok hnull, if_neg Bool.false_ne_true, allEquality_iff hterms]
  by_cases hranges : ranges = []
  · rw [if_pos (hshape.all_iff.mpr hranges), walkOrder]
    subst hranges
    rw [List.append_nil] at hterms
    split
    · rename_i hwalk
      obtain rfl : eqs = [] := by
        have hnone := hterms
        rw [HasTerms, hwalk.1, List.forall₂_nil_left_iff] at hnone
        exact hnone
      rw [scanReverse_live hcontent.stored, hcontent.keys, List.map_map,
        List.filter_eq_self.mpr fun row _ => rowYielded_nil positions row]
      have hrowids : rowidOf ∘ indexKey positions = Prod.fst := funext (rowidOf_indexKey positions)
      rw [hrowids]
    · have hvalues : lift (path.seekTerms.mapM (seekValue ops outer)) s =
          (.ok (eqs.map SeekTerm.value), s) := by
        rw [lift_apply, values_eq hterms]
      rw [bind_of_ok hvalues, seekEq_live hcontent.stored hcontent.ordered
        (hcontent.covers (by rw [List.length_map]; omega))]
      rw [hcontent.filter fun row => ?_]
      rw [Bool.eq_iff_iff, decide_eq_true_eq, @prefix_indexKey ops positions eqs [] hshape hvoid row,
        rowYielded, List.isEmpty_nil, Bool.true_or, Bool.and_true]
  · have hwalk : walkOrder path ((rows.filter (rowYielded ops eqs ranges positions)).map Prod.fst) =
        (rows.filter (rowYielded ops eqs ranges positions)).map Prod.fst := by
      refine if_neg fun h => hranges ?_
      have hnone := hterms
      rw [HasTerms, h.1, List.forall₂_nil_left_iff] at hnone
      exact (List.append_eq_nil_iff.mp hnone).2
    rw [if_neg fun h => hranges (hshape.all_iff.mp h), hwalk]
    rw [if_neg hranges] at hcols
    have hproper := proper_of_not_void hshape.bounds hvoid
    obtain ⟨hlow, hhigh⟩ := tightest_bounds hproper
    have hprefix : lift ((equalities path.seekTerms).mapM (seekValue ops outer)) s =
        (.ok (eqs.map SeekTerm.value), s) := by
      rw [lift_apply, values_eq (equalities_terms hterms), hshape.filter_eq]
    have hbounds : lift (boundsOf ops outer path.seekTerms) s = (.ok (tightest ranges), s) := by
      rw [lift_apply, boundsOf_eq hterms, tightest_append hshape.equalities]
    have hcovers : ∀ bound : List Value, bound.length ≤ 1 →
        ∀ probe ∈ seekProbe (eqs.map SeekTerm.value) bound, Covers (T.entries.map Entry.key) probe := by
      intro bound hbound probe hprobe
      unfold seekProbe at hprobe
      split at hprobe
      · cases hprobe
      · obtain rfl := Option.some.inj hprobe
        refine hcontent.covers ?_
        rw [List.length_append, List.length_map]
        omega
    rw [bind_of_ok hprefix, bind_of_ok hbounds, seekRange_live hcontent.stored hcontent.ordered
      (hcovers _ hlow.1) (hcovers _ hhigh.1)]
    rw [hcontent.filter fun row => ?_]
    obtain ⟨rest, hkey⟩ := @indexKey_split positions eqs.length hcols row
    have hlen : (eqs.map SeekTerm.value).length =
        ((positions.take eqs.length).map fun i => row.2.getD i .null).length := by
      rw [List.length_map, List.length_map, List.length_take]
      omega
    rw [Bool.eq_iff_iff, hkey, between_probes hlen hlow hhigh, rowYielded, List.isEmpty_eq_false_iff.mpr hranges,
      Bool.false_or, Bool.and_eq_true, Bool.and_eq_true, ← @prefix_indexKey ops positions eqs ranges hshape hvoid row, hkey]
    have hpre := compareKeys_append hlen [] (boundCell positions eqs row :: rest)
    have hnil : compareKeys [] (boundCell positions eqs row :: rest) = .eq := rfl
    rw [List.append_nil, hnil, Ordering.then_eq] at hpre
    exact and_congr_left fun _ => by rw [← hpre]; rfl

/-- The rows of a scan whose order is that of the path. -/
theorem rowYielded_iff (hranges : Bounding ranges) (hproper : Proper ranges) (row : Int × List Value) :
    rowYielded ops eqs ranges positions row = true ↔ rowPasses ops eqs ranges positions row = true ∨
      ranges ≠ [] ∧ prefixPasses ops eqs (positions.map fun i => row.2.getD i .null) = true ∧
        SlipsThrough ops ranges (boundCell positions eqs row) := by
  rw [rowYielded, rowPasses, Bool.and_eq_true, Bool.and_eq_true, Bool.or_eq_true, Bool.and_eq_true,
    List.all_eq_true, List.isEmpty_iff]
  by_cases hne : ranges = []
  · subst hne
    exact ⟨fun h => .inl ⟨h.1, fun t ht => (List.not_mem_nil ht).elim⟩,
      fun h => ⟨(h.resolve_right fun h => h.1 rfl).1, .inl rfl⟩⟩
  · rw [or_iff_right hne, @tightest_admits ops ranges _ hproper hranges hne, and_iff_right hne, and_or_left]

/-- A comparison with NULL ends the scan before it begins. -/
theorem indexScanOpen_void (hindex : path.index = some index)
    (hterms : HasTerms ops outer path (eqs ++ ranges))
    (hvoid : (eqs ++ ranges).any SeekTerm.isVoid = true) :
    indexScanOpen ops path outer s = (.ok [], s) := by
  have hnull : lift (nullBound ops outer path.seekTerms) s = (.ok true, s) := by
    rw [lift_apply, nullBound_eq hterms, hvoid]
  rw [indexScanOpen, hindex]
  simp only
  rw [bind_of_ok hnull, if_pos rfl, pure_apply]

theorem exists_cell_of_prefixPasses {cells : List Value} (hlen : eqs.length ≤ cells.length)
    (h : prefixPasses ops eqs cells = true) : ∀ t ∈ eqs, ∃ cell, t.passes ops cell = true := by
  induction eqs generalizing cells with
  | nil => exact fun t ht => (List.not_mem_nil ht).elim
  | cons t eqs ih =>
      cases cells with
      | nil => exact absurd hlen (Nat.not_succ_le_zero _)
      | cons cell cells =>
          rw [prefixPasses, List.zip_cons_cons, List.all_cons, Bool.and_eq_true] at h
          rintro u (_ | ⟨_, hu⟩)
          · exact ⟨cell, h.1⟩
          · exact ih (Nat.le_of_succ_le_succ hlen) h.2 u hu

/-- No row makes a comparison with NULL true. -/
theorem not_rowPasses (hshape : SeekShape positions eqs ranges)
    (hvoid : (eqs ++ ranges).any SeekTerm.isVoid = true) (row : Int × List Value) :
    rowPasses ops eqs ranges positions row = false := by
  rw [Bool.eq_false_iff]
  intro hrow
  rw [rowPasses, Bool.and_eq_true, List.all_eq_true] at hrow
  obtain ⟨t, ht, hnull⟩ := List.any_eq_true.mp hvoid
  have hcell : ∃ cell, t.passes ops cell = true := by
    rcases List.mem_append.mp ht with ht | ht
    · refine exists_cell_of_prefixPasses ?_ hrow.1 t ht
      rw [List.length_map]
      exact le_of_add_le_left hshape.columns
    · exact ⟨_, hrow.2 t ht⟩
  obtain ⟨cell, hcell⟩ := hcell
  obtain ⟨hvalue, hop⟩ := isVoid_iff.mp hnull
  rw [passes_null hop (.inr hvalue)] at hcell
  cases hcell

/-- Two filters, one of them weaker, that leave as many have left the same. -/
theorem filter_eq_iff {α β : Type} {p q : α → Bool} (f : α → β) (xs : List α)
    (hqp : ∀ x ∈ xs, q x = true → p x = true) :
    (xs.filter p).map f = (xs.filter q).map f ↔ ∀ x ∈ xs, p x = true → q x = true := by
  constructor
  · intro h x hx hp
    have hlen := congrArg List.length h
    rw [List.length_map, List.length_map] at hlen
    have htwice : (xs.filter p).filter q = xs.filter q := by
      rw [List.filter_filter]
      refine List.filter_congr fun y hy => ?_
      rw [Bool.eq_iff_iff, Bool.and_eq_true]
      exact ⟨And.left, fun h => ⟨h, hqp y hy h⟩⟩
    rw [← htwice, eq_comm, List.length_filter_eq_length_iff] at hlen
    exact hlen x (List.mem_filter.mpr ⟨hx, hp⟩)
  · intro h
    rw [List.filter_congr fun x hx => Bool.eq_iff_iff.mpr ⟨h x hx, hqp x hx⟩]

theorem walkOrder_inj {path : AccessPath} {xs ys : List Int} (h : walkOrder path xs = walkOrder path ys) :
    xs = ys := by
  unfold walkOrder at h
  split at h
  · exact List.reverse_injective h
  · exact h

/-- The scan yields the rows whose seek terms are all TRUE, in the order of the walk, exactly
when no row slips through the bounds. -/
theorem index_scan_exact_iff (hindex : path.index = some index)
    (hcontent : IndexContent s index.rootPage positions rows others T)
    (hterms : HasTerms ops outer path (eqs ++ ranges)) (hshape : SeekShape positions eqs ranges) :
    indexScanOpen ops path outer s =
        (.ok (walkOrder path ((rows.filter (rowPasses ops eqs ranges positions)).map Prod.fst)), s) ↔
      (∃ t ∈ eqs ++ ranges, t.isVoid = true) ∨ ranges = [] ∨
        ∀ row ∈ rows, prefixPasses ops eqs (positions.map fun i => row.2.getD i .null) = true →
          ¬ SlipsThrough ops ranges (boundCell positions eqs row) := by
  by_cases hvoid : (eqs ++ ranges).any SeekTerm.isVoid = true
  · rw [indexScanOpen_void hindex hterms hvoid,
      List.filter_eq_nil_iff.mpr fun row _ => Bool.not_eq_true _ ▸ not_rowPasses hshape hvoid row]
    refine iff_of_true ?_ (.inl (List.any_eq_true.mp hvoid))
    unfold walkOrder
    split <;> rfl
  · rw [List.any_eq_true] at hvoid
    rw [or_iff_right hvoid]
    rw [← List.any_eq_true, Bool.not_eq_true] at hvoid
    have hproper := proper_of_not_void hshape.bounds hvoid
    have hyielded := @rowYielded_iff ops positions eqs ranges hshape.bounds hproper
    rw [indexScanOpen_live hindex hcontent hterms hshape hvoid]
    have hfilter := filter_eq_iff (p := rowYielded ops eqs ranges positions)
      (q := rowPasses ops eqs ranges positions) Prod.fst rows
      fun row _ h => (hyielded row).mpr (.inl h)
    constructor
    · intro h
      rcases eq_or_ne ranges [] with hnone | hsome
      · exact .inl hnone
      · refine .inr fun row hrow hprefix hslips => ?_
        have hpasses := hfilter.mp (walkOrder_inj (Except.ok.inj (Prod.ext_iff.mp h).1)) row hrow
          ((hyielded row).mpr (.inr ⟨hsome, hprefix, hslips⟩))
        rw [rowPasses, Bool.and_eq_true, List.all_eq_true] at hpasses
        exact hslips.not_passes hproper hshape.bounds hsome hpasses.2
    · intro h
      rw [hfilter.mpr fun row hrow hrowYielded => ?_]
      refine ((hyielded row).mp hrowYielded).resolve_right fun hslips => ?_
      rcases h with h | h
      · exact hslips.1 h
      · exact h row hrow hslips.2.1 hslips.2.2

end Rows

/-! ## A bound from above alone -/

/-- An entry of the index below, whole on its page. -/
def ageEntry (age : Value) (rowid : Int) (record : Bytes)
    (h : decodeRecord record 0 = .ok [age, .int rowid])
    (hwhole : spills .leafIndex record = false) : Entry where
  key := [age, .int rowid]
  stored := .unspilled record hwhole
  decodes := h

/-- The leaf of an index on the ages NULL and 5. -/
def ageLeaf : Leaf Entry :=
  ⟨2, [ageEntry .null 1 [3, 0, 9] (by decide) (by decide),
    ageEntry (.int 5) 2 [3, 1, 1, 5, 2] (by decide) (by decide)]⟩

/-- A database of two pages, the second of them the index. -/
def ages : PageStore where
  pageCount := 2
  freelistTrunk := 0
  freelistCount := 0
  pages id := if id = 2 then .body (.indexLeaf (ageLeaf.items.map Entry.cell)) else .link 0 []

def ageRows : List (Int × List Value) := [(1, [.null]), (2, [.int 5])]

theorem ages_content (index : IndexSchema) (hroot : index.rootPage = 2) :
    IndexContent ages index.rootPage [0] ageRows [] (.leaf ageLeaf : IndexTree 0) where
  stored :=
    { root := hroot.symm
      filled := .inl rfl
      small := by
        intro p hp
        rw [List.mem_singleton.mp hp]
        decide
      live :=
        { free := ⟨[], [], rfl, Nat.two_pow_pos 32, List.Perm.refl _⟩
          holds := by
            intro p hp
            rw [List.mem_singleton.mp hp]
            rfl
          fits := by
            intro p hp
            have hfits : (PageBody.indexLeaf (ageLeaf.items.map Entry.cell)).usedBytes ≤ pageSize := by decide
            rw [List.mem_singleton.mp hp]
            exact hfits } }
  ordered := List.pairwise_pair.mpr (by decide)
  keys := by decide

/-- A comparison of the age with a number, as a term of a path. -/
def ageTerm (id : Nat) (operator : SeekOperator) (source : BinaryOperator) (bound : Int) :
    Object Predicate :=
  ⟨id, ⟨"age", operator, .literal (.int bound),
    .binaryOp (.column ⟨0, "age", .integer, 0⟩) source (.literal (.int bound)), 0⟩⟩

/-- `age > 3` and `age < 10`. -/
def ageAbove : Object Predicate := ageTerm 0 .gt .gt 3
def ageBelow : Object Predicate := ageTerm 1 .lt .lt 10

/-- A walk over the index on the ages. -/
def agePath (terms : List (Object Predicate)) : AccessPath where
  kind := .indexScan
  index := some ⟨"by_age", "people", ["age"], false, 2, "CREATE INDEX by_age ON people (age)"⟩
  seekTerms := terms
  residual := []

theorem ageBelow_terms : HasTerms noFloats [] (agePath [ageBelow]) [⟨.lt, .int 10⟩] :=
  .cons ⟨rfl, rfl⟩ .nil

theorem ageBelow_shape : SeekShape [0] [] [⟨.lt, .int 10⟩] :=
  ⟨nofun, fun t ht => .inr (by rw [List.mem_singleton.mp ht]; rfl), Nat.le_refl 1⟩

/-- `age < 10` yields the row without an age, of which it is not TRUE. -/
theorem index_scan_yields_null :
    IndexContent ages 2 [0] ageRows [] (.leaf ageLeaf : IndexTree 0) ∧
      HasTerms noFloats [] (agePath [ageBelow]) [⟨.lt, .int 10⟩] ∧ SeekShape [0] [] [⟨.lt, .int 10⟩] ∧
      indexScanOpen noFloats (agePath [ageBelow]) [] ages = (.ok [1, 2], ages) ∧
      (ageRows.filter (rowPasses noFloats [] [⟨.lt, .int 10⟩] [0])).map Prod.fst = [2] := by
  have hcontent := ages_content ⟨"by_age", "people", ["age"], false, 2,
    "CREATE INDEX by_age ON people (age)"⟩ rfl
  have hrows : walkOrder (agePath [ageBelow]) ((ageRows.filter
      (rowYielded noFloats [] [⟨.lt, .int 10⟩] [0])).map Prod.fst) = [1, 2] := by
    decide +kernel
  have hscan := @indexScanOpen_live noFloats [] (agePath [ageBelow]) _ ages [0] ageRows [] 0
    _ [] [⟨.lt, .int 10⟩] rfl hcontent ageBelow_terms ageBelow_shape rfl
  rw [hrows] at hscan
  exact ⟨hcontent, ageBelow_terms, ageBelow_shape, hscan, by decide +kernel⟩

/-- With a bound from below as well it does not. -/
theorem index_scan_exact_between :
    indexScanOpen noFloats (agePath [ageAbove, ageBelow]) [] ages = (.ok [2], ages) := by
  have hrows : walkOrder (agePath [ageAbove, ageBelow]) ((ageRows.filter
      (rowPasses noFloats [] [⟨.gt, .int 3⟩, ⟨.lt, .int 10⟩] [0])).map Prod.fst) = [2] := by
    decide +kernel
  rw [← hrows]
  refine (@index_scan_exact_iff noFloats [] (agePath [ageAbove, ageBelow]) _ ages [0] ageRows [] 0
    _ [] [⟨.gt, .int 3⟩, ⟨.lt, .int 10⟩] rfl (ages_content _ rfl) (.cons ⟨rfl, rfl⟩ (.cons ⟨rfl, rfl⟩ .nil))
    ?_).mpr (.inr (.inr ?_))
  · refine ⟨nofun, ?_, Nat.le_refl 1⟩
    rintro t (_ | ⟨_, ht⟩)
    · exact .inl rfl
    · rw [List.mem_singleton.mp ht]
      exact .inr rfl
  · intro row _ _ hslips
    cases hslips with
    | null _ hlow => cases hlow
    | nan _ _ hlow => cases hlow
    | number t _ _ ht hnan =>
        rcases List.mem_cons.mp ht with rfl | ht
        · exact absurd hnan (by decide)
        · rw [List.mem_singleton.mp ht] at hnan
          exact absurd hnan (by decide)

end QuillDb
