/-
  Exec/Rows.lean --- operators over rows that come without an error.

  Source: `Project`, `Distinct` and `Limit` of `quilldb/exec/operators.py`, `Sort` of
  `quilldb/exec/sort.py`.

  Where no call of `next` raises, DISTINCT keeps the first of equal rows, ORDER BY sorts by
  a total preorder of the rows without a NaN, LIMIT and OFFSET cut.
-/
import QuillDb.Exec.Comparison
import QuillDb.Exec.Pulls
import QuillDb.Lib.Sorting

set_option autoImplicit false

namespace QuillDb

open Fallible Sorting

/-! ## Rows that are sorted -/

section Compare

variable {a b c : List Value} {keys : List BoundOrderKey}

/-- Every column that is sorted by holds a value that can be compared. -/
def Sortable (keys : List BoundOrderKey) (row : List Value) : Prop :=
  ∀ key ∈ keys, ¬ (row.getD key.index .null).isNan

/-- A comparison of rows can be turned round. -/
theorem compareRows_swap (ha : Sortable keys a) (hb : Sortable keys b) :
    compareRows b a keys = (compareRows a b keys).swap := by
  induction keys with
  | nil => rfl
  | cons key keys ih =>
      rw [Sortable, List.forall_mem_cons] at ha hb
      rw [compareRows, compareRows, ih ha.2 hb.2, Ordering.swap_then,
        compareKeys_swap (comparable_singleton ha.1) (comparable_singleton hb.1)]
      split <;> rfl

/-- The places of two columns, in the direction of a key. -/
theorem compareRows_single (key : BoundOrderKey) (ha : Sortable [key] a) (hb : Sortable [key] b) :
    (compareRows a b [key] = .lt ↔
      if key.descending then (b.getD key.index .null).place < (a.getD key.index .null).place
      else (a.getD key.index .null).place < (b.getD key.index .null).place) ∧
    (compareRows a b [key] = .eq ↔ (a.getD key.index .null).place = (b.getD key.index .null).place) := by
  rw [Sortable, List.forall_mem_singleton] at ha hb
  simp only [compareRows, Ordering.then_eq]
  generalize a.getD key.index .null = v at ha ⊢
  generalize b.getD key.index .null = w at hb ⊢
  have hlt : compareKeys [v] [w] = .lt ↔ v.place < w.place := by
    rw [Value.compare_lt_iff]
    exact ⟨fun h => h.elim Value.place_lt_of_rank_lt fun h => h.2.2, fun h => .inr ⟨ha, hb, h⟩⟩
  have heq : compareKeys [v] [w] = .eq ↔ v.place = w.place := by
    rw [Value.compare_eq_iff]
    exact ⟨fun h => h.2.2, fun h => ⟨ha, hb, h⟩⟩
  cases hcmp : compareKeys [v] [w] with
  | lt =>
      have h := hlt.mp hcmp
      cases key.descending <;> simp [h, h.ne, h.le]
  | eq =>
      have h := heq.mp hcmp
      cases key.descending <;> simp [h]
  | gt =>
      have hnot : ¬ v.place < w.place := fun h => by rw [hlt.mpr h] at hcmp; cases hcmp
      have hne : v.place ≠ w.place := fun h => by rw [heq.mpr h] at hcmp; cases hcmp
      have h := lt_of_le_of_ne (not_lt.mp hnot) (Ne.symm hne)
      cases key.descending <;> simp [h, hne, h.le]

theorem compareRows_cons (key : BoundOrderKey) (keys : List BoundOrderKey) :
    compareRows a b (key :: keys) = (compareRows a b [key]).then (compareRows a b keys) := by
  simp [compareRows]

theorem compareRows_trans (ha : Sortable keys a) (hb : Sortable keys b) (hc : Sortable keys c)
    (hab : compareRows a b keys ≠ .gt) (hbc : compareRows b c keys ≠ .gt) : compareRows a c keys ≠ .gt := by
  induction keys with
  | nil => simp [compareRows]
  | cons key keys ih =>
      rw [Sortable, List.forall_mem_cons] at ha hb hc
      have hfirst : ∀ {row : List Value}, ¬ (row.getD key.index .null).isNan → Sortable [key] row :=
        fun h => List.forall_mem_singleton.mpr h
      obtain ⟨hltab, heqab⟩ := compareRows_single key (hfirst ha.1) (hfirst hb.1)
      obtain ⟨hltbc, heqbc⟩ := compareRows_single key (hfirst hb.1) (hfirst hc.1)
      obtain ⟨hltac, heqac⟩ := compareRows_single key (hfirst ha.1) (hfirst hc.1)
      rw [compareRows_cons] at hab hbc ⊢
      cases hfirstab : compareRows a b [key] with
      | gt => rw [hfirstab] at hab; exact absurd rfl hab
      | lt =>
          have hlt := hltab.mp hfirstab
          cases hfirstbc : compareRows b c [key] with
          | gt => rw [hfirstbc] at hbc; exact absurd rfl hbc
          | eq =>
              rw [hltac.mpr (heqbc.mp hfirstbc ▸ hlt)]
              simp
          | lt =>
              have hlt' := hltbc.mp hfirstbc
              have hac : compareRows a c [key] = .lt := by
                rw [hltac]
                revert hlt hlt'
                cases key.descending with
                | true => exact fun hlt hlt' => hlt'.trans hlt
                | false => exact fun hlt hlt' => hlt.trans hlt'
              rw [hac]
              simp
      | eq =>
          have heq := heqab.mp hfirstab
          rw [hfirstab] at hab
          cases hfirstbc : compareRows b c [key] with
          | gt => rw [hfirstbc] at hbc; exact absurd rfl hbc
          | lt =>
              rw [hltac.mpr (heq ▸ hltbc.mp hfirstbc)]
              simp
          | eq =>
              rw [hfirstbc] at hbc
              rw [heqac.mpr (heq.trans (heqbc.mp hfirstbc))]
              exact ih ha.2 hb.2 hc.2 hab hbc

/-- ORDER BY is a total preorder of the rows without a NaN. -/
theorem compareRows_orders (keys : List BoundOrderKey) :
    OrdersOn (Sortable keys) fun a b => compareRows a b keys ≠ .gt := by
  constructor
  · intro a b c ha hb hc hab hbc
    rw [decide_eq_true_eq] at hab hbc ⊢
    exact compareRows_trans ha hb hc hab hbc
  · intro a b ha hb
    simp only [decide_eq_true_eq]
    rw [compareRows_swap ha hb]
    cases compareRows a b keys <;> simp

/-- Rows in order by some keys are in order by the first of them. -/
theorem compareRows_prefix {more : List BoundOrderKey} (h : compareRows a b (keys ++ more) ≠ .gt) :
    compareRows a b keys ≠ .gt := by
  induction keys with
  | nil => simp [compareRows]
  | cons key keys ih =>
      rw [List.cons_append, compareRows_cons] at h
      rw [compareRows_cons]
      cases hfirst : compareRows a b [key] with
      | lt => simp
      | eq =>
          rw [hfirst] at h
          exact ih h
      | gt =>
          rw [hfirst] at h
          exact absurd rfl h

end Compare

/-! ## Operators -/

section Operators

variable {ops : FloatOps} {s : PageStore} {sameRow : List Value → List Value → Bool} {operator : Operator}
  {outer : List Value} {rows : List (List Value)}

theorem distinctPulls_ok (seen rows : List (List Value)) :
    distinctPulls sameRow seen (rows.map .ok) = (distinctFrom sameRow seen rows).map .ok := by
  induction rows generalizing seen with
  | nil => rfl
  | cons row rows ih =>
      rw [List.map_cons, distinctPulls, distinctFrom]
      split
      · exact ih seen
      · rw [List.map_cons, ih]

theorem takePulls_ok (n : Nat) (rows : List (List Value)) : takePulls n (rows.map .ok) = (rows.take n).map .ok := by
  induction n generalizing rows with
  | zero => simp [takePulls]
  | succ n ih =>
      cases rows with
      | nil => rfl
      | cons row rows => rw [List.map_cons, takePulls, ih, List.take_succ_cons, List.map_cons]

/-- What LIMIT and OFFSET leave. -/
def limited (limit : Option Nat) (offset : Nat) (rows : List (List Value)) : List (List Value) :=
  match limit with
  | none => rows.drop offset
  | some n => (rows.drop offset).take n

theorem limitPulls_ok (limit : Option Nat) (offset : Nat) (rows : List (List Value)) :
    limitPulls limit offset (rows.map .ok) = (limited limit offset rows).map .ok := by
  induction offset generalizing rows with
  | zero =>
      cases limit with
      | none => rfl
      | some n => exact takePulls_ok n rows
  | succ offset ih =>
      cases rows with
      | nil => cases limit <;> simp [limitPulls, limited]
      | cons row rows =>
          rw [List.map_cons, limitPulls, ih]
          cases limit <;> rfl

theorem mapM_id_ok (rows : List (List Value)) :
    (rows.map (Except.ok : List Value → Pull)).mapM id = .ok rows := by
  induction rows with
  | nil => rfl
  | cons row rows ih =>
      rw [List.map_cons, List.mapM_cons, ih]
      rfl

theorem sortPulls_ok {keys : List BoundOrderKey} (hlen : rows.length ≤ maxSortRows) :
    sortPulls keys (rows.map .ok) = (rows.mergeSort fun a b => compareRows a b keys ≠ .gt).map .ok := by
  have htake : (rows.map (Except.ok : List Value → Pull)).take (maxSortRows + 1) = rows.map .ok := by
    apply List.take_of_length_le
    rw [List.length_map]
    omega
  rw [sortPulls, htake, mapM_id_ok]
  simp only
  rw [if_neg (by omega)]

/-- A row that is read back by the positions of its first columns. -/
theorem mapM_columns {row : List Value} {n : Nat} (h : n ≤ row.length) :
    ((List.range n).map fun i => BoundExpression.column ⟨i, "", .integer, 0⟩).mapM (evaluate ops row) =
      .ok (row.take n) := by
  rw [mapM_eq_ok_iff, List.forall₂_map_left_iff]
  refine List.forall₂_iff_get.mpr ⟨by simp [h], fun i hi hi' => ?_⟩
  rw [List.length_range] at hi
  have hlt : i < row.length := by omega
  simp [evaluate, List.getElem?_eq_getElem hlt]

theorem strip_pulls {n : Nat} (hpulls : operator.pulls ops s sameRow outer = rows.map .ok)
    (hlen : ∀ row ∈ rows, n ≤ row.length) :
    (operator.stripHiddenColumns n).pulls ops s sameRow outer = (rows.map (·.take n)).map .ok := by
  rw [Operator.stripHiddenColumns, Operator.pulls, hpulls, List.map_map, List.map_map]
  apply List.map_congr_left
  intro row hrow
  exact mapM_columns (hlen row hrow)

/-- The tail of a SELECT sorts what comes, takes the columns of the select list, and cuts. -/
theorem applyOrderLimit_pulls {orderBy : List BoundOrderKey} {hidden : List BoundExpression} {visible : Nat}
    {skip : Bool} (limit : Option Nat) (offset : Nat) (hpulls : operator.pulls ops s sameRow outer = rows.map .ok)
    (hwidth : ∀ row ∈ rows, row.length = visible + hidden.length) (hsortable : ∀ row ∈ rows, Sortable orderBy row)
    (hheld : orderBy ≠ [] → rows.length ≤ maxSortRows)
    (hskip : skip = true → rows.Pairwise fun a b => compareRows a b orderBy ≠ .gt) :
    ∃ sorted : List (List Value), sorted.Perm rows ∧ sorted.Pairwise (fun a b => compareRows a b orderBy ≠ .gt) ∧
      (operator.applyOrderLimit visible orderBy hidden limit offset skip).pulls ops s sameRow outer =
        (limited limit offset (sorted.map (·.take visible))).map .ok := by
  -- the rows in order, and the tree that gives them
  obtain ⟨sorted, hperm, hpairwise, hsorted⟩ : ∃ sorted : List (List Value), sorted.Perm rows ∧
      sorted.Pairwise (fun a b => compareRows a b orderBy ≠ .gt) ∧
      (if orderBy ≠ [] ∧ skip = false then Operator.sort operator orderBy else operator).pulls ops s sameRow outer =
        sorted.map .ok := by
    by_cases hsort : orderBy ≠ [] ∧ skip = false
    · rw [if_pos hsort]
      refine ⟨rows.mergeSort fun a b => compareRows a b orderBy ≠ .gt, List.mergeSort_perm _ _, ?_, ?_⟩
      · simpa using (compareRows_orders orderBy).pairwise_mergeSort hsortable
      · rw [Operator.pulls, hpulls, sortPulls_ok (hheld hsort.1)]
    · rw [if_neg hsort]
      refine ⟨rows, List.Perm.refl _, ?_, hpulls⟩
      by_cases hnone : orderBy = []
      · subst hnone
        exact List.pairwise_of_forall fun a b => by simp [compareRows]
      · apply hskip
        simpa [hnone] using hsort
  have hlen : ∀ row ∈ sorted, row.length = visible + hidden.length := fun row hrow => hwidth row (hperm.mem_iff.mp hrow)
  generalize hsource : (if orderBy ≠ [] ∧ skip = false then Operator.sort operator orderBy else operator) = source at hsorted
  -- the columns of the select list
  have hstripped : (if hidden ≠ [] then source.stripHiddenColumns visible else source).pulls ops s sameRow outer =
      (sorted.map (·.take visible)).map .ok := by
    by_cases hhidden : hidden ≠ []
    · rw [if_pos hhidden]
      exact strip_pulls hsorted fun row hrow => by rw [hlen row hrow]; exact Nat.le_add_right ..
    · rw [if_neg hhidden, hsorted]
      congr 1
      have hid : sorted.map (·.take visible) = sorted.map id := by
        apply List.map_congr_left
        intro row hrow
        have hnil : hidden = [] := not_not.mp hhidden
        simp [hlen row hrow, hnil]
      rw [hid, List.map_id]
  refine ⟨sorted, hperm, hpairwise, ?_⟩
  simp only [Operator.applyOrderLimit, hsource]
  generalize (if hidden ≠ [] then source.stripHiddenColumns visible else source) = stripped at hstripped
  by_cases hcut : limit.isSome = true ∨ offset ≠ 0
  · rw [if_pos hcut, Operator.pulls, hstripped, limitPulls_ok]
  · rw [if_neg hcut, hstripped]
    obtain ⟨hlimit, hoffset⟩ := not_or.mp hcut
    obtain rfl : limit = none := by simpa using hlimit
    obtain rfl : offset = 0 := by omega
    rfl

end Operators

end QuillDb
