/-
  Exec/SeekBounds.lean --- the bounds that an index scan makes of its seek terms.

  Source: `IndexScan.open` of `quilldb/exec/operators.py`, and the comparisons of
  `quilldb/exec/expressions.py`.

  The terms of a direction are folded to the tightest one.  What the fold lets
  through is compared here with what the terms let through one by one.
-/
import QuillDb.BTree.Seek
import QuillDb.Exec.Expressions
import QuillDb.Plan.Planner
import Mathlib.Data.List.Induction

set_option autoImplicit false

namespace QuillDb

/-! ## The source -/

/-- `low_bound`, `low_inclusive`, `high_bound` and `high_inclusive`. -/
structure SeekBounds where
  lowBound : List Value := []
  lowInclusive : Bool := true
  highBound : List Value := []
  highInclusive : Bool := true
  deriving DecidableEq

/-- The body of the loop over the seek terms. -/
def SeekBounds.tighten (b : SeekBounds) (operator : SeekOperator) (value : Value) : SeekBounds :=
  if operator = .lt ∨ operator = .le then
    if b.highBound = [] ∨ compareKeys [value] b.highBound = .lt then
      { b with highBound := [value], highInclusive := operator = .le }
    else if compareKeys [value] b.highBound = .eq ∧ operator = .lt then
      { b with highInclusive := false }
    else b
  else if operator = .gt ∨ operator = .ge then
    if b.lowBound = [] ∨ compareKeys [value] b.lowBound = .gt then
      { b with lowBound := [value], lowInclusive := operator = .ge }
    else if compareKeys [value] b.lowBound = .eq ∧ operator = .gt then
      { b with lowInclusive := false }
    else b
  else b

/-- `equality_prefix + bound if (equality_prefix or bound) else None`. -/
def seekProbe (equalityPrefix bound : List Value) : Option (List Value) :=
  if equalityPrefix = [] ∧ bound = [] then none else some (equalityPrefix ++ bound)

/-! ## What a term says -/

/-- A seek term with its value. -/
structure SeekTerm where
  operator : SeekOperator
  value : Value
  deriving DecidableEq

/-- The comparison that an operator stands for; IS is none of them. -/
def SeekOperator.comparison : SeekOperator → Option BinaryOperator
  | .eq => some .eq
  | .is => none
  | .lt => some .lt
  | .le => some .le
  | .gt => some .gt
  | .ge => some .ge
  | .like => some .like

/-- The term is TRUE of a value of its column. -/
def SeekTerm.passes (ops : FloatOps) (t : SeekTerm) (cell : Value) : Bool :=
  match t.operator.comparison with
  | none => cell.pyEq t.value
  | some operator =>
      match binary ops operator cell t.value with
      | .ok result => wherePasses result
      | .error _ => false

/-- A bound from above. -/
def SeekTerm.isUpper (t : SeekTerm) : Bool := t.operator = .lt || t.operator = .le

/-- A bound from below. -/
def SeekTerm.isLower (t : SeekTerm) : Bool := t.operator = .gt || t.operator = .ge

def uppers (ts : List SeekTerm) : List SeekTerm := ts.filter SeekTerm.isUpper

def lowers (ts : List SeekTerm) : List SeekTerm := ts.filter SeekTerm.isLower

section Passes

variable {ops : FloatOps} {cell value : Value}

theorem Value.rank_eq_zero {v : Value} (h : v.rank = 0) : v = .null := by
  cases v <;> first | rfl | cases h

theorem compare_eq_pyEq {a b : Value} : compareKeys [a] [b] = .eq ↔ a.pyEq b = true := by
  rw [compareKeys]
  by_cases h : a.pyEq b = true
  · rw [if_pos h]
    exact iff_of_true rfl h
  · rw [if_neg h]
    refine iff_of_false (fun heq => ?_) h
    split at heq <;> split at heq <;> cases heq

theorem pyEq_comm (a b : Value) : a.pyEq b = b.pyEq a := by
  rw [Bool.eq_iff_iff, ← compare_eq_pyEq, ← compare_eq_pyEq, Value.compare_eq_iff, Value.compare_eq_iff]
  constructor
  · rintro ⟨ha, hb, h⟩
    exact ⟨hb, ha, h.symm⟩
  · rintro ⟨ha, hb, h⟩
    exact ⟨hb, ha, h.symm⟩

/-- Below, by storage class or within it. -/
theorem compare_lt_pyLt {a b : Value} : compareKeys [a] [b] = .lt ↔
    a.rank < b.rank ∨ a.rank = b.rank ∧ a.pyLt b = true := by
  rw [Value.compare_lt_iff]
  by_cases hrank : a.rank = b.rank
  · by_cases hnan : a.isNan ∨ b.isNan
    · rw [Value.pyLt_of_isNan hnan hrank]
      refine iff_of_false ?_ ?_
      · rintro (h | h)
        · omega
        · exact hnan.elim h.1 h.2.1
      · rintro (h | h)
        · omega
        · cases h.2
    · obtain ⟨ha, hb⟩ := not_or.mp hnan
      rw [Value.pyLt_iff ha hb hrank]
      exact ⟨fun h => h.imp_right fun h => ⟨hrank, h.2.2⟩, fun h => h.imp_right fun h => ⟨ha, hb, h.2⟩⟩
  · constructor
    · rintro (h | ⟨-, -, h⟩)
      · exact .inl h
      · exact .inl (lt_of_le_of_ne (Value.rank_le_of_place_le h.le) hrank)
    · rintro (h | h)
      · exact .inl h
      · exact absurd h.1 hrank

theorem int_pyEq (m n : Int) : (Value.int m).pyEq (.int n) = decide (m = n) := by
  have h : (Value.int m).pyEq (.int n) = decide (Number.finite (m * 2 ^ 1074) = .finite (n * 2 ^ 1074)) :=
    rfl
  rw [h, decide_eq_decide, Number.finite.injEq]
  exact ⟨fun h => Int.eq_of_mul_eq_mul_right (Int.ne_of_gt (Int.pow_pos (by decide))) h,
    fun h => h ▸ rfl⟩

theorem int_pyLt (m n : Int) : (Value.int m).pyLt (.int n) = decide (m < n) := by
  have h : (Value.int m).pyLt (.int n) = decide (m * 2 ^ 1074 < n * 2 ^ 1074) := rfl
  rw [h, decide_eq_decide]
  exact Int.mul_lt_mul_right (Int.pow_pos (by decide))

theorem wherePasses_ofBool (flag : Bool) : wherePasses (ofBool flag) = flag := by
  have htruth : ∀ n : Int, wherePasses (.int n) = !decide (n = 0) := by
    intro n
    rw [← int_pyEq]
    have hwhere : wherePasses (.int n) = decide (some (!(Value.int n).pyEq (.int 0)) = some true) := rfl
    rw [hwhere, Bool.eq_iff_iff, decide_eq_true_eq, Option.some_inj]
  unfold ofBool
  rw [htruth]
  cases flag <;> rfl

/-- `_compare` is `compare_keys` of one column, the other way round for `>` and `>=`. -/
theorem compareValues_eq (a b : Value) :
    compareValues .eq a b = .ok (compareKeys [a] [b] = .eq) ∧
      compareValues .lt a b = .ok (compareKeys [a] [b] = .lt) ∧
      compareValues .gt a b = .ok (compareKeys [b] [a] = .lt) := by
  have hint : ∀ m n : Nat, (Value.int m).pyEq (.int n) = decide (m = n) ∧
      (Value.int m).pyLt (.int n) = decide (m < n) := by
    intro m n
    rw [int_pyEq, int_pyLt]
    exact ⟨decide_eq_decide.mpr Int.ofNat_inj, decide_eq_decide.mpr Int.ofNat_lt⟩
  unfold compareValues
  by_cases hrank : a.rank = b.rank
  · rw [if_neg (not_not.mpr hrank), if_neg (not_not.mpr hrank), if_neg (not_not.mpr hrank)]
    refine ⟨congrArg Except.ok ?_, congrArg Except.ok ?_, congrArg Except.ok ?_⟩
    · rw [Bool.eq_iff_iff, decide_eq_true_eq, compare_eq_pyEq]
    · rw [Bool.eq_iff_iff, decide_eq_true_eq, compare_lt_pyLt]
      exact ⟨fun h => .inr ⟨hrank, h⟩, fun h => (h.resolve_left (by omega)).2⟩
    · rw [Bool.eq_iff_iff, decide_eq_true_eq, compare_lt_pyLt]
      exact ⟨fun h => .inr ⟨hrank.symm, h⟩, fun h => (h.resolve_left (by omega)).2⟩
  · rw [if_pos hrank, if_pos hrank, if_pos hrank]
    refine ⟨congrArg Except.ok ?_, congrArg Except.ok ?_, congrArg Except.ok ?_⟩
    · rw [(hint _ _).1, decide_eq_false hrank, eq_comm, decide_eq_false_iff_not, compare_eq_pyEq,
        Value.pyEq_of_rank_ne hrank]
      exact Bool.false_ne_true
    · rw [(hint _ _).2, decide_eq_decide, compare_lt_pyLt]
      exact ⟨.inl, fun h => h.resolve_right fun h => hrank h.1⟩
    · rw [(hint _ _).2, decide_eq_decide, compare_lt_pyLt]
      exact ⟨.inl, fun h => h.resolve_right fun h => hrank h.1.symm⟩

theorem compareValues_le (a b : Value) :
    compareValues .le a b = .ok (compareKeys [a] [b] = .lt || compareKeys [a] [b] = .eq) ∧
      compareValues .ge a b = .ok (compareKeys [b] [a] = .lt || compareKeys [b] [a] = .eq) := by
  have hsymm : ∀ x y : Value, (decide (compareKeys [x] [y] = .eq)) = decide (compareKeys [y] [x] = .eq) :=
    fun x y => decide_eq_decide.mpr (by rw [compare_eq_pyEq, compare_eq_pyEq, pyEq_comm])
  obtain ⟨heq, hlt, hgt⟩ := compareValues_eq a b
  unfold compareValues at heq hlt hgt ⊢
  split at heq
  · rename_i hrank
    rw [if_pos hrank] at hlt hgt
    rw [if_pos hrank, if_pos hrank, hsymm b a]
    have heq := Except.ok.inj heq
    have hlt := Except.ok.inj hlt
    have hgt := Except.ok.inj hgt
    exact ⟨congrArg Except.ok (by rw [← heq, ← hlt]), congrArg Except.ok (by rw [← heq, ← hgt])⟩
  · rename_i hrank
    rw [if_neg hrank] at hlt hgt
    rw [if_neg hrank, if_neg hrank, hsymm b a]
    have heq := Except.ok.inj heq
    have hlt := Except.ok.inj hlt
    have hgt := Except.ok.inj hgt
    exact ⟨congrArg Except.ok (by rw [← heq, ← hlt]), congrArg Except.ok (by rw [← heq, ← hgt])⟩

/-- A comparison with NULL is not TRUE. -/
theorem passes_null {t : SeekTerm} (hop : t.operator ≠ .is) (h : cell = .null ∨ t.value = .null) :
    t.passes ops cell = false := by
  obtain ⟨operator, v⟩ := t
  have hbinary : ∀ o, binary ops o cell v = .ok .null := fun o => if_pos h
  unfold SeekTerm.passes
  cases operator <;> simp only [SeekOperator.comparison, hbinary] <;> first | rfl | exact absurd rfl hop

/-- A comparison of other values. -/
theorem passes_of_compare {operator : SeekOperator} {o : BinaryOperator} {flag : Bool}
    (hop : operator.comparison = some o) (hcell : cell ≠ .null)
    (hvalue : value ≠ .null) (hcompare : compareValues o cell value = .ok flag) :
    (⟨operator, value⟩ : SeekTerm).passes ops cell = flag := by
  have hnull : ¬ (cell = .null ∨ value = .null) := not_or.mpr ⟨hcell, hvalue⟩
  have hbinary : binary ops o cell value = ofBool <$> compareValues o cell value := by
    cases operator <;> first | cases hop; done | obtain rfl := Option.some.inj hop
    case like =>
      unfold compareValues applyOrdering at hcompare
      split at hcompare <;> cases hcompare
    all_goals exact if_neg hnull
  unfold SeekTerm.passes
  rw [hop]
  simp only
  rw [hbinary, hcompare]
  exact wherePasses_ofBool flag

theorem passes_equality {t : SeekTerm} (hop : t.operator.isEquality = true)
    (hvalue : t.operator ≠ .is → t.value ≠ .null) :
    t.passes ops cell = true ↔ compareKeys [t.value] [cell] = .eq := by
  obtain ⟨operator, v⟩ := t
  cases operator with
  | is =>
      rw [compare_eq_pyEq, pyEq_comm]
      exact Iff.rfl
  | eq =>
      have hv : v ≠ .null := hvalue SeekOperator.noConfusion
      by_cases hcell : cell = .null
      · rw [@passes_null ops cell ⟨.eq, v⟩ nofun (.inl hcell), compare_eq_pyEq, hcell]
        refine iff_of_false Bool.false_ne_true ?_
        rw [Value.pyEq_of_rank_ne fun h => hv (Value.rank_eq_zero h)]
        exact Bool.false_ne_true
      · rw [passes_of_compare rfl hcell hv (compareValues_eq _ _).1,
          decide_eq_true_eq, compare_eq_pyEq, compare_eq_pyEq, pyEq_comm]
  | lt => cases hop
  | le => cases hop
  | gt => cases hop
  | ge => cases hop
  | like => cases hop

theorem compare_null {v : Value} (hv : v ≠ .null) : compareKeys [v] [.null] = .gt := by
  cases v <;> first | rfl | exact absurd rfl hv

theorem passes_lower {t : SeekTerm} (hop : t.isLower = true) (hvalue : t.value ≠ .null) :
    t.passes ops cell = true ↔ compareKeys [t.value] [cell] = .lt ∨
      t.operator = .ge ∧ compareKeys [t.value] [cell] = .eq := by
  obtain ⟨operator, v⟩ := t
  have hnull : cell = .null → compareKeys [v] [cell] = .gt := fun h => h ▸ compare_null hvalue
  have hoff : cell = .null → (⟨operator, v⟩ : SeekTerm).passes ops cell = false :=
    fun h => passes_null (by cases operator <;> first | cases hop; done | nofun) (.inl h)
  by_cases hcell : cell = .null
  · rw [hoff hcell, hnull hcell]
    refine iff_of_false Bool.false_ne_true ?_
    rintro (h | ⟨-, h⟩) <;> cases h
  · have hvalue : v ≠ .null := hvalue
    cases operator with
    | gt =>
        rw [passes_of_compare rfl hcell hvalue (compareValues_eq _ _).2.2, decide_eq_true_eq]
        exact ⟨.inl, fun h => h.resolve_right nofun⟩
    | ge =>
        rw [passes_of_compare rfl hcell hvalue (compareValues_le _ _).2, Bool.or_eq_true,
          decide_eq_true_eq, decide_eq_true_eq]
        exact ⟨fun h => h.imp_right fun h => ⟨rfl, h⟩, fun h => h.imp_right And.right⟩
    | eq => cases hop
    | is => cases hop
    | lt => cases hop
    | le => cases hop
    | like => cases hop

theorem passes_upper {t : SeekTerm} (hop : t.isUpper = true) (hvalue : t.value ≠ .null) :
    t.passes ops cell = true ↔ cell ≠ .null ∧ (compareKeys [cell] [t.value] = .lt ∨
      t.operator = .le ∧ compareKeys [cell] [t.value] = .eq) := by
  obtain ⟨operator, v⟩ := t
  by_cases hcell : cell = .null
  · rw [passes_null (by cases operator <;> first | cases hop; done | nofun) (.inl hcell)]
    exact iff_of_false Bool.false_ne_true fun h => h.1 hcell
  · have hvalue : v ≠ .null := hvalue
    rw [and_iff_right hcell]
    cases operator with
    | lt =>
        rw [passes_of_compare rfl hcell hvalue (compareValues_eq _ _).2.1, decide_eq_true_eq]
        exact ⟨.inl, fun h => h.resolve_right nofun⟩
    | le =>
        rw [passes_of_compare rfl hcell hvalue (compareValues_le _ _).1, Bool.or_eq_true,
          decide_eq_true_eq, decide_eq_true_eq]
        exact ⟨fun h => h.imp_right fun h => ⟨rfl, h⟩, fun h => h.imp_right And.right⟩
    | eq => cases hop
    | is => cases hop
    | gt => cases hop
    | ge => cases hop
    | like => cases hop

end Passes

/-! ## Comparisons of three values -/

section Compare

variable {a b c v w : Value}

theorem compare_gt_cases (h : compareKeys [v] [w] = .gt) :
    compareKeys [w] [v] = .lt ∨ v.rank = w.rank ∧ (v.isNan ∨ w.isNan) := by
  by_cases hnan : v.isNan ∨ w.isNan
  · by_cases hrank : v.rank = w.rank
    · exact .inr ⟨hrank, hnan⟩
    · rw [Value.compare_of_isNan hnan] at h
      split at h
      · cases h
      · exact .inl (Value.compare_lt_iff.mpr (.inl (by omega)))
  · obtain ⟨hv, hw⟩ := not_or.mp hnan
    have hcases := Value.compare_cases hv hw
    rw [h] at hcases
    exact .inl (Value.compare_lt_iff.mpr (.inr ⟨hw, hv, hcases⟩))

/-- Without a NaN among numbers a comparison can be turned round. -/
theorem compare_swap (h : a.rank = b.rank → ¬ (a.isNan ∨ b.isNan)) :
    (compareKeys [a] [b] = .gt ↔ compareKeys [b] [a] = .lt) ∧
      (compareKeys [a] [b] = .eq ↔ compareKeys [b] [a] = .eq) := by
  have hsymm : compareKeys [a] [b] = .eq ↔ compareKeys [b] [a] = .eq := by
    rw [compare_eq_pyEq, compare_eq_pyEq, pyEq_comm]
  refine ⟨⟨fun hgt => (compare_gt_cases hgt).resolve_right fun h' => h h'.1 h'.2, fun hlt => ?_⟩, hsymm⟩
  cases hab : compareKeys [a] [b] with
  | gt => rfl
  | eq =>
      rw [hsymm.mp hab] at hlt
      cases hlt
  | lt =>
      have htrans := (@Value.compare_trans a b a (by rw [hlt]; nofun)).1 hab
      have hself : compareKeys [a] [a] ≠ .lt := by
        rw [Ne, Value.compare_lt_iff]
        rintro (h | h)
        · omega
        · exact lt_irrefl _ h.2.2
      exact absurd htrans hself

theorem compare_congr (h : compareKeys [v] [w] = .eq) (c : Value) :
    compareKeys [v] [c] = compareKeys [w] [c] := by
  have h' : compareKeys [w] [v] = .eq := by rwa [compare_eq_pyEq, pyEq_comm, ← compare_eq_pyEq]
  by_cases hw : compareKeys [w] [c] = .gt
  · by_cases hv : compareKeys [v] [c] = .gt
    · rw [hv, hw]
    · exact ((Value.compare_trans hv).2 h').symm
  · exact (Value.compare_trans hw).2 h

theorem rank_le_of_compare (h : compareKeys [a] [b] ≠ .gt) : a.rank ≤ b.rank := by
  cases hab : compareKeys [a] [b] with
  | gt => exact absurd hab h
  | eq => exact Value.rank_le_of_place_le (Value.compare_eq_iff.mp hab).2.2.le
  | lt =>
      rcases Value.compare_lt_iff.mp hab with hlt | ⟨-, -, hlt⟩
      · exact hlt.le
      · exact Value.rank_le_of_place_le hlt.le

theorem compare_gt_of_rank (h : b.rank < a.rank) : compareKeys [a] [b] = .gt := by
  cases hab : compareKeys [a] [b] with
  | gt => rfl
  | eq => exact absurd (rank_le_of_compare (by rw [hab]; nofun)) (Nat.not_le.mpr h)
  | lt => exact absurd (rank_le_of_compare (by rw [hab]; nofun)) (Nat.not_le.mpr h)

/-- What is not above a bound is past one that the bound is above, unless a NaN gives way. -/
theorem compare_lt_of_gt (h : compareKeys [v] [w] = .gt) (hnan : ¬ (w.isNan ∧ v.rank = 1 ∧ c.rank = 1))
    (hle : compareKeys [v] [c] ≠ .gt) : compareKeys [w] [c] = .lt := by
  rcases compare_gt_cases h with hlt | ⟨hrank, hvnan | hwnan⟩
  · exact (Value.compare_trans hle).1 hlt
  · rw [Value.compare_of_isNan (.inl hvnan)] at hle
    split at hle
    · rename_i hlt
      exact Value.compare_lt_iff.mpr (.inl (hrank ▸ hlt))
    · exact absurd rfl hle
  · have hone := Value.rank_of_isNan hwnan
    have hge := rank_le_of_compare hle
    have hc : c.rank ≠ 1 := fun h => hnan ⟨hwnan, hrank.trans hone, h⟩
    exact Value.compare_lt_iff.mpr (.inl (by omega))

/-- A bound lets through what it compares `past`, which is less for a lower bound and
greater for an upper one, and what is equal to it if it is inclusive. -/
def Lets (past : Ordering) (inclusive : Bool) (bound cell : Value) : Prop :=
  compareKeys [bound] [cell] = past ∨ compareKeys [bound] [cell] = .eq ∧ inclusive = true

theorem Lets.ne_gt {inclusive : Bool} (h : Lets .lt inclusive v c) : compareKeys [v] [c] ≠ .gt := by
  rcases h with h | ⟨h, -⟩ <;> rw [h] <;> nofun

theorem Lets.ne_lt {inclusive : Bool} (h : Lets .gt inclusive v c) : compareKeys [v] [c] ≠ .lt := by
  rcases h with h | ⟨h, -⟩ <;> rw [h] <;> nofun

/-- How a bound compares with what is past it, and with a bound that is less tight. -/
inductive Direction : Ordering → Ordering → Prop
  | lower : Direction .lt .gt
  | upper : Direction .gt .lt

/-- Of two bounds of a direction the tighter one lets through what both let through, unless
a NaN gives way. -/
theorem lets_tighter {past tighter : Ordering} (hdirection : Direction past tighter) {vinc winc : Bool}
    (hnan : ¬ (w.isNan ∧ v.rank = 1 ∧ c.rank = 1)) :
    (if compareKeys [v] [w] = tighter then Lets past vinc v c
      else if compareKeys [v] [w] = .eq ∧ vinc = false then Lets past false w c
      else Lets past winc w c) ↔ Lets past winc w c ∧ Lets past vinc v c := by
  split
  · rename_i htaken
    refine ⟨fun hv => ⟨.inl ?_, hv⟩, And.right⟩
    cases hdirection with
    | lower => exact compare_lt_of_gt htaken hnan hv.ne_gt
    | upper =>
        by_contra hle
        exact hv.ne_lt ((Value.compare_trans hle).1 htaken)
  · rename_i htaken
    split
    · rename_i htie
      rw [Lets, Lets, Lets, compare_congr htie.1, htie.2]
      simp only [Bool.false_eq_true, and_false, or_false]
      exact ⟨fun h => ⟨.inl h, h⟩, And.right⟩
    · rename_i htie
      refine ⟨fun hw => ⟨hw, ?_⟩, And.left⟩
      cases hcmp : compareKeys [v] [w] with
      | eq =>
          rw [Lets, compare_congr hcmp]
          refine hw.imp_right fun h => ⟨h.1, ?_⟩
          exact Bool.eq_true_of_not_eq_false fun hstrict => htie ⟨hcmp, hstrict⟩
      | lt =>
          cases hdirection with
          | lower => exact .inl ((Value.compare_trans hw.ne_gt).1 hcmp)
          | upper => exact absurd hcmp htaken
      | gt =>
          cases hdirection with
          | lower => exact absurd hcmp htaken
          | upper =>
              left
              by_contra hle
              exact hw.ne_lt (compare_lt_of_gt hcmp hnan hle)

end Compare

/-! ## One step of the fold -/

/-- What `compare_keys` lets a term let through. -/
def SeekTerm.admits (t : SeekTerm) (cell : Value) : Bool :=
  if t.isUpper then
    compareKeys [t.value] [cell] = .gt || (compareKeys [t.value] [cell] = .eq && t.operator = .le)
  else compareKeys [t.value] [cell] = .lt || (compareKeys [t.value] [cell] = .eq && t.operator = .ge)

namespace SeekBounds

/-- What the lower bound lets through. -/
def admitsLow (b : SeekBounds) (cell : Value) : Bool :=
  aboveLow (seekProbe [] b.lowBound) b.lowInclusive [cell]

/-- What the upper bound lets through. -/
def admitsHigh (b : SeekBounds) (cell : Value) : Bool :=
  belowHigh (seekProbe [] b.highBound) b.highInclusive [cell]

theorem admitsLow_iff {b : SeekBounds} {w cell : Value} (h : b.lowBound = [w]) :
    b.admitsLow cell = true ↔ compareKeys [w] [cell] = .lt ∨
      compareKeys [w] [cell] = .eq ∧ b.lowInclusive = true := by
  rw [admitsLow, h, seekProbe, if_neg (fun h => by cases h.2), aboveLow, Option.all_some,
    List.nil_append, Bool.or_eq_true, Bool.and_eq_true, decide_eq_true_eq, decide_eq_true_eq]

theorem admitsHigh_iff {b : SeekBounds} {w cell : Value} (h : b.highBound = [w]) :
    b.admitsHigh cell = true ↔ compareKeys [w] [cell] = .gt ∨
      compareKeys [w] [cell] = .eq ∧ b.highInclusive = true := by
  rw [admitsHigh, h, seekProbe, if_neg (fun h => by cases h.2), belowHigh, Option.all_some,
    List.nil_append, Bool.or_eq_true, Bool.and_eq_true, decide_eq_true_eq, decide_eq_true_eq]

/-- `tighten` with a term. -/
abbrev add (b : SeekBounds) (t : SeekTerm) : SeekBounds := b.tighten t.operator t.value

end SeekBounds

section Step

variable {b : SeekBounds} {t : SeekTerm} {w c : Value}

theorem SeekTerm.admits_lower (ht : t.isLower = true) : t.admits c = true ↔
    compareKeys [t.value] [c] = .lt ∨ compareKeys [t.value] [c] = .eq ∧ t.operator = .ge := by
  have hupper : t.isUpper = false := by
    obtain ⟨operator, v⟩ := t
    cases operator <;> first | rfl | cases ht
  rw [admits, hupper, if_neg Bool.false_ne_true, Bool.or_eq_true, Bool.and_eq_true, decide_eq_true_eq,
    decide_eq_true_eq, decide_eq_true_eq]

theorem SeekTerm.admits_upper (ht : t.isUpper = true) : t.admits c = true ↔
    compareKeys [t.value] [c] = .gt ∨ compareKeys [t.value] [c] = .eq ∧ t.operator = .le := by
  rw [admits, if_pos ht, Bool.or_eq_true, Bool.and_eq_true, decide_eq_true_eq,
    decide_eq_true_eq, decide_eq_true_eq]

/-- A lower term, beside the lower bound so far. -/
theorem add_lower (ht : t.isLower = true) : b.add t =
    if b.lowBound = [] ∨ compareKeys [t.value] b.lowBound = .gt then
      { b with lowBound := [t.value], lowInclusive := t.operator = .ge }
    else if compareKeys [t.value] b.lowBound = .eq ∧ t.operator = .gt then
      { b with lowInclusive := false }
    else b := by
  obtain ⟨operator, v⟩ := t
  cases operator <;> first | rfl | cases ht

theorem add_upper (ht : t.isUpper = true) : b.add t =
    if b.highBound = [] ∨ compareKeys [t.value] b.highBound = .lt then
      { b with highBound := [t.value], highInclusive := t.operator = .le }
    else if compareKeys [t.value] b.highBound = .eq ∧ t.operator = .lt then
      { b with highInclusive := false }
    else b := by
  obtain ⟨operator, v⟩ := t
  cases operator <;> first | rfl | cases ht

/-- A bound that is taken. -/
theorem admitsLow_taken (ht : t.isLower = true)
    (h : b.lowBound = [] ∨ compareKeys [t.value] b.lowBound = .gt) :
    (b.add t).admitsLow c = t.admits c := by
  rw [add_lower ht, if_pos h, Bool.eq_iff_iff, SeekTerm.admits_lower ht,
    SeekBounds.admitsLow_iff (w := t.value) rfl, decide_eq_true_eq]

theorem admitsHigh_taken (ht : t.isUpper = true)
    (h : b.highBound = [] ∨ compareKeys [t.value] b.highBound = .lt) :
    (b.add t).admitsHigh c = t.admits c := by
  rw [add_upper ht, if_pos h, Bool.eq_iff_iff, SeekTerm.admits_upper ht,
    SeekBounds.admitsHigh_iff (w := t.value) rfl, decide_eq_true_eq]

/-- A lower term narrows what the bound lets through to what it lets through itself,
unless it displaces a NaN. -/
theorem admitsLow_add (ht : t.isLower = true) (hbound : b.lowBound = [w])
    (hnan : ¬ (w.isNan ∧ t.value.rank = 1 ∧ c.rank = 1)) :
    (b.add t).admitsLow c = true ↔ b.admitsLow c = true ∧ t.admits c = true := by
  have hstrict : t.operator = .gt ↔ decide (t.operator = .ge) = false := by
    have hop : t.operator = .gt ∨ t.operator = .ge := by simpa [SeekTerm.isLower] using ht
    rcases hop with h | h <;> rw [h] <;> decide
  rw [SeekBounds.admitsLow_iff hbound, SeekTerm.admits_lower ht,
    ← @decide_eq_true_iff (t.operator = .ge)]
  refine Iff.trans ?_ (lets_tighter .lower hnan)
  rw [add_lower ht, hbound]
  simp only [hstrict, List.cons_ne_nil, false_or]
  by_cases htaken : compareKeys [t.value] [w] = .gt
  · rw [if_pos htaken, if_pos htaken, SeekBounds.admitsLow_iff rfl]
    exact Iff.rfl
  · rw [if_neg htaken, if_neg htaken]
    split
    · exact SeekBounds.admitsLow_iff rfl
    · exact SeekBounds.admitsLow_iff hbound

/-- An upper term likewise, unless a NaN keeps it out. -/
theorem admitsHigh_add (ht : t.isUpper = true) (hbound : b.highBound = [w])
    (hnan : ¬ (w.isNan ∧ t.value.rank = 1 ∧ c.rank = 1)) :
    (b.add t).admitsHigh c = true ↔ b.admitsHigh c = true ∧ t.admits c = true := by
  have hstrict : t.operator = .lt ↔ decide (t.operator = .le) = false := by
    have hop : t.operator = .lt ∨ t.operator = .le := by simpa [SeekTerm.isUpper] using ht
    rcases hop with h | h <;> rw [h] <;> decide
  rw [SeekBounds.admitsHigh_iff hbound, SeekTerm.admits_upper ht,
    ← @decide_eq_true_iff (t.operator = .le)]
  refine Iff.trans ?_ (lets_tighter .upper hnan)
  rw [add_upper ht, hbound]
  simp only [hstrict, List.cons_ne_nil, false_or]
  by_cases htaken : compareKeys [t.value] [w] = .lt
  · rw [if_pos htaken, if_pos htaken, SeekBounds.admitsHigh_iff rfl]
    exact Iff.rfl
  · rw [if_neg htaken, if_neg htaken]
    split
    · exact SeekBounds.admitsHigh_iff rfl
    · exact SeekBounds.admitsHigh_iff hbound

end Step

/-! ## The fold -/

/-- The bounds after all terms. -/
def tightest (ts : List SeekTerm) : SeekBounds := ts.foldl SeekBounds.add {}

/-- No term has the value NULL. -/
def Proper (ts : List SeekTerm) : Prop := ∀ t ∈ ts, t.value ≠ .null

section Fold

variable {ts : List SeekTerm} {t : SeekTerm}

theorem tightest_concat (ts : List SeekTerm) (t : SeekTerm) :
    tightest (ts ++ [t]) = (tightest ts).add t := by
  rw [tightest, List.foldl_append]
  rfl

theorem Proper.concat (h : Proper (ts ++ [t])) : Proper ts ∧ t.value ≠ .null :=
  ⟨fun u hu => h u (List.mem_append_left _ hu), h t (List.mem_append_right _ (List.mem_singleton_self t))⟩

theorem lowers_concat : lowers (ts ++ [t]) = lowers ts ++ if t.isLower then [t] else [] := by
  rw [lowers, List.filter_append, List.filter_cons, List.filter_nil]
  rfl

theorem uppers_concat : uppers (ts ++ [t]) = uppers ts ++ if t.isUpper then [t] else [] := by
  rw [uppers, List.filter_append, List.filter_cons, List.filter_nil]
  rfl

/-- A term of the other direction leaves the lower bound. -/
theorem add_not_lower {b : SeekBounds} (h : t.isLower = false) :
    (b.add t).lowBound = b.lowBound ∧ (b.add t).lowInclusive = b.lowInclusive := by
  obtain ⟨operator, v⟩ := t
  cases operator <;> first | cases h; done | skip
  case eq => exact ⟨rfl, rfl⟩
  case is => exact ⟨rfl, rfl⟩
  case like => exact ⟨rfl, rfl⟩
  all_goals
    rw [add_upper rfl]
    split
    · exact ⟨rfl, rfl⟩
    · split <;> exact ⟨rfl, rfl⟩

theorem add_not_upper {b : SeekBounds} (h : t.isUpper = false) :
    (b.add t).highBound = b.highBound ∧ (b.add t).highInclusive = b.highInclusive := by
  obtain ⟨operator, v⟩ := t
  cases operator <;> first | cases h; done | skip
  case eq => exact ⟨rfl, rfl⟩
  case is => exact ⟨rfl, rfl⟩
  case like => exact ⟨rfl, rfl⟩
  all_goals
    rw [add_lower rfl]
    split
    · exact ⟨rfl, rfl⟩
    · split <;> exact ⟨rfl, rfl⟩

theorem lowers_concat_of (h : t.isLower = true) : lowers (ts ++ [t]) = lowers ts ++ [t] := by
  rw [lowers_concat, if_pos h]

theorem uppers_concat_of (h : t.isUpper = true) : uppers (ts ++ [t]) = uppers ts ++ [t] := by
  rw [uppers_concat, if_pos h]

/-- The lower bound is a number when all lower terms are, and a NaN when the last is. -/
inductive LowState (ts : List SeekTerm) (b : SeekBounds) : Prop
  | unbounded (hnone : lowers ts = []) (hbound : b.lowBound = []) (hinc : b.lowInclusive = true)
  | number (last : SeekTerm) (w : Value) (hlast : (lowers ts).getLast? = some last)
      (hbound : b.lowBound = [w]) (hall : ∀ t ∈ lowers ts, t.value.rank = 1) (hw : w.rank = 1)
      (hnan : w.isNan ↔ last.value.isNan)
  | other (w : Value) (u : SeekTerm) (hu : u ∈ lowers ts) (hrank : u.value.rank ≠ 1)
      (hbound : b.lowBound = [w]) (hw : 1 < w.rank)

/-- The upper bound is a number when some upper term is, and a NaN when the first of
these is. -/
inductive HighState (ts : List SeekTerm) (b : SeekBounds) : Prop
  | unbounded (hnone : uppers ts = []) (hbound : b.highBound = []) (hinc : b.highInclusive = true)
  | number (first : SeekTerm) (w : Value)
      (hfirst : (uppers ts).find? (fun t => t.value.rank = 1) = some first)
      (hbound : b.highBound = [w]) (hw : w.rank = 1) (hnan : w.isNan ↔ first.value.isNan)
  | other (w : Value) (hnone : (uppers ts).find? (fun t => t.value.rank = 1) = none)
      (hbound : b.highBound = [w]) (hw : 1 < w.rank)

theorem rank_pos {v : Value} (h : v ≠ .null) : 1 ≤ v.rank :=
  Nat.pos_of_ne_zero fun h' => h (Value.rank_eq_zero h')

/-- The bound after a lower term: the term's value or the one before. -/
theorem lowBound_add (ht : t.isLower = true) {b : SeekBounds} {w : Value} (hbound : b.lowBound = [w]) :
    (b.add t).lowBound = [if compareKeys [t.value] [w] = .gt then t.value else w] := by
  rw [add_lower ht, hbound]
  by_cases hgt : compareKeys [t.value] [w] = .gt
  · rw [if_pos (.inr hgt), if_pos hgt]
  · rw [if_neg (not_or.mpr ⟨nofun, hgt⟩), if_neg hgt]
    split
    · rfl
    · exact hbound

theorem highBound_add (ht : t.isUpper = true) {b : SeekBounds} {w : Value} (hbound : b.highBound = [w]) :
    (b.add t).highBound = [if compareKeys [t.value] [w] = .lt then t.value else w] := by
  rw [add_upper ht, hbound]
  by_cases hlt : compareKeys [t.value] [w] = .lt
  · rw [if_pos (.inr hlt), if_pos hlt]
  · rw [if_neg (not_or.mpr ⟨nofun, hlt⟩), if_neg hlt]
    split
    · rfl
    · exact hbound

theorem lowState (hts : Proper ts) : LowState ts (tightest ts) := by
  induction ts using List.reverseRecOn with
  | nil => exact .unbounded rfl rfl rfl
  | append_singleton ts t ih =>
      obtain ⟨hts, hv⟩ := hts.concat
      have hpos := rank_pos hv
      rw [tightest_concat]
      generalize tightest ts = b at ih
      cases hlower : t.isLower with
      | false =>
          obtain ⟨hlow, hinc⟩ := @add_not_lower t b hlower
          have hsame : lowers (ts ++ [t]) = lowers ts := by
            rw [lowers_concat, hlower, if_neg Bool.false_ne_true, List.append_nil]
          cases ih hts with
          | unbounded hnone hbound hinc' =>
              exact .unbounded (hsame.trans hnone) (hlow.trans hbound) (hinc.trans hinc')
          | number last w hlast hbound hall hw hnan =>
              exact .number last w (hsame ▸ hlast) (hlow.trans hbound) (hsame ▸ hall) hw hnan
          | other w u hu hrank hbound hw =>
              exact .other w u (hsame ▸ hu) hrank (hlow.trans hbound) hw
      | true =>
          have hsame := @lowers_concat_of ts t hlower
          have hmem : t ∈ lowers (ts ++ [t]) := hsame ▸ List.mem_append_right _ (List.mem_singleton_self t)
          have hlast : (lowers (ts ++ [t])).getLast? = some t := by rw [hsame, List.getLast?_concat]
          cases ih hts with
          | unbounded hnone hbound hinc' =>
              have hbound' : (b.add t).lowBound = [t.value] := by rw [add_lower hlower, if_pos (.inl hbound)]
              have hall : ∀ u ∈ lowers (ts ++ [t]), u = t := by
                rw [hsame, hnone]
                exact fun u hu => List.mem_singleton.mp hu
              by_cases hrank : t.value.rank = 1
              · exact .number t t.value hlast hbound' (fun u hu => hall u hu ▸ hrank) hrank Iff.rfl
              · exact .other t.value t hmem hrank hbound' (by omega)
          | number last w hlast' hbound hall hw hnan =>
              have hbound' := lowBound_add hlower hbound
              by_cases hrank : t.value.rank = 1
              · refine .number t _ hlast hbound' (fun u hu => ?_) ?_ ?_
                · rw [hsame] at hu
                  rcases List.mem_append.mp hu with hu | hu
                  · exact hall u hu
                  · exact List.mem_singleton.mp hu ▸ hrank
                · split
                  · exact hrank
                  · exact hw
                · -- a NaN is taken, and gives way
                  by_cases hn : t.value.isNan ∨ w.isNan
                  · have hgt : compareKeys [t.value] [w] = .gt := by
                      rw [Value.compare_of_isNan hn, if_neg (by omega)]
                    rw [if_pos hgt]
                  · obtain ⟨hn, hn'⟩ := not_or.mp hn
                    split
                    · exact Iff.rfl
                    · exact iff_of_false hn' hn
              · refine .other _ t hmem hrank hbound' ?_
                rw [if_pos (compare_gt_of_rank (by omega))]
                omega
          | other w u hu hrank hbound hw =>
              refine .other _ u (hsame ▸ List.mem_append_left _ hu) hrank (lowBound_add hlower hbound) ?_
              split
              · rename_i hgt
                by_contra hle
                rw [Value.compare_lt_iff.mpr (.inl (by omega))] at hgt
                cases hgt
              · exact hw

theorem highState (hts : Proper ts) : HighState ts (tightest ts) := by
  induction ts using List.reverseRecOn with
  | nil => exact .unbounded rfl rfl rfl
  | append_singleton ts t ih =>
      obtain ⟨hts, hv⟩ := hts.concat
      have hpos := rank_pos hv
      rw [tightest_concat]
      generalize tightest ts = b at ih
      cases hupper : t.isUpper with
      | false =>
          obtain ⟨hhigh, hinc⟩ := @add_not_upper t b hupper
          have hsame : uppers (ts ++ [t]) = uppers ts := by
            rw [uppers_concat, hupper, if_neg Bool.false_ne_true, List.append_nil]
          cases ih hts with
          | unbounded hnone hbound hinc' =>
              exact .unbounded (hsame.trans hnone) (hhigh.trans hbound) (hinc.trans hinc')
          | number first w hfirst hbound hw hnan =>
              exact .number first w (hsame ▸ hfirst) (hhigh.trans hbound) hw hnan
          | other w hnone hbound hw => exact .other w (hsame ▸ hnone) (hhigh.trans hbound) hw
      | true =>
          have hsame := @uppers_concat_of ts t hupper
          have hfind : (uppers (ts ++ [t])).find? (fun t => t.value.rank = 1) =
              ((uppers ts).find? fun t => t.value.rank = 1).or
                (if t.value.rank = 1 then some t else none) := by
            rw [hsame, List.find?_append, List.find?_singleton]
            simp only [decide_eq_true_eq]
          cases ih hts with
          | unbounded hnone hbound hinc' =>
              have hbound' : (b.add t).highBound = [t.value] := by rw [add_upper hupper, if_pos (.inl hbound)]
              rw [hnone, List.find?_nil, Option.none_or] at hfind
              by_cases hrank : t.value.rank = 1
              · exact .number t t.value (hfind.trans (if_pos hrank)) hbound' hrank Iff.rfl
              · exact .other t.value (hfind.trans (if_neg hrank)) hbound' (by omega)
          | number first w hfirst hbound hw hnan =>
              rw [hfirst, Option.some_or] at hfind
              refine .number first _ hfind (highBound_add hupper hbound) ?_ ?_
              · split
                · rename_i hlt
                  have := rank_le_of_compare (by rw [hlt]; nofun : compareKeys [t.value] [w] ≠ .gt)
                  omega
                · exact hw
              · -- nothing is below a NaN, and a NaN is below no number
                split
                · rename_i hlt
                  rcases Value.compare_lt_iff.mp hlt with hlt | ⟨hn, hn', -⟩
                  · omega
                  · exact (iff_of_false hn hn').trans hnan
                · exact hnan
          | other w hnone hbound hw =>
              rw [hnone, Option.none_or] at hfind
              by_cases hrank : t.value.rank = 1
              · have hlt : compareKeys [t.value] [w] = .lt := Value.compare_lt_iff.mpr (.inl (by omega))
                have hbound' := highBound_add hupper hbound
                rw [if_pos hlt] at hbound'
                exact .number t t.value (hfind.trans (if_pos hrank)) hbound' hrank Iff.rfl
              · refine .other _ (hfind.trans (if_neg hrank)) (highBound_add hupper hbound) ?_
                split
                · omega
                · exact hw

variable {ops : FloatOps} {c : Value}

theorem admits_lower_passes (ht : t.isLower = true) (hv : t.value ≠ .null) :
    t.admits c = t.passes ops c := by
  rw [Bool.eq_iff_iff, SeekTerm.admits_lower ht, passes_lower ht hv, and_comm]

/-- An upper term lets through what it says, a NULL or a NaN among numbers apart. -/
theorem admits_upper_passes (ht : t.isUpper = true) (hv : t.value ≠ .null) (hc : c ≠ .null)
    (hnan : t.value.rank = c.rank → ¬ (t.value.isNan ∨ c.isNan)) : t.admits c = t.passes ops c := by
  obtain ⟨hgt, heq⟩ := compare_swap hnan
  rw [Bool.eq_iff_iff, SeekTerm.admits_upper ht, passes_upper ht hv, and_iff_right hc, hgt, heq, and_comm]

theorem admitsLow_unbounded {b : SeekBounds} (h : b.lowBound = []) (c : Value) :
    b.admitsLow c = true := by
  rw [SeekBounds.admitsLow, h]
  rfl

theorem admitsHigh_unbounded {b : SeekBounds} (h : b.highBound = []) (c : Value) :
    b.admitsHigh c = true := by
  rw [SeekBounds.admitsHigh, h]
  rfl

/-- A value below all others is kept out by a lower bound, and by nothing else. -/
theorem admits_bottom (hts : Proper ts) (hc : ∀ v : Value, v ≠ .null → compareKeys [v] [c] = .gt) :
    ((tightest ts).admitsLow c = true ↔ lowers ts = []) ∧ (tightest ts).admitsHigh c = true := by
  have hvalue : ∀ w : Value, 1 ≤ w.rank → compareKeys [w] [c] = .gt := by
    intro w hw
    refine hc w ?_
    rintro rfl
    cases hw
  constructor
  · cases lowState hts with
    | unbounded hnone hbound => exact iff_of_true (admitsLow_unbounded hbound c) hnone
    | number last w hlast hbound hall hw =>
        rw [SeekBounds.admitsLow_iff hbound, hvalue w (by omega)]
        refine iff_of_false ?_ fun h => ?_
        · rintro (h | ⟨h, -⟩) <;> cases h
        · rw [h] at hlast
          cases hlast
    | other w u hu hrank hbound hw =>
        rw [SeekBounds.admitsLow_iff hbound, hvalue w (by omega)]
        refine iff_of_false ?_ fun h => ?_
        · rintro (h | ⟨h, -⟩) <;> cases h
        · rw [h] at hu
          cases hu
  · cases highState hts with
    | unbounded hnone hbound => exact admitsHigh_unbounded hbound c
    | number first w hfirst hbound hw => exact (SeekBounds.admitsHigh_iff hbound).mpr (.inl (hvalue w (by omega)))
    | other w hnone hbound hw => exact (SeekBounds.admitsHigh_iff hbound).mpr (.inl (hvalue w (by omega)))

/-- A term of the other direction changes nothing. -/
theorem admitsLow_add_other {b : SeekBounds} (h : t.isLower = false) :
    (b.add t).admitsLow c = b.admitsLow c := by
  obtain ⟨hbound, hinc⟩ := @add_not_lower t b h
  rw [SeekBounds.admitsLow, hbound, hinc, SeekBounds.admitsLow]

theorem admitsHigh_add_other {b : SeekBounds} (h : t.isUpper = false) :
    (b.add t).admitsHigh c = b.admitsHigh c := by
  obtain ⟨hbound, hinc⟩ := @add_not_upper t b h
  rw [SeekBounds.admitsHigh, hbound, hinc, SeekBounds.admitsHigh]

theorem forall_lowers_concat {p : SeekTerm → Prop} :
    (∀ u ∈ lowers (ts ++ [t]), p u) ↔ (∀ u ∈ lowers ts, p u) ∧ (t.isLower = true → p t) := by
  rw [lowers_concat]
  simp only [List.mem_append, or_imp, forall_and]
  refine and_congr_right fun _ => ?_
  split
  · rename_i h
    exact ⟨fun hp _ => hp t (List.mem_singleton_self t), fun hp u hu => List.mem_singleton.mp hu ▸ hp h⟩
  · rename_i h
    exact ⟨fun _ h' => absurd h' h, fun _ u hu => by cases hu⟩

theorem forall_uppers_concat {p : SeekTerm → Prop} :
    (∀ u ∈ uppers (ts ++ [t]), p u) ↔ (∀ u ∈ uppers ts, p u) ∧ (t.isUpper = true → p t) := by
  rw [uppers_concat]
  simp only [List.mem_append, or_imp, forall_and]
  refine and_congr_right fun _ => ?_
  split
  · rename_i h
    exact ⟨fun hp _ => hp t (List.mem_singleton_self t), fun hp u hu => List.mem_singleton.mp hu ▸ hp h⟩
  · rename_i h
    exact ⟨fun _ h' => absurd h' h, fun _ u hu => by cases hu⟩

/-- On text and blobs the fold is exact. -/
theorem admits_other (hts : Proper ts) (hc : 1 < c.rank) :
    ((tightest ts).admitsLow c = true ↔ ∀ t ∈ lowers ts, t.admits c = true) ∧
      ((tightest ts).admitsHigh c = true ↔ ∀ t ∈ uppers ts, t.admits c = true) := by
  have hnan : ∀ (w : Value) (t : SeekTerm), ¬ (w.isNan ∧ t.value.rank = 1 ∧ c.rank = 1) :=
    fun w t h => by omega
  induction ts using List.reverseRecOn with
  | nil => exact ⟨iff_of_true rfl nofun, iff_of_true rfl nofun⟩
  | append_singleton ts t ih =>
      obtain ⟨hts, hv⟩ := hts.concat
      obtain ⟨hlow, hhigh⟩ := ih hts
      have hlowState := lowState hts
      have hhighState := highState hts
      rw [tightest_concat, forall_lowers_concat, forall_uppers_concat, ← hlow, ← hhigh]
      generalize tightest ts = b at hlowState hhighState
      constructor
      · cases hlower : t.isLower with
        | false =>
            rw [admitsLow_add_other hlower]
            exact ⟨fun h => ⟨h, nofun⟩, And.left⟩
        | true =>
            rw [forall_prop_of_true rfl]
            cases hlowState with
            | unbounded _ hbound =>
                rw [admitsLow_taken hlower (.inl hbound)]
                exact ⟨fun h => ⟨admitsLow_unbounded hbound c, h⟩, And.right⟩
            | number last w hlast hbound => exact admitsLow_add hlower hbound (hnan w t)
            | other w u hu hrank hbound => exact admitsLow_add hlower hbound (hnan w t)
      · cases hupper : t.isUpper with
        | false =>
            rw [admitsHigh_add_other hupper]
            exact ⟨fun h => ⟨h, nofun⟩, And.left⟩
        | true =>
            rw [forall_prop_of_true rfl]
            cases hhighState with
            | unbounded _ hbound =>
                rw [admitsHigh_taken hupper (.inl hbound)]
                exact ⟨fun h => ⟨admitsHigh_unbounded hbound c, h⟩, And.right⟩
            | number first w hfirst hbound => exact admitsHigh_add hupper hbound (hnan w t)
            | other w hnone hbound => exact admitsHigh_add hupper hbound (hnan w t)

end Fold

/-! ## Numbers -/

section Numbers

variable (ops : FloatOps) (ts : List SeekTerm) (c : Value)

/-- The lower terms behind the last NaN, the last of them first. -/
def behindNan (ts : List SeekTerm) : List SeekTerm :=
  (lowers ts).reverse.takeWhile fun t => ¬ t.value.isNan

/-- The lower terms let a number through: they are all numbers, a NaN is not the last of
them, and those behind the last NaN are TRUE. -/
structure LetsAbove : Prop where
  numbers : ∀ t ∈ lowers ts, t.value.rank = 1
  last : ∀ t ∈ (lowers ts).getLast?, ¬ t.value.isNan
  behind : ∀ t ∈ behindNan ts, t.passes ops c = true

/-- The upper terms let a number through: the first of them that is a number is a NaN, or
all that are not a NaN are TRUE. -/
def LetsBelow : Prop :=
  (∃ t, (uppers ts).find? (fun t => t.value.rank = 1) = some t ∧ t.value.isNan) ∨
    ∀ t ∈ uppers ts, ¬ t.value.isNan → t.passes ops c = true

/-- The value gets through the bounds although some term is not TRUE of it: a NULL or a
NaN that no lower bound keeps out, or a number beside a bound that is a NaN. -/
inductive SlipsThrough : Prop
  | null (hc : c = .null) (hlow : lowers ts = [])
  | nan (t : SeekTerm) (hc : c.isNan) (hlow : lowers ts = []) (ht : t ∈ uppers ts)
      (hrank : t.value.rank = 1)
  | number (t : SeekTerm) (hc : c.rank = 1) (hnan : ¬ c.isNan) (ht : t ∈ ts) (hbound : t.value.isNan)
      (hlow : LetsAbove ops ts c) (hhigh : LetsBelow ops ts c)

end Numbers

section Letting

variable {ops : FloatOps} {ts : List SeekTerm} {t : SeekTerm} {c : Value}

theorem compare_nan {a b : Value} (h : a.isNan ∨ b.isNan) (hrank : b.rank ≤ a.rank) :
    compareKeys [a] [b] = .gt := by
  rw [Value.compare_of_isNan h, if_neg (Nat.not_lt.mpr hrank)]

/-- A lower term that lets a number through is one. -/
theorem number_of_admits (ht : t.isLower = true) (hv : t.value ≠ .null) (hc : c.rank = 1)
    (h : t.admits c = true) : t.value.rank = 1 ∧ ¬ t.value.isNan := by
  have hle : compareKeys [t.value] [c] ≠ .gt := by
    rcases (SeekTerm.admits_lower ht).mp h with h | ⟨h, -⟩
    · rw [h]; nofun
    · rw [h]; nofun
  have hrank := rank_le_of_compare hle
  have hpos := rank_pos hv
  exact ⟨by omega, fun hnan => hle (compare_nan (.inl hnan) (by omega))⟩

/-- An upper term that is a NaN lets a number through, another one what it says. -/
theorem admits_upper_number (ht : t.isUpper = true) (hv : t.value ≠ .null) (hc : c.rank = 1)
    (hcnan : ¬ c.isNan) : t.admits c = true ↔ (¬ t.value.isNan → t.passes ops c = true) := by
  by_cases hnan : t.value.isNan
  · refine iff_of_true ((SeekTerm.admits_upper ht).mpr (.inl ?_)) fun h => absurd hnan h
    exact compare_nan (.inl hnan) (by rw [hc, Value.rank_of_isNan hnan])
  · have hnull : c ≠ .null := by
      rintro rfl
      cases hc
    rw [admits_upper_passes ht hv hnull fun _ h => h.elim hnan hcnan]
    exact ⟨fun h _ => h, fun h => h hnan⟩

theorem behindNan_concat (h : t.isLower = true) :
    behindNan (ts ++ [t]) = if t.value.isNan then [] else t :: behindNan ts := by
  rw [behindNan, lowers_concat_of h, List.reverse_append, List.reverse_singleton, List.singleton_append]
  by_cases hnan : t.value.isNan
  · rw [List.takeWhile_cons_of_neg (by rw [decide_eq_true_eq]; exact not_not.mpr hnan), if_pos hnan]
  · rw [List.takeWhile_cons_of_pos (by rw [decide_eq_true_eq]; exact hnan), if_neg hnan, behindNan]

theorem letsAbove_concat (h : t.isLower = true) (hv : t.value ≠ .null) (hc : c.rank = 1) :
    LetsAbove ops (ts ++ [t]) c ↔ (∀ u ∈ lowers ts, u.value.rank = 1) ∧ t.admits c = true ∧
      ∀ u ∈ behindNan ts, u.passes ops c = true := by
  have hbehind := @behindNan_concat ts t h
  have hlast : (lowers (ts ++ [t])).getLast? = some t := by
    rw [lowers_concat_of h, List.getLast?_concat]
  constructor
  · intro hlets
    have hnan := hlets.last t hlast
    rw [if_neg hnan] at hbehind
    refine ⟨(forall_lowers_concat.mp hlets.numbers).1, ?_, fun u hu => ?_⟩
    · rw [admits_lower_passes h hv]
      exact hlets.behind t (hbehind ▸ List.mem_cons_self ..)
    · exact hlets.behind u (hbehind ▸ List.mem_cons_of_mem _ hu)
  · rintro ⟨hnumbers, hadmits, hbefore⟩
    obtain ⟨hrank, hnan⟩ := number_of_admits h hv hc hadmits
    rw [if_neg hnan] at hbehind
    refine ⟨forall_lowers_concat.mpr ⟨hnumbers, fun _ => hrank⟩, fun u hu => ?_, fun u hu => ?_⟩
    · rw [hlast] at hu
      exact Option.some.inj hu ▸ hnan
    · rw [hbehind] at hu
      rcases List.mem_cons.mp hu with rfl | hu
      · rwa [admits_lower_passes h hv] at hadmits
      · exact hbefore u hu

/-- What gets past the lower bound of the fold. -/
theorem admitsLow_number (hts : Proper ts) (hc : c.rank = 1) :
    (tightest ts).admitsLow c = true ↔ LetsAbove ops ts c := by
  induction ts using List.reverseRecOn with
  | nil => exact iff_of_true rfl ⟨nofun, nofun, nofun⟩
  | append_singleton ts t ih =>
      obtain ⟨hts, hv⟩ := hts.concat
      have hpos := rank_pos hv
      have ih := ih hts
      have hstate := lowState hts
      rw [tightest_concat]
      generalize tightest ts = b at ih hstate
      cases hlower : t.isLower with
      | false =>
          have hsame : lowers (ts ++ [t]) = lowers ts := by
            rw [lowers_concat, hlower, if_neg Bool.false_ne_true, List.append_nil]
          rw [admitsLow_add_other hlower, ih]
          constructor
          · intro h
            exact ⟨hsame ▸ h.numbers, hsame ▸ h.last, by rw [behindNan, hsame]; exact h.behind⟩
          · intro h
            have hbehind := h.behind
            rw [behindNan, hsame] at hbehind
            exact ⟨hsame ▸ h.numbers, hsame ▸ h.last, hbehind⟩
      | true =>
          rw [letsAbove_concat hlower hv hc]
          cases hstate with
          | unbounded hnone hbound =>
              rw [admitsLow_taken hlower (.inl hbound), behindNan, hnone]
              exact ⟨fun h => ⟨nofun, h, nofun⟩, fun h => h.2.1⟩
          | number last w hlast hbound hall hw hwnan =>
              by_cases hn : w.isNan
              · -- the NaN gives way, whatever comes
                have hgt : compareKeys [t.value] [w] = .gt := compare_nan (.inr hn) (by omega)
                have hempty : behindNan ts = [] := by
                  obtain ⟨init, hinit⟩ := List.getLast?_eq_some_iff.mp hlast
                  rw [behindNan, hinit, List.reverse_append, List.reverse_singleton,
                    List.singleton_append, List.takeWhile_cons_of_neg]
                  rw [decide_eq_true_eq]
                  exact not_not.mpr (hwnan.mp hn)
                rw [admitsLow_taken hlower (.inr (hbound ▸ hgt)), hempty]
                exact ⟨fun h => ⟨hall, h, nofun⟩, fun h => h.2.1⟩
              · rw [admitsLow_add hlower hbound fun h => hn h.1, ih]
                constructor
                · rintro ⟨hlets, hadmits⟩
                  exact ⟨hlets.numbers, hadmits, hlets.behind⟩
                · rintro ⟨hnumbers, hadmits, hbehind⟩
                  refine ⟨⟨hnumbers, fun u hu => ?_, hbehind⟩, hadmits⟩
                  rw [hlast] at hu
                  exact Option.some.inj hu ▸ fun h => hn (hwnan.mpr h)
          | other w u hu hrank hbound hw =>
              have hn : ¬ w.isNan := fun h => by
                have := Value.rank_of_isNan h
                omega
              rw [admitsLow_add hlower hbound fun h => hn h.1, ih]
              exact iff_of_false (fun h => hrank (h.1.numbers u hu)) fun h => hrank (h.1 u hu)

/-- What gets past the upper bound of the fold. -/
theorem admitsHigh_number (hts : Proper ts) (hc : c.rank = 1) (hcnan : ¬ c.isNan) :
    (tightest ts).admitsHigh c = true ↔ LetsBelow ops ts c := by
  induction ts using List.reverseRecOn with
  | nil => exact iff_of_true rfl (.inr nofun)
  | append_singleton ts t ih =>
      obtain ⟨hts, hv⟩ := hts.concat
      have hpos := rank_pos hv
      have ih := ih hts
      have hstate := highState hts
      rw [tightest_concat]
      generalize tightest ts = b at ih hstate
      unfold LetsBelow at ih ⊢
      cases hupper : t.isUpper with
      | false =>
          have hsame : uppers (ts ++ [t]) = uppers ts := by
            rw [uppers_concat, hupper, if_neg Bool.false_ne_true, List.append_nil]
          rw [admitsHigh_add_other hupper, ih, hsame]
      | true =>
          have hadmits := @admits_upper_number ops t c hupper hv hc hcnan
          have hfind : (uppers (ts ++ [t])).find? (fun t => t.value.rank = 1) =
              ((uppers ts).find? fun t => t.value.rank = 1).or
                (if t.value.rank = 1 then some t else none) := by
            rw [uppers_concat_of hupper, List.find?_append, List.find?_singleton]
            simp only [decide_eq_true_eq]
          rw [forall_uppers_concat, hfind, forall_prop_of_true hupper, ← hadmits]
          cases hstate with
          | unbounded hnone hbound =>
              rw [admitsHigh_taken hupper (.inl hbound), hnone, List.find?_nil, Option.none_or]
              refine ⟨fun h => .inr ⟨nofun, h⟩, ?_⟩
              rintro (⟨u, hu, hnan⟩ | h)
              · obtain ⟨-, rfl⟩ := Option.ite_some_none_eq_some.mp hu
                exact hadmits.mpr (absurd hnan)
              · exact h.2
          | number first w hfirst hbound hw hwnan =>
              rw [hfirst, Option.some_or]
              by_cases hn : w.isNan
              · -- nothing displaces the NaN
                have hkept : ¬ compareKeys [t.value] [w] = .lt := by
                  rw [compare_nan (.inr hn) (by omega)]
                  nofun
                have hbound' := highBound_add hupper hbound
                rw [if_neg hkept] at hbound'
                exact iff_of_true ((SeekBounds.admitsHigh_iff hbound').mpr
                  (.inl (compare_nan (.inl hn) (by omega)))) (.inl ⟨first, rfl, hwnan.mp hn⟩)
              · have hleft : ¬ ∃ u, some first = some u ∧ u.value.isNan := by
                  rintro ⟨u, hu, hnan⟩
                  exact hn (hwnan.mpr (Option.some.inj hu ▸ hnan))
                rw [hfirst, or_iff_right hleft] at ih
                rw [admitsHigh_add hupper hbound fun h => hn h.1, ih, or_iff_right hleft]
          | other w hnone hbound hw =>
              have hn : ¬ w.isNan := fun h => by
                have := Value.rank_of_isNan h
                omega
              have hleft : ¬ ∃ u : SeekTerm, none = some u ∧ u.value.isNan := by
                rintro ⟨u, hu, -⟩
                cases hu
              rw [hnone, or_iff_right hleft] at ih
              rw [hnone, Option.none_or, admitsHigh_add hupper hbound fun h => hn h.1, ih]
              refine ⟨.inr, ?_⟩
              rintro (⟨u, hu, hnan⟩ | h)
              · obtain ⟨-, rfl⟩ := Option.ite_some_none_eq_some.mp hu
                refine ⟨ih.mp ((SeekBounds.admitsHigh_iff hbound).mpr (.inl ?_)), hadmits.mpr (absurd hnan)⟩
                exact compare_gt_of_rank (by omega)
              · exact h

/-- The terms are bounds. -/
def Bounding (ts : List SeekTerm) : Prop := ∀ t ∈ ts, t.isLower = true ∨ t.isUpper = true

theorem forall_bounding (h : Bounding ts) {p : SeekTerm → Prop} :
    (∀ t ∈ ts, p t) ↔ (∀ t ∈ lowers ts, p t) ∧ ∀ t ∈ uppers ts, p t := by
  constructor
  · exact fun hp => ⟨fun t ht => hp t (List.mem_of_mem_filter ht), fun t ht => hp t (List.mem_of_mem_filter ht)⟩
  · rintro ⟨hlow, hhigh⟩ t ht
    rcases h t ht with hlower | hupper
    · exact hlow t (List.mem_filter.mpr ⟨ht, hlower⟩)
    · exact hhigh t (List.mem_filter.mpr ⟨ht, hupper⟩)

theorem mem_lowers {t : SeekTerm} (ht : t ∈ lowers ts) : t ∈ ts ∧ t.isLower = true := List.mem_filter.mp ht

theorem mem_uppers {t : SeekTerm} (ht : t ∈ uppers ts) : t ∈ ts ∧ t.isUpper = true := List.mem_filter.mp ht

/-- No comparison with a NaN among numbers is TRUE. -/
theorem passes_nan (ht : t.isLower = true ∨ t.isUpper = true) (hv : t.value ≠ .null)
    (hnan : t.value.isNan ∨ c.isNan) (hrank : t.value.rank = c.rank) : t.passes ops c = false := by
  rw [← Bool.not_eq_true]
  rcases ht with ht | ht
  · rw [passes_lower ht hv, compare_nan hnan hrank.ge]
    rintro (h | ⟨-, h⟩) <;> cases h
  · rw [passes_upper ht hv, compare_nan hnan.symm hrank.le]
    rintro ⟨-, h | ⟨-, h⟩⟩ <;> cases h

theorem SlipsThrough.not_passes (hts : Proper ts) (hranges : Bounding ts) (hne : ts ≠ [])
    (h : SlipsThrough ops ts c) : ¬ ∀ t ∈ ts, t.passes ops c = true := by
  intro hall
  cases h with
  | null hc hlow =>
      obtain ⟨t, rest, rfl⟩ := List.exists_cons_of_ne_nil hne
      have hpasses := hall t (List.mem_cons_self ..)
      have hop : t.operator ≠ .is := by
        intro his
        rcases hranges t (List.mem_cons_self ..) with h | h
        · rw [SeekTerm.isLower, his] at h
          cases h
        · rw [SeekTerm.isUpper, his] at h
          cases h
      rw [passes_null hop (.inl hc)] at hpasses
      cases hpasses
  | nan t hc hlow ht hrank =>
      obtain ⟨ht, hupper⟩ := mem_uppers ht
      have hpasses := hall t ht
      rw [passes_nan (.inr hupper) (hts t ht) (.inr hc) (hrank.trans (Value.rank_of_isNan hc).symm)] at hpasses
      cases hpasses
  | number t hc hnan ht hbound hlow hhigh =>
      have hpasses := hall t ht
      rw [passes_nan (hranges t ht) (hts t ht) (.inl hbound) ((Value.rank_of_isNan hbound).trans hc.symm)] at hpasses
      cases hpasses

/-- Without a NaN among the bounds the fold lets a number through when the terms do. -/
theorem lets_iff_passes (hts : Proper ts) (hranges : Bounding ts) (hc : c.rank = 1)
    (hnone : ∀ t ∈ ts, ¬ t.value.isNan) :
    LetsAbove ops ts c ∧ LetsBelow ops ts c ↔ ∀ t ∈ ts, t.passes ops c = true := by
  rw [forall_bounding hranges]
  have hbehind : behindNan ts = (lowers ts).reverse := by
    refine List.takeWhile_eq_self_iff.mpr fun t ht => decide_eq_true (hnone t ?_)
    exact (mem_lowers (List.mem_reverse.mp ht)).1
  refine and_congr ⟨fun h t ht => ?_, fun h => ⟨fun t ht => ?_, fun t ht => ?_, fun t ht => ?_⟩⟩
    ⟨fun h t ht => ?_, fun h => .inr fun t ht _ => h t ht⟩
  · exact h.behind t (hbehind ▸ List.mem_reverse.mpr ht)
  · obtain ⟨hmem, hlower⟩ := mem_lowers ht
    have hadmits := h t ht
    rw [← admits_lower_passes hlower (hts t hmem)] at hadmits
    exact (number_of_admits hlower (hts t hmem) hc hadmits).1
  · exact hnone t (mem_lowers (List.mem_of_getLast? ht)).1
  · rw [hbehind] at ht
    exact h t (List.mem_reverse.mp ht)
  · rcases h with ⟨u, hu, hnan⟩ | h
    · exact absurd hnan (hnone u (mem_uppers (List.mem_of_find?_eq_some hu)).1)
    · exact h t ht (hnone t (mem_uppers ht).1)

/-- The fold lets a value through when every term is TRUE of it, and when it slips
through. -/
theorem tightest_admits (hts : Proper ts) (hranges : Bounding ts) (hne : ts ≠ []) :
    (tightest ts).admitsLow c = true ∧ (tightest ts).admitsHigh c = true ↔
      (∀ t ∈ ts, t.passes ops c = true) ∨ SlipsThrough ops ts c := by
  have hnot := @SlipsThrough.not_passes ops ts c hts hranges hne
  by_cases hnull : c = .null
  · obtain ⟨hlow, hhigh⟩ := @admits_bottom ts c hts fun v hv => hnull ▸ compare_null hv
    rw [hlow, and_iff_left hhigh]
    constructor
    · exact fun h => .inr (.null hnull h)
    · rintro (h | h)
      · by_contra hlowers
        obtain ⟨t, rest, hcons⟩ := List.exists_cons_of_ne_nil hlowers
        obtain ⟨ht, hlower⟩ := mem_lowers (hcons ▸ List.mem_cons_self .. : t ∈ lowers ts)
        have hpasses := (passes_lower hlower (hts t ht)).mp (h t ht)
        rw [hnull, compare_null (hts t ht)] at hpasses
        rcases hpasses with h | ⟨-, h⟩ <;> cases h
      · cases h with
        | null _ hlow => exact hlow
        | nan _ _ hlow => exact hlow
        | number _ hc => rw [hnull] at hc; cases hc
  · by_cases hnan : c.isNan
    · have hone := Value.rank_of_isNan hnan
      obtain ⟨hlow, hhigh⟩ := @admits_bottom ts c hts fun v hv =>
        compare_nan (.inr hnan) (hone ▸ rank_pos hv)
      rw [hlow, and_iff_left hhigh]
      constructor
      · intro hnone
        by_cases hnumber : ∃ t ∈ uppers ts, t.value.rank = 1
        · obtain ⟨t, ht, hrank⟩ := hnumber
          exact .inr (.nan t hnan hnone ht hrank)
        · left
          rw [forall_bounding hranges, hnone]
          refine ⟨nofun, fun t ht => ?_⟩
          obtain ⟨hmem, hupper⟩ := mem_uppers ht
          have hrank : t.value.rank ≠ 1 := fun h => hnumber ⟨t, ht, h⟩
          have hpos := rank_pos (hts t hmem)
          exact (passes_upper hupper (hts t hmem)).mpr ⟨hnull, .inl (Value.compare_lt_iff.mpr (.inl (by omega)))⟩
      · rintro (h | h)
        · by_contra hlowers
          obtain ⟨t, rest, hcons⟩ := List.exists_cons_of_ne_nil hlowers
          obtain ⟨ht, hlower⟩ := mem_lowers (hcons ▸ List.mem_cons_self .. : t ∈ lowers ts)
          have hpasses := (passes_lower hlower (hts t ht)).mp (h t ht)
          rw [compare_nan (.inr hnan) (hone ▸ rank_pos (hts t ht))] at hpasses
          rcases hpasses with h | ⟨-, h⟩ <;> cases h
        · cases h with
          | null _ hlow => exact hlow
          | nan _ _ hlow => exact hlow
          | number _ _ hc => exact absurd hnan hc
    · by_cases hrank : c.rank = 1
      · rw [@admitsLow_number ops ts c hts hrank, @admitsHigh_number ops ts c hts hrank hnan]
        by_cases hsome : ∃ t ∈ ts, t.value.isNan
        · obtain ⟨t, ht, hbound⟩ := hsome
          constructor
          · exact fun h => .inr (.number t hrank hnan ht hbound h.1 h.2)
          · rintro (h | h)
            · have hpasses := h t ht
              rw [passes_nan (hranges t ht) (hts t ht) (.inl hbound)
                ((Value.rank_of_isNan hbound).trans hrank.symm)] at hpasses
              cases hpasses
            · cases h with
              | null h => exact absurd h hnull
              | nan _ h => exact absurd h hnan
              | number _ _ _ _ _ hlow hhigh => exact ⟨hlow, hhigh⟩
        · have hnone : ∀ t ∈ ts, ¬ t.value.isNan := fun t ht h => hsome ⟨t, ht, h⟩
          rw [lets_iff_passes hts hranges hrank hnone]
          refine ⟨.inl, fun h => h.resolve_right fun h => ?_⟩
          cases h with
          | null h => exact hnull h
          | nan _ h => exact hnan h
          | number t _ _ ht h => exact hnone t ht h
      · have hc : 1 < c.rank := by
          have := rank_pos hnull
          omega
        obtain ⟨hlow, hhigh⟩ := @admits_other ts c hts hc
        rw [hlow, hhigh]
        have hpasses : (∀ t ∈ lowers ts, t.admits c = true) ∧ (∀ t ∈ uppers ts, t.admits c = true) ↔
            ∀ t ∈ ts, t.passes ops c = true := by
          rw [forall_bounding hranges]
          refine and_congr (forall₂_congr fun t ht => ?_) (forall₂_congr fun t ht => ?_)
          · obtain ⟨hmem, hlower⟩ := mem_lowers ht
            rw [admits_lower_passes hlower (hts t hmem)]
          · obtain ⟨hmem, hupper⟩ := mem_uppers ht
            rw [admits_upper_passes hupper (hts t hmem) hnull fun h hboth => ?_]
            refine hrank ?_
            rcases hboth with h' | h'
            · exact h ▸ Value.rank_of_isNan h'
            · exact Value.rank_of_isNan h'
        rw [hpasses]
        refine ⟨.inl, fun h => h.resolve_right fun h => ?_⟩
        cases h with
        | null h => exact hnull h
        | nan _ h => exact hnan h
        | number _ h => exact hrank h

end Letting

end QuillDb
