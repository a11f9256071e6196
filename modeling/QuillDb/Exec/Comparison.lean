/-
  Exec/Comparison.lean --- the two orders of values.

  Source: `compare_keys` of `quilldb/btree/index.py`, `_compare` of
  `quilldb/exec/expressions.py`.

  An index descends by one and a WHERE clause filters by the other.
-/
import QuillDb.Exec.SeekBounds

set_option autoImplicit false

namespace QuillDb

/-- The number that `compare_keys` returns. -/
def sign : Ordering → Int
  | .lt => -1
  | .eq => 0
  | .gt => 1

/-- `=`, `!=`, `<`, `<=`, `>` or `>=`. -/
def BinaryOperator.IsComparison : BinaryOperator → Prop
  | eq | ne | lt | le | gt | ge => True
  | _ => False

/-- The relation of a number to 0 that a comparison asks for. -/
def BinaryOperator.relates : BinaryOperator → Int → Bool
  | eq, c => c = 0
  | ne, c => c ≠ 0
  | lt, c => c < 0
  | le, c => c ≤ 0
  | gt, c => 0 < c
  | ge, c => 0 ≤ c
  | _, _ => false

/-! ## The order of keys -/

section Keys

variable {n : Nat} {a b c p : List Value}

/-- A comparison can be turned round. -/
theorem compareKeys_swap (ha : Comparable n a) (hb : Comparable n b) :
    compareKeys b a = (compareKeys a b).swap := by
  have hab := compareKeys_cases ha hb
  have hba := compareKeys_cases hb ha
  cases hcmp : compareKeys a b with
  | lt =>
      rw [hcmp] at hab
      cases hcmp' : compareKeys b a with
      | gt => rfl
      | eq =>
          rw [hcmp'] at hba
          exact absurd hba hab.ne'
      | lt =>
          rw [hcmp'] at hba
          exact absurd hab hba.asymm
  | eq =>
      rw [hcmp] at hab
      exact (compareKeys_eq hb ha).mpr hab.symm
  | gt =>
      rw [hcmp] at hab
      cases hcmp' : compareKeys b a with
      | lt => rfl
      | eq =>
          rw [hcmp'] at hba
          exact absurd hba hab.ne
      | gt =>
          rw [hcmp'] at hba
          exact absurd hab hba.asymm

theorem sign_swap (o : Ordering) : sign o.swap = -sign o := by
  cases o <;> rfl

theorem sign_le_zero_iff {o : Ordering} : sign o ≤ 0 ↔ o ≠ .gt := by
  cases o <;> decide

theorem compareKeys_self (ha : Comparable n a) : compareKeys a a = .eq := (compareKeys_eq ha ha).mpr rfl

theorem compareKeys_le_trans (ha : Comparable n a) (hb : Comparable n b) (hc : Comparable n c)
    (hab : sign (compareKeys a b) ≤ 0) (hbc : sign (compareKeys b c) ≤ 0) :
    sign (compareKeys a c) ≤ 0 := by
  rw [sign_le_zero_iff, compareKeys_le ha hb] at hab
  rw [sign_le_zero_iff, compareKeys_le hb hc] at hbc
  rw [sign_le_zero_iff, compareKeys_le ha hc]
  exact hab.trans hbc

/-- A probe falls as the keys that it is held against rise. -/
theorem sign_probe_antitone (ha : p.length ≤ a.length) (hb : p.length ≤ b.length)
    (h : sign (compareKeys a b) ≤ 0) : sign (compareKeys p b) ≤ sign (compareKeys p a) := by
  obtain ⟨hlt, heq⟩ := compareKeys_trans ha hb (sign_le_zero_iff.mp h)
  cases hpa : compareKeys p a with
  | lt => rw [hlt hpa]
  | eq => exact sign_le_zero_iff.mpr (heq hpa)
  | gt => cases compareKeys p b <;> decide

end Keys

/-! ## The order of a WHERE clause -/

section Values

variable {operator : BinaryOperator} {a b : Value}

/-- A comparison decides by the sign that `compare_keys` gives the two values. -/
theorem compareValues_relates (hop : operator.IsComparison) (ha : ¬ a.isNan) (hb : ¬ b.isNan) :
    compareValues operator a b = .ok (operator.relates (sign (compareKeys [a] [b]))) := by
  obtain ⟨heq, hlt, hgt⟩ := compareValues_eq a b
  obtain ⟨hle, hge⟩ := compareValues_le a b
  have hswap : compareKeys [b] [a] = (compareKeys [a] [b]).swap :=
    @compareKeys_swap 1 [a] [b] ⟨rfl, fun v hv => List.mem_singleton.mp hv ▸ ha⟩
      ⟨rfl, fun v hv => List.mem_singleton.mp hv ▸ hb⟩
  have hne : compareValues .ne a b = .ok (compareKeys [a] [b] ≠ .eq) := by
    unfold compareValues at heq ⊢
    split at heq
    · rename_i hrank
      rw [if_pos hrank]
      have hnot := congrArg not (Except.ok.inj heq)
      exact congrArg Except.ok (hnot.trans (decide_not ..).symm)
    · rename_i hrank
      rw [if_neg hrank]
      have hnot := congrArg not (Except.ok.inj heq)
      exact congrArg Except.ok (hnot.trans (decide_not ..).symm)
  rw [hswap] at hgt hge
  cases operator with
  | eq =>
      rw [heq]
      cases compareKeys [a] [b] <;> rfl
  | ne =>
      rw [hne]
      cases compareKeys [a] [b] <;> rfl
  | lt =>
      rw [hlt]
      cases compareKeys [a] [b] <;> rfl
  | le =>
      rw [hle]
      cases compareKeys [a] [b] <;> rfl
  | gt =>
      rw [hgt]
      cases compareKeys [a] [b] <;> rfl
  | ge =>
      rw [hge]
      cases compareKeys [a] [b] <;> rfl
  | _ => exact hop.elim

theorem evaluate_relates {ops : FloatOps} {row : List Value} {left right : BoundExpression}
    (hop : operator.IsComparison) (hleft : evaluate ops row left = .ok a)
    (hright : evaluate ops row right = .ok b) (ha : a ≠ .null ∧ ¬ a.isNan) (hb : b ≠ .null ∧ ¬ b.isNan) :
    evaluate ops row (.binaryOp left operator right) =
      .ok (ofBool (operator.relates (sign (compareKeys [a] [b])))) := by
  have hbinary : binary ops operator a b = .ok (ofBool (operator.relates (sign (compareKeys [a] [b])))) := by
    have hnull : ¬ (a = .null ∨ b = .null) := not_or.mpr ⟨ha.1, hb.1⟩
    have hcompare := compareValues_relates hop ha.2 hb.2
    cases operator with
    | eq | ne | lt | le | gt | ge =>
        rw [binary, if_neg hnull]
        simp only [hcompare]
        rfl
    | _ => exact hop.elim
  cases operator with
  | eq | ne | lt | le | gt | ge =>
      rw [evaluate, hleft, ← hbinary]
      · simp only [bind, Except.bind, hright]
      · nofun
      · nofun
  | _ => exact hop.elim

end Values

/-- Keys of one length are totally preordered, a short probe falls along rising keys, and the
comparisons of a WHERE clause are those of the keys. -/
theorem orders_agree :
    (∀ n a, Comparable n a → sign (compareKeys a a) = 0) ∧
    (∀ n a b, Comparable n a → Comparable n b → sign (compareKeys b a) = -sign (compareKeys a b)) ∧
    (∀ n a b c, Comparable n a → Comparable n b → Comparable n c →
      sign (compareKeys a b) ≤ 0 → sign (compareKeys b c) ≤ 0 → sign (compareKeys a c) ≤ 0) ∧
    (∀ p a b : List Value, p.length ≤ a.length → p.length ≤ b.length →
      sign (compareKeys a b) ≤ 0 → sign (compareKeys p b) ≤ sign (compareKeys p a)) ∧
    ∀ ops row left right operator a b, BinaryOperator.IsComparison operator →
      evaluate ops row left = .ok a → evaluate ops row right = .ok b →
      a ≠ .null ∧ ¬ a.isNan → b ≠ .null ∧ ¬ b.isNan →
        (evaluate ops row (.binaryOp left operator right) = .ok (.int 1) ↔
          operator.relates (sign (compareKeys [a] [b])) = true) := by
  refine ⟨fun n a ha => ?_, fun n a b ha hb => ?_, fun n a b c => compareKeys_le_trans,
    fun p a b => sign_probe_antitone, fun ops row left right operator a b hop hleft hright ha hb => ?_⟩
  · rw [compareKeys_self ha]
    rfl
  · rw [compareKeys_swap ha hb, sign_swap]
  · rw [evaluate_relates hop hleft hright ha hb]
    cases operator.relates (sign (compareKeys [a] [b])) with
    | true => exact iff_of_true rfl rfl
    | false =>
        refine iff_of_false (fun h => ?_) Bool.false_ne_true
        cases h

end QuillDb
