/-
  Exec/Storable.lean --- which values an expression may have.

  Source: `_fit_int64`, `evaluate`, `_unary`, `_binary`, `_arithmetic`, `_divide` and
  `_modulo` of `quilldb/exec/expressions.py`, and `_expression` of `quilldb/sql/binder.py`.

  Each result of an operator goes through the 64-bit check.  A literal and a parameter
  do not, and `%` casts its operands to integers whatever they are.
-/
import QuillDb.Codec.AnyRecord
import QuillDb.Exec.SeekBounds
import QuillDb.Sql.Binder
import QuillDb.Sql.Parser
import QuillDb.Sql.TokenizerSound

set_option autoImplicit false

namespace QuillDb

open Prog

/-! ## Storable values -/

instance (v : Value) : Decidable v.Storable :=
  match v with
  | .int _ => inferInstanceAs (Decidable (_ ∧ _))
  | .null | .real _ | .text _ | .blob _ => .isTrue trivial

@[simp] theorem storable_null : Value.null.Storable := trivial

@[simp] theorem storable_real (bits : BitVec 64) : (Value.real bits).Storable := trivial

@[simp] theorem storable_ofBool (flag : Bool) : (ofBool flag).Storable := by
  cases flag <;> decide

theorem storable_int {n : Int} : (Value.int n).Storable ↔ -2 ^ 63 ≤ n ∧ n < 2 ^ 63 :=
  Iff.rfl

theorem storable_iff_fits {n : Int} : (Value.int n).Storable ↔ fitsInt64 n = true := by
  rw [storable_int, fitsInt64, Bool.and_eq_true, decide_eq_true_eq, decide_eq_true_eq, minInt64, maxInt64]
  omega

/-- The record encoder has a serial type for exactly the storable values. -/
theorem storable_iff_serialType (v : Value) : v.Storable ↔ ∃ pair, serialTypeFor v = .ok pair := by
  cases v with
  | int n =>
      rw [storable_int, serialTypeFor]
      by_cases hsmall : n = 0 ∨ n = 1
      · rcases hsmall with rfl | rfl <;> simp
      · push Not at hsmall
        rw [if_neg hsmall.1, if_neg hsmall.2]
        split
        · rename_i type width hfind
          have hwide := List.find?_some hfind
          have hmem := List.mem_of_find?_eq_some hfind
          simp [intRanges] at hmem
          simp [inWidth] at hwide
          rcases hmem with ⟨-, rfl⟩ | ⟨-, rfl⟩ | ⟨-, rfl⟩ | ⟨-, rfl⟩ | ⟨-, rfl⟩ | ⟨-, rfl⟩ <;>
            exact iff_of_true (by omega) ⟨_, rfl⟩
        · rename_i hfind
          have hwide := List.find?_eq_none.mp hfind (6, 8) (by simp [intRanges])
          simp [inWidth] at hwide
          simp
          omega
  | null => simp [serialTypeFor]
  | real bits => simp [serialTypeFor]
  | text s => simp [serialTypeFor, Value.Storable]
  | blob data => simp [serialTypeFor, Value.Storable]

/-- A storable value, or the one exception that is allowed. -/
def Answers : Except DbError Value → Prop
  | .ok value => value.Storable
  | .error (.typeMismatch _) => True
  | .error _ => False

/-! ## Floats -/

/-- The greatest finite float. -/
def maxFloat : Nat := (2 ^ 53 - 1) * 2 ^ 971

theorem two_pow_le_maxFloat : 2 ^ 126 ≤ maxFloat := by
  have hpow : 2 ^ 126 ≤ 2 ^ 971 := Nat.pow_le_pow_right (by decide) (by decide)
  rw [maxFloat]
  exact hpow.trans (Nat.le_mul_of_pos_left _ (by decide))

/-- What Python documents of its conversions: an integer in the range of the floats
converts, and a finite float to an integer of that range. -/
structure FloatOps.Converts (ops : FloatOps) : Prop where
  ofInt_isSome : ∀ n : Int, n.natAbs ≤ maxFloat → (ops.ofInt n).isSome
  trunc_isSome : ∀ bits, (ops.trunc bits).isSome ↔ ∃ n, realNumber bits = .finite n
  trunc_le : ∀ bits n, ops.trunc bits = some n → n.natAbs ≤ maxFloat

def Value.isNumber : Value → Bool
  | .int _ | .real _ => true
  | _ => false

/-- Neither an infinity nor a NaN. -/
def Value.isFinite : Value → Bool
  | .real bits =>
      match realNumber bits with
      | .finite _ => true
      | _ => false
  | _ => true

section Storable

variable {ops : FloatOps} {row : List Value}

/-! ## Arithmetic -/

/-- An integer as a result: itself where it fits, else a float. -/
def Rounded (ops : FloatOps) (n : Int) (result : Except DbError Value) : Prop :=
  if (Value.int n).Storable then result = .ok (.int n)
  else ∃ bits, ops.ofInt n = some bits ∧ result = .ok (.real bits)

theorem Rounded.answers {n : Int} {result : Except DbError Value} (h : Rounded ops n result) :
    Answers result := by
  unfold Rounded at h
  split at h
  · subst h
    assumption
  · obtain ⟨bits, -, rfl⟩ := h
    exact storable_real bits

theorem fit_rounded (hops : ops.Converts) {n : Int} (hn : n.natAbs ≤ 2 ^ 126) :
    Rounded ops n (fitInt64 ops (.int n)) := by
  have hmax := two_pow_le_maxFloat
  obtain ⟨bits, hbits⟩ := Option.isSome_iff_exists.mp (hops.ofInt_isSome n (by omega))
  unfold Rounded
  split
  · rename_i hfits
    rw [storable_iff_fits] at hfits
    simp [fitInt64, hfits]
  · rename_i hfits
    rw [storable_iff_fits] at hfits
    exact ⟨bits, hbits, by simp [fitInt64, hfits, floatOfInt, hbits]⟩

theorem natAbs_le {n : Int} (hn : (Value.int n).Storable) : n.natAbs ≤ 2 ^ 63 := by
  rw [storable_int] at hn
  omega

/-- A truncated quotient. -/
theorem quotient_eq (m n : Int) :
    (if (m < 0) ≠ (n < 0) then -((m.natAbs / n.natAbs : Int)) else (m.natAbs / n.natAbs : Int)) = m.tdiv n := by
  cases m with
  | ofNat m =>
      cases n with
      | ofNat n =>
          simp [Int.tdiv]
          omega
      | negSucc n => simp [Int.tdiv]
  | negSucc m =>
      cases n with
      | ofNat n => simp [Int.tdiv]
      | negSucc n => simp [Int.tdiv]

theorem remainder_eq (m n : Int) :
    (if m < 0 then -((m.natAbs % n.natAbs : Nat) : Int) else ((m.natAbs % n.natAbs : Nat) : Int)) = m.tmod n := by
  cases m <;> cases n <;> simp [Int.tmod]

/-- The division of two integers that are in range. -/
theorem divide_rounded (hops : ops.Converts) {m n : Int} (hm : (Value.int m).Storable) (hn : n ≠ 0) :
    Rounded ops (m.tdiv n) (divide ops (.int m) (.int n)) := by
  have hzero : (Value.int n).pyEq (.int 0) = false := by simp [int_pyEq, hn]
  have hle : (m.tdiv n).natAbs ≤ 2 ^ 126 := by
    rw [Int.natAbs_tdiv]
    have hdiv : m.natAbs.div n.natAbs ≤ m.natAbs := Nat.div_le_self m.natAbs n.natAbs
    have hm := natAbs_le hm
    omega
  have hdivide : divide ops (.int m) (.int n) = fitInt64 ops (.int (m.tdiv n)) := by
    rw [← quotient_eq]
    simp [divide, hzero]
  rw [hdivide]
  exact fit_rounded hops hle

theorem divide_zero (a : Value) : divide ops a (.int 0) = .ok .null := by
  unfold divide
  rw [if_pos (by simp [int_pyEq])]

theorem modulo_int (m n : Int) :
    modulo ops (.int m) (.int n) = if n = 0 then .ok .null else .ok (.int (m.tmod n)) := by
  rw [← remainder_eq]
  simp only [modulo, toInt]
  rfl

theorem modulo_rounded {m n : Int} (hn : (Value.int n).Storable) (hne : n ≠ 0) :
    Rounded ops (m.tmod n) (modulo ops (.int m) (.int n)) := by
  have hstorable : (Value.int (m.tmod n)).Storable := by
    have hlt : (m.tmod n).natAbs < n.natAbs := by
      rw [Int.natAbs_tmod]
      exact Nat.mod_lt _ (Int.natAbs_pos.mpr hne)
    have hn := natAbs_le hn
    rw [storable_int]
    omega
  rw [modulo_int, if_neg hne, Rounded, if_pos hstorable]

/-! ## Operators on storable values -/

/-- A storable number as a float. -/
theorem toFloat_number (hops : ops.Converts) {a : Value} (ha : a.Storable) (hnumber : a.isNumber) :
    ∃ bits, toFloat ops a = .ok bits := by
  cases a with
  | int n =>
      have hn := natAbs_le ha
      have hmax := two_pow_le_maxFloat
      obtain ⟨bits, hbits⟩ := Option.isSome_iff_exists.mp (hops.ofInt_isSome n (by omega))
      exact ⟨bits, by simp [toFloat, floatOfInt, hbits]⟩
  | real bits => exact ⟨bits, rfl⟩
  | null => cases hnumber
  | text s => cases hnumber
  | blob data => cases hnumber

/-- The cast of `%`: of a finite number it is an integer near which there is a float. -/
theorem toInt_finite (hops : ops.Converts) {a : Value} (hnumber : a.isNumber) (hfinite : a.isFinite) :
    ∃ n, toInt ops a = .ok n ∧ (a.Storable → n.natAbs ≤ maxFloat) := by
  cases a with
  | int n =>
      have hmax := two_pow_le_maxFloat
      refine ⟨n, rfl, fun ha => ?_⟩
      have hn := natAbs_le ha
      omega
  | real bits =>
      have hsome := (hops.trunc_isSome bits).mpr (by
        simp only [Value.isFinite] at hfinite
        split at hfinite
        · exact ⟨_, ‹_›⟩
        · cases hfinite)
      obtain ⟨n, hn⟩ := Option.isSome_iff_exists.mp hsome
      exact ⟨n, by simp [toInt, hn], fun _ => hops.trunc_le bits n hn⟩
  | null => cases hnumber
  | text s => cases hnumber
  | blob data => cases hnumber

/-- The cast of `%` raises for an infinity or a NaN. -/
theorem toInt_infinite (hops : ops.Converts) {a : Value} (hinfinite : a.isFinite = false) :
    ∃ e : DbError, toInt ops a = .error e ∧ ¬ Answers (.error e) := by
  cases a with
  | real bits =>
      have hnone : ops.trunc bits = none := by
        by_contra hsome
        obtain ⟨n, hn⟩ := (hops.trunc_isSome bits).mp (Option.isSome_iff_ne_none.mpr hsome)
        simp [Value.isFinite, hn] at hinfinite
      simp only [toInt, hnone]
      split
      · exact ⟨_, rfl, id⟩
      · exact ⟨_, rfl, id⟩
  | null => cases hinfinite
  | int n => cases hinfinite
  | text s => cases hinfinite
  | blob data => cases hinfinite

/-- Two numbers that are not both integers are added, multiplied and so on as floats. -/
theorem pyArith_float (intOp : Int → Int → Int) (floatOp : BitVec 64 → BitVec 64 → BitVec 64)
    {a b : Value} {x y : BitVec 64} (hx : toFloat ops a = .ok x) (hy : toFloat ops b = .ok y)
    (hints : ∀ m n, a = .int m → b ≠ .int n) :
    pyArith ops intOp floatOp a b = .ok (.real (floatOp x y)) := by
  have hfloats : pyArith ops intOp floatOp a b = (do
      let x ← toFloat ops a
      let y ← toFloat ops b
      .ok (.real (floatOp x y))) := by
    cases a with
    | int m =>
        cases b with
        | int n => exact absurd rfl (hints m n rfl)
        | _ => rfl
    | _ => rfl
  rw [hfloats, hx, hy]
  rfl

theorem answers_pyArith (hops : ops.Converts) {a b : Value} (ha : a.Storable) (hb : b.Storable)
    (hna : a.isNumber) (hnb : b.isNumber) {intOp : Int → Int → Int}
    (floatOp : BitVec 64 → BitVec 64 → BitVec 64)
    (hint : ∀ m n : Int, m.natAbs ≤ 2 ^ 63 → n.natAbs ≤ 2 ^ 63 → (intOp m n).natAbs ≤ 2 ^ 126) :
    Answers (pyArith ops intOp floatOp a b >>= fitInt64 ops) := by
  obtain ⟨x, hx⟩ := toFloat_number hops ha hna
  obtain ⟨y, hy⟩ := toFloat_number hops hb hnb
  by_cases hints : ∃ m n, a = .int m ∧ b = .int n
  · obtain ⟨m, n, rfl, rfl⟩ := hints
    exact (fit_rounded hops (hint m n (natAbs_le ha) (natAbs_le hb))).answers
  · have hfloat := pyArith_float intOp floatOp hx hy fun m n hm hn => hints ⟨m, n, hm, hn⟩
    rw [hfloat]
    exact storable_real (floatOp x y)

theorem answers_divide (hops : ops.Converts) {a b : Value} (ha : a.Storable) (hb : b.Storable)
    (hna : a.isNumber) (hnb : b.isNumber) : Answers (divide ops a b) := by
  obtain ⟨x, hx⟩ := toFloat_number hops ha hna
  obtain ⟨y, hy⟩ := toFloat_number hops hb hnb
  by_cases hzero : b.pyEq (.int 0)
  · unfold divide
    rw [if_pos hzero]
    exact storable_null
  · by_cases hints : ∃ m n, a = .int m ∧ b = .int n
    · obtain ⟨m, n, rfl, rfl⟩ := hints
      have hne : n ≠ 0 := by
        rintro rfl
        exact hzero (by simp [int_pyEq])
      exact (divide_rounded hops ha hne).answers
    · have hfloat : divide ops a b = .ok (.real (ops.div x y)) := by
        unfold divide
        rw [if_neg hzero]
        split
        · exact absurd ⟨_, _, rfl, rfl⟩ hints
        · rw [hx, hy]
          rfl
      rw [hfloat]
      exact storable_real (ops.div x y)

/-- The remainder of two numbers that are not both integers is a float. -/
theorem modulo_float {a b : Value} {m n : Int} (hm : toInt ops a = .ok m) (hn : toInt ops b = .ok n)
    (hints : ∀ m n, a = .int m → b ≠ .int n) :
    modulo ops a b = if n = 0 then .ok .null else .real <$> floatOfInt ops (m.tmod n) := by
  have hreal : modulo ops a b = toInt ops a >>= fun m => toInt ops b >>= fun n =>
      if n = 0 then .ok .null
      else .real <$> floatOfInt ops
        (if m < 0 then -((m.natAbs % n.natAbs : Nat) : Int) else ((m.natAbs % n.natAbs : Nat) : Int)) := by
    cases a with
    | int m =>
        cases b with
        | int n => exact absurd rfl (hints m n rfl)
        | _ => rfl
    | _ => rfl
  rw [hreal, hm, hn, ← remainder_eq]
  rfl

theorem answers_modulo (hops : ops.Converts) {a b : Value} (hb : b.Storable)
    (hna : a.isNumber) (hnb : b.isNumber) (hfa : a.isFinite) (hfb : b.isFinite) :
    Answers (modulo ops a b) := by
  obtain ⟨m, hm, -⟩ := toInt_finite hops hna hfa
  obtain ⟨n, hn, hmax⟩ := toInt_finite hops hnb hfb
  have hmax := hmax hb
  by_cases hints : ∃ m n, a = .int m ∧ b = .int n
  · obtain ⟨m, n, rfl, rfl⟩ := hints
    by_cases hne : n = 0
    · rw [modulo_int, if_pos hne]
      exact storable_null
    · exact (modulo_rounded hb hne).answers
  · rw [modulo_float hm hn fun m n hm hn => hints ⟨m, n, hm, hn⟩]
    split
    · exact storable_null
    · rename_i hne
      have hlt : (m.tmod n).natAbs < n.natAbs := by
        rw [Int.natAbs_tmod]
        exact Nat.mod_lt _ (Int.natAbs_pos.mpr hne)
      obtain ⟨bits, hbits⟩ := Option.isSome_iff_exists.mp (hops.ofInt_isSome (m.tmod n) (by omega))
      rw [floatOfInt, hbits]
      exact storable_real bits

/-- A cast that fails is not caught. -/
theorem not_answers_modulo (hops : ops.Converts) {a b : Value} (hna : a.isNumber)
    (hinfinite : ¬ (a.isFinite ∧ b.isFinite)) : ¬ Answers (modulo ops a b) := by
  unfold modulo
  cases hfa : a.isFinite with
  | false =>
      obtain ⟨e, he, hbad⟩ := toInt_infinite hops hfa
      rw [he]
      exact hbad
  | true =>
      have hfb : b.isFinite = false := by simpa [hfa] using hinfinite
      obtain ⟨e, he, hbad⟩ := toInt_infinite hops hfb
      obtain ⟨m, hm, -⟩ := toInt_finite hops hna hfa
      rw [hm, he]
      exact hbad

theorem answers_requireNumber {value : Value} {context : String} {rest : Value → Except DbError Value}
    (hrest : value.isNumber → Answers (rest value)) : Answers (requireNumber value context >>= rest) := by
  cases value with
  | int n => exact hrest rfl
  | real bits => exact hrest rfl
  | null => trivial
  | text s => trivial
  | blob data => trivial

/-- The operators of arithmetic on storable values. -/
theorem answers_arithmetic (hops : ops.Converts) {operator : BinaryOperator} {a b : Value}
    (ha : a.Storable) (hb : b.Storable) (hmod : operator ∉ [.add, .sub, .mul, .div] →
      a.isNumber → b.isNumber → a.isFinite ∧ b.isFinite) : Answers (arithmetic ops operator a b) := by
  apply answers_requireNumber
  intro hna
  apply answers_requireNumber
  intro hnb
  have hother : operator ∉ [.add, .sub, .mul, .div] → Answers (modulo ops a b) := by
    intro hother
    obtain ⟨hfa, hfb⟩ := hmod hother hna hnb
    exact answers_modulo hops hb hna hnb hfa hfb
  cases operator with
  | add => exact answers_pyArith hops ha hb hna hnb _ fun m n hm hn => by omega
  | sub => exact answers_pyArith hops ha hb hna hnb _ fun m n hm hn => by omega
  | mul =>
      apply answers_pyArith hops ha hb hna hnb
      intro m n hm hn
      have hmul := Nat.mul_le_mul hm hn
      rw [Int.natAbs_mul]
      omega
  | div => exact answers_divide hops ha hb hna hnb
  | _ => exact hother (by decide)

theorem compareValues_ok {operator : BinaryOperator} (h : operator ∈ [.eq, .ne, .lt, .le, .gt, .ge])
    (a b : Value) : ∃ flag, compareValues operator a b = .ok flag := by
  have horder : ∀ a b, ∃ flag, applyOrdering operator a b = .ok flag := by
    intro a b
    cases operator <;> first | exact ⟨_, rfl⟩ | exact absurd h (by decide)
  unfold compareValues
  split
  · exact horder _ _
  · exact horder _ _

/-- What `%` needs of its operands: of two numbers neither is an infinity or a NaN. -/
def Divisible (operator : BinaryOperator) (a b : Value) : Prop :=
  operator = .mod → a.isNumber → b.isNumber → a.isFinite ∧ b.isFinite

/-- A binary operator other than AND and OR, on storable values. -/
theorem answers_binary (hops : ops.Converts) {operator : BinaryOperator} (hand : operator ≠ .and)
    (hor : operator ≠ .or) {a b : Value} (ha : a.Storable) (hb : b.Storable)
    (hmod : Divisible operator a b) : Answers (binary ops operator a b) := by
  have hcompare : operator ∈ [.eq, .ne, .lt, .le, .gt, .ge] →
      Answers (ofBool <$> compareValues operator a b) := by
    intro h
    obtain ⟨flag, hflag⟩ := compareValues_ok h a b
    rw [hflag]
    exact storable_ofBool flag
  unfold binary
  split
  · exact storable_null
  · cases operator with
    | and => exact absurd rfl hand
    | or => exact absurd rfl hor
    | like =>
        simp only
        split
        · exact storable_ofBool _
        · trivial
    | eq => exact hcompare (by decide)
    | ne => exact hcompare (by decide)
    | lt => exact hcompare (by decide)
    | le => exact hcompare (by decide)
    | gt => exact hcompare (by decide)
    | ge => exact hcompare (by decide)
    | mod => exact answers_arithmetic hops ha hb fun _ => hmod rfl
    | add => exact answers_arithmetic hops ha hb fun h => absurd (by decide) h
    | sub => exact answers_arithmetic hops ha hb fun h => absurd (by decide) h
    | mul => exact answers_arithmetic hops ha hb fun h => absurd (by decide) h
    | div => exact answers_arithmetic hops ha hb fun h => absurd (by decide) h

theorem answers_unary (hops : ops.Converts) (operator : UnaryOperator) {a : Value} (ha : a.Storable) :
    Answers (unary ops operator a) := by
  cases operator with
  | not =>
      simp only [unary]
      split
      · exact storable_null
      · exact storable_ofBool _
  | plus =>
      simp only [unary]
      split
      · exact storable_null
      · cases a with
        | int n => exact ha
        | _ => trivial
  | minus =>
      simp only [unary]
      split
      · exact storable_null
      · cases a with
        | int n =>
            have hn := natAbs_le ha
            exact (fit_rounded hops (n := -n) (by omega)).answers
        | real bits => exact storable_real (negateBits bits)
        | _ => trivial

/-! ## The evaluator -/

/-- The left operand decides: the right one is not evaluated. -/
def decides (operator : BinaryOperator) (left : Value) : Bool :=
  match operator with
  | .and => truth left = some false
  | .or => truth left = some true
  | _ => false

/-- The expressions that `evaluate` is called on for an expression and a row. -/
def calls (ops : FloatOps) (row : List Value) : BoundExpression → List BoundExpression
  | .literal value => [.literal value]
  | .column c => [.column c]
  | .unaryOp operator operand => .unaryOp operator operand :: calls ops row operand
  | .isNull operand negated => .isNull operand negated :: calls ops row operand
  | .binaryOp left operator right => .binaryOp left operator right :: (calls ops row left ++
      match evaluate ops row left with
      | .ok value => if decides operator value then [] else calls ops row right
      | .error _ => [])

theorem mem_calls (e : BoundExpression) : e ∈ calls ops row e := by
  cases e <;> simp [calls]

theorem mem_calls_binary {left right e : BoundExpression} {operator : BinaryOperator} :
    e ∈ calls ops row (.binaryOp left operator right) ↔ e = .binaryOp left operator right ∨
      e ∈ calls ops row left ∨
      ∃ value, evaluate ops row left = .ok value ∧ decides operator value = false ∧
        e ∈ calls ops row right := by
  rw [calls, List.mem_cons, List.mem_append]
  cases evaluate ops row left with
  | error e => simp
  | ok value => cases hdecides : decides operator value <;> simp [hdecides]

/-- Where the evaluator does not look: a constant goes through unchecked, and `%` casts
what is no integer's neighbour. -/
def InRange (ops : FloatOps) (row : List Value) : BoundExpression → Prop
  | .literal value => value.Storable
  | .binaryOp left operator right => ∀ a b, evaluate ops row left = .ok a → evaluate ops row right = .ok b →
      Divisible operator a b
  | _ => True

/-- Every column of an expression is in the row. -/
def ColumnsIn (width : Nat) : BoundExpression → Prop
  | .literal _ => True
  | .column c => c.index < width
  | .unaryOp _ operand => ColumnsIn width operand
  | .isNull operand _ => ColumnsIn width operand
  | .binaryOp left _ right => ColumnsIn width left ∧ ColumnsIn width right

theorem answers_bind {r : Except DbError Value} {rest : Value → Except DbError Value} (hr : Answers r)
    (hrest : ∀ value, r = .ok value → value.Storable → Answers (rest value)) : Answers (r >>= rest) := by
  cases r with
  | ok value => exact hrest value rfl hr
  | error e => exact hr

theorem evaluate_binary {left right : BoundExpression} {operator : BinaryOperator} (hand : operator ≠ .and)
    (hor : operator ≠ .or) : evaluate ops row (.binaryOp left operator right) =
      evaluate ops row left >>= fun l => evaluate ops row right >>= fun r => binary ops operator l r := by
  cases operator <;> first | rfl | contradiction

theorem answers_and {left right : BoundExpression} (hleft : Answers (evaluate ops row left))
    (hright : ∀ value, evaluate ops row left = .ok value → decides .and value = false →
      Answers (evaluate ops row right)) : Answers (evaluate ops row (.binaryOp left .and right)) := by
  rw [evaluate]
  apply answers_bind hleft
  intro l hl _
  simp only
  split
  · exact storable_ofBool false
  · rename_i hgoes
    apply answers_bind (hright l hl (by simp [decides, hgoes]))
    intro r _ _
    split
    · exact storable_ofBool false
    · split
      · exact storable_null
      · exact storable_ofBool true

theorem answers_or {left right : BoundExpression} (hleft : Answers (evaluate ops row left))
    (hright : ∀ value, evaluate ops row left = .ok value → decides .or value = false →
      Answers (evaluate ops row right)) : Answers (evaluate ops row (.binaryOp left .or right)) := by
  rw [evaluate]
  apply answers_bind hleft
  intro l hl _
  simp only
  split
  · exact storable_ofBool true
  · rename_i hgoes
    apply answers_bind (hright l hl (by simp [decides, hgoes]))
    intro r _ _
    split
    · exact storable_ofBool true
    · split
      · exact storable_null
      · exact storable_ofBool false

/-- If the evaluator comes to nothing out of range, each of its calls answers. -/
theorem answers_calls (hops : ops.Converts) (hrow : ∀ value ∈ row, value.Storable) {e : BoundExpression}
    (hwithin : ColumnsIn row.length e) (hrange : ∀ e' ∈ calls ops row e, InRange ops row e') :
    ∀ e' ∈ calls ops row e, Answers (evaluate ops row e') := by
  induction e with
  | literal value =>
      intro e' he'
      have hvalue := hrange e' he'
      rw [calls, List.mem_singleton] at he'
      subst he'
      exact hvalue
  | column c =>
      intro e' he'
      rw [calls, List.mem_singleton] at he'
      subst he'
      have hlt : c.index < row.length := hwithin
      rw [evaluate, List.getElem?_eq_getElem hlt]
      exact hrow _ (List.getElem_mem hlt)
  | unaryOp operator operand ih =>
      have hoperand := ih hwithin fun e' he' => hrange e' (List.mem_cons_of_mem _ he')
      intro e' he'
      rcases List.mem_cons.mp he' with rfl | he'
      · rw [evaluate]
        exact answers_bind (hoperand operand (mem_calls operand)) fun value _ hvalue =>
          answers_unary hops operator hvalue
      · exact hoperand e' he'
  | isNull operand negated ih =>
      have hoperand := ih hwithin fun e' he' => hrange e' (List.mem_cons_of_mem _ he')
      intro e' he'
      rcases List.mem_cons.mp he' with rfl | he'
      · rw [evaluate]
        exact answers_bind (hoperand operand (mem_calls operand)) fun value _ _ => storable_ofBool _
      · exact hoperand e' he'
  | binaryOp left operator right ihl ihr =>
      have hleft := ihl hwithin.1 fun e' he' => hrange e' (mem_calls_binary.mpr (.inr (.inl he')))
      have hright : ∀ value, evaluate ops row left = .ok value → decides operator value = false →
          ∀ e' ∈ calls ops row right, Answers (evaluate ops row e') := by
        intro value hvalue hgoes
        exact ihr hwithin.2 fun e' he' =>
          hrange e' (mem_calls_binary.mpr (.inr (.inr ⟨value, hvalue, hgoes, he'⟩)))
      intro e' he'
      rcases mem_calls_binary.mp he' with rfl | he' | ⟨value, hvalue, hgoes, he'⟩
      · have hself := hrange _ (mem_calls _)
        have hl := hleft left (mem_calls left)
        have hr := fun value hvalue hgoes => hright value hvalue hgoes right (mem_calls right)
        by_cases hand : operator = .and
        · subst hand
          exact answers_and hl hr
        · by_cases hor : operator = .or
          · subst hor
            exact answers_or hl hr
          · rw [evaluate_binary hand hor]
            apply answers_bind hl
            intro a ha hstorable
            have hgoes : decides operator a = false := by cases operator <;> first | rfl | contradiction
            apply answers_bind (hr a ha hgoes)
            intro b hb hstorable'
            exact answers_binary hops hand hor hstorable hstorable' (hself a b ha hb)
      · exact hleft e' he'
      · exact hright value hvalue hgoes e' he'

theorem binary_mod {a b : Value} (hna : a.isNumber) (hnb : b.isNumber) :
    binary ops .mod a b = modulo ops a b := by
  cases a <;> cases b <;> first | rfl | simp [Value.isNumber] at hna hnb

/-- A call that answers is in range. -/
theorem inRange_of_answers (hops : ops.Converts) {e : BoundExpression} (h : Answers (evaluate ops row e)) :
    InRange ops row e := by
  cases e with
  | literal value => exact h
  | column c => trivial
  | unaryOp operator operand => trivial
  | isNull operand negated => trivial
  | binaryOp left operator right =>
      intro a b ha hb hmod hna hnb
      by_contra hinfinite
      subst hmod
      have hbinary : evaluate ops row (.binaryOp left .mod right) = modulo ops a b := by
        rw [evaluate_binary (by decide) (by decide), ha, hb, ← binary_mod hna hnb]
        rfl
      rw [hbinary] at h
      exact not_answers_modulo hops hna hinfinite h

/-- The arithmetic of two operands with integers in range: exact where the result fits. -/
structure Exact (ops : FloatOps) (row : List Value) (left right : BoundExpression) (m n : Int) : Prop where
  add : Rounded ops (m + n) (evaluate ops row (.binaryOp left .add right))
  sub : Rounded ops (m - n) (evaluate ops row (.binaryOp left .sub right))
  mul : Rounded ops (m * n) (evaluate ops row (.binaryOp left .mul right))
  div : n ≠ 0 → Rounded ops (m.tdiv n) (evaluate ops row (.binaryOp left .div right))
  mod : n ≠ 0 → Rounded ops (m.tmod n) (evaluate ops row (.binaryOp left .mod right))
  div_zero : n = 0 → evaluate ops row (.binaryOp left .div right) = .ok .null
  mod_zero : n = 0 → evaluate ops row (.binaryOp left .mod right) = .ok .null
  minus : Rounded ops (-m) (evaluate ops row (.unaryOp .minus left))

theorem exact_arithmetic (hops : ops.Converts) {left right : BoundExpression} {m n : Int}
    (hm : (Value.int m).Storable) (hn : (Value.int n).Storable) (hleft : evaluate ops row left = .ok (.int m))
    (hright : evaluate ops row right = .ok (.int n)) : Exact ops row left right m n := by
  have hmle := natAbs_le hm
  have hnle := natAbs_le hn
  have harith : ∀ {operator : BinaryOperator}, operator ∈ [.add, .sub, .mul, .div, .mod] →
      evaluate ops row (.binaryOp left operator right) = arithmetic ops operator (.int m) (.int n) := by
    intro operator hoperator
    cases operator <;> first | exact absurd hoperator (by decide) |
      (rw [evaluate_binary (by decide) (by decide), hleft, hright]; rfl)
  constructor
  · rw [harith (by decide)]
    exact fit_rounded hops (by omega)
  · rw [harith (by decide)]
    exact fit_rounded hops (by omega)
  · rw [harith (by decide)]
    apply fit_rounded hops
    have hmul := Nat.mul_le_mul hmle hnle
    rw [Int.natAbs_mul]
    omega
  · intro hne
    rw [harith (by decide)]
    exact divide_rounded hops hm hne
  · intro hne
    rw [harith (by decide)]
    exact modulo_rounded hn hne
  · rintro rfl
    have hdivide : ∀ n : Int, arithmetic ops .div (.int m) (.int n) = divide ops (.int m) (.int n) :=
      fun _ => rfl
    rw [harith (by decide), hdivide, divide_zero]
  · rintro rfl
    have hzero := @modulo_int ops m 0
    rw [if_pos rfl] at hzero
    rw [harith (by decide)]
    exact hzero
  · rw [evaluate, hleft]
    exact fit_rounded hops (by omega)

end Storable

/-! ## Expressions from the binder -/

section Bind

variable {casefold : String → String} {parameters : List Value} {table : TableSchema}

/-- A bound expression has its columns in the rows of the table. -/
theorem expression_within : (ast : Ast.Expression) → ∀ {e : BoundExpression} {consumed consumed' : List Nat},
    Binder.expression casefold parameters table ast consumed = (.ok e, consumed') →
      ColumnsIn table.columns.length e
  | .literal value, _, _, _, h => by
      cases h
      trivial
  | .parameter index, _, _, _, h => by
      obtain ⟨value, _, -, h⟩ := exists_of_bind_ok h
      cases h
      trivial
  | .column name qualifier, _, _, _, h => by
      obtain ⟨index, _, hindex, h⟩ := exists_of_bind_ok h
      have hlt := TableSchema.columnIndex_lt (congrArg Prod.fst hindex)
      rw [List.getElem?_eq_getElem hlt] at h
      cases h
      exact hlt
  | .unaryOp operator operand, _, _, _, h => by
      obtain ⟨bound, _, hbound, h⟩ := exists_of_bind_ok h
      cases h
      have hoperand := expression_within operand hbound
      exact hoperand
  | .binaryOp left operator right, _, _, _, h => by
      obtain ⟨l, _, hl, h⟩ := exists_of_bind_ok h
      obtain ⟨r, _, hr, h⟩ := exists_of_bind_ok h
      cases h
      exact ⟨expression_within left hl, expression_within right hr⟩
  | .isNull operand negated, _, _, _, h => by
      obtain ⟨bound, _, hbound, h⟩ := exists_of_bind_ok h
      cases h
      have hoperand := expression_within operand hbound
      exact hoperand
  | .functionCall name args star, _, _, _, h => by cases h

end Bind

/-! ## Every call answers -/

/-- Every call of the evaluator answers with a storable value or a type mismatch exactly
when it comes to no constant out of range, and to no `%` of numbers that casts an
infinity or a NaN; the binder's expressions are among those it holds of; arithmetic on
integers in range is exact. -/
theorem evaluate_answers_iff {ops : FloatOps} {row : List Value} (hops : ops.Converts)
    (hrow : ∀ value ∈ row, value.Storable) :
    (∀ e, ColumnsIn row.length e →
      ((∀ e' ∈ calls ops row e, Answers (evaluate ops row e')) ↔ ∀ e' ∈ calls ops row e, InRange ops row e')) ∧
    (∀ casefold parameters table ast consumed e consumed', row.length = table.columns.length →
      Binder.expression casefold parameters table ast consumed = (.ok e, consumed') → ColumnsIn row.length e) ∧
    ∀ left right m n, (Value.int m).Storable → (Value.int n).Storable →
      evaluate ops row left = .ok (.int m) → evaluate ops row right = .ok (.int n) →
        Exact ops row left right m n := by
  refine ⟨fun e hwithin => ⟨fun h e' he' => inRange_of_answers hops (h e' he'), answers_calls hops hrow hwithin⟩,
    fun casefold parameters table ast consumed e consumed' hwidth hbound => ?_, ?_⟩
  · rw [hwidth]
    exact expression_within ast hbound
  · intro left right m n hm hn hleft hright
    exact exact_arithmetic hops hm hn hleft hright

/-! ## A platform -/

/-- The integers that round to no float start here. -/
def floatLimit : Nat := (2 ^ 54 - 1) * 2 ^ 970

theorem maxFloat_lt : maxFloat < floatLimit := by
  have hlt : ∀ k, (2 ^ 53 - 1) * 2 ^ (k + 1) < (2 ^ 54 - 1) * 2 ^ k := by
    intro k
    have hpos := Nat.two_pow_pos k
    rw [Nat.pow_succ]
    omega
  have hsucc : 971 = 970 + 1 := rfl
  rw [maxFloat, floatLimit, hsucc]
  exact hlt 970

-- an integer is compared with it: no elaboration is to count up to it
attribute [irreducible] floatLimit

/-- The greatest finite float. -/
def maxFiniteBits : Nat := 0x7FEFFFFFFFFFFFFF

/-- The bits of the float nearest to `num / den`, ties to even, up to the greatest one. -/
def roundRatio (num den : Nat) : Nat :=
  let estimate : Int := (num.log2 : Int) - den.log2
  let exponent := if den * 2 ^ estimate.toNat ≤ num * 2 ^ (-estimate).toNat then estimate else estimate - 1
  let unit := max (exponent - 52) (-1074)
  let top := num * 2 ^ (-unit).toNat
  let bottom := den * 2 ^ unit.toNat
  let up := bottom < 2 * (top % bottom) ∨ (bottom = 2 * (top % bottom) ∧ top / bottom % 2 = 1)
  if num = 0 then 0
  else min maxFiniteBits ((unit + 1074).toNat * 2 ^ 52 + (top / bottom + if up then 1 else 0))

/-- A finite float of this sign. -/
def signedBits (negative : Bool) (magnitude : Nat) : BitVec 64 :=
  BitVec.ofNat 64 (magnitude + if negative then 2 ^ 63 else 0)

def infinityBits (negative : Bool) : BitVec 64 := signedBits negative 0x7FF0000000000000

def nanBits : BitVec 64 := 0x7FF8000000000000

/-- The float nearest to `n / den`, or an infinity. -/
def roundFloat (n : Int) (den : Nat) : BitVec 64 :=
  if n.natAbs < floatLimit * den then signedBits (n < 0) (roundRatio n.natAbs den) else infinityBits (n < 0)

/-- An operation on two finite floats, in units of `2 ^ -1074`. -/
def onFinite (f : Int → Int → BitVec 64) (a b : BitVec 64) : BitVec 64 :=
  match realNumber a, realNumber b with
  | .finite x, .finite y => f x y
  | _, _ => nanBits

example : roundRatio 1 3 = 0x3FD5555555555555 ∧ roundRatio 1 100 = 0x3F847AE147AE147B := by decide +kernel

/-- `int(x)`. -/
def truncated : Number → Option Int
  | .finite n => some (n.tdiv (2 ^ 1074))
  | _ => none

/-- The float arithmetic of runs on finite floats. -/
def floatArithmetic : FloatOps where
  add := onFinite fun x y => roundFloat (x + y) (2 ^ 1074)
  sub := onFinite fun x y => roundFloat (x - y) (2 ^ 1074)
  mul := onFinite fun x y => roundFloat (x * y) (2 ^ (1074 + 1074))
  div := onFinite fun x y => roundFloat (if y < 0 then -x else x) y.natAbs
  ofInt n := if n.natAbs < floatLimit then some (roundFloat n 1) else none
  trunc bits := truncated (realNumber bits)
  intDiv n m :=
    if n.natAbs < floatLimit * m.natAbs then some (roundFloat (if m < 0 then -n else n) m.natAbs) else none

/-- The finite floats, in the unit of `Number`. -/
theorem realNumber_le {bits : BitVec 64} {n : Int} (h : realNumber bits = .finite n) :
    n.natAbs ≤ maxFloat * 2 ^ 1074 := by
  have hunit : maxFloat * 2 ^ 1074 = (2 ^ 53 - 1) * 2 ^ 2045 := by
    rw [maxFloat, Nat.mul_assoc, ← Nat.pow_add]
  rw [hunit]
  unfold realNumber at h
  simp only at h
  split at h
  · split at h
    · cases h
    · split at h <;> cases h
  · rename_i hexponent
    have hmantissa := Nat.mod_lt bits.toNat (Nat.two_pow_pos 52)
    have hexponent' := Nat.mod_lt (bits.toNat / 2 ^ 52) (Nat.two_pow_pos 11)
    generalize bits.toNat % 2 ^ 52 = mantissa at h hmantissa
    generalize bits.toNat / 2 ^ 52 % 2 ^ 11 = exponent at h hexponent hexponent'
    have hmagnitude : (if exponent = 0 then mantissa else (2 ^ 52 + mantissa) * 2 ^ (exponent - 1)) ≤
        (2 ^ 53 - 1) * 2 ^ 2045 := by
      split
      · exact (show mantissa ≤ 2 ^ 53 - 1 by omega).trans (Nat.le_mul_of_pos_right _ (Nat.two_pow_pos 2045))
      · exact Nat.mul_le_mul (by omega) (Nat.pow_le_pow_right (by decide) (by omega))
    generalize (if exponent = 0 then mantissa else (2 ^ 52 + mantissa) * 2 ^ (exponent - 1)) = magnitude
      at h hmagnitude
    have hn := Number.finite.inj h
    subst hn
    split
    · rwa [Int.natAbs_neg, Int.natAbs_natCast]
    · rwa [Int.natAbs_natCast]

theorem natAbs_tdiv_le {n : Int} {limit k : Nat} (h : n.natAbs ≤ limit * 2 ^ k) :
    (n.tdiv (2 ^ k)).natAbs ≤ limit := by
  have hunit : ((2 : Int) ^ k).natAbs = 2 ^ k := by simp [Int.natAbs_pow]
  rw [Int.natAbs_tdiv, hunit]
  exact Nat.div_le_of_le_mul (by rwa [Nat.mul_comm])

theorem floatArithmetic_converts : floatArithmetic.Converts where
  ofInt_isSome n hn := by
    simp only [floatArithmetic, if_pos (hn.trans_lt maxFloat_lt), Option.isSome_some]
  trunc_isSome bits := by
    simp only [floatArithmetic]
    cases realNumber bits <;> simp [truncated]
  trunc_le bits n hn := by
    simp only [floatArithmetic] at hn
    cases hnumber : realNumber bits with
    | finite k =>
        rw [hnumber] at hn
        obtain rfl := Option.some.inj hn
        exact natAbs_tdiv_le (realNumber_le hnumber)
    | negInf => rw [hnumber] at hn; cases hn
    | posInf => rw [hnumber] at hn; cases hn
    | nan => rw [hnumber] at hn; cases hn

def remainderOfThree : BoundExpression :=
  .binaryOp (.column ⟨0, "a", .integer, 0⟩) .mod (.literal (.int 3))

theorem evaluate_answers_iff_remainder :
    Answers (evaluate floatArithmetic [.int 7] remainderOfThree) ∧
      Answers (evaluate floatArithmetic [.int 7] (.literal (.int 3))) := by
  have hrow : ∀ value ∈ [Value.int 7], value.Storable := by decide
  obtain ⟨hiff, hwithin, -⟩ := evaluate_answers_iff floatArithmetic_converts hrow
  have hbound : Binder.expression id [] ⟨"t", [⟨"a", .integer⟩], 2, ""⟩
      (.binaryOp (.column "a" none) .mod (.literal (.int 3))) [] = (.ok remainderOfThree, []) := rfl
  have hall : ∀ e ∈ calls floatArithmetic [.int 7] remainderOfThree,
      Answers (evaluate floatArithmetic [.int 7] e) := by
    apply (hiff _ (hwithin _ _ _ _ _ _ _ rfl hbound)).mpr
    intro e he
    rcases mem_calls_binary.mp he with rfl | he | ⟨value, -, -, he⟩
    · intro a b ha hb _ _ _
      cases ha
      cases hb
      decide
    · rw [calls, List.mem_singleton] at he
      subst he
      trivial
    · rw [calls, List.mem_singleton] at he
      subst he
      have hthree : (Value.int 3).Storable := by decide
      exact hthree
  have hthree : .literal (.int 3) ∈ calls floatArithmetic [.int 7] remainderOfThree :=
    mem_calls_binary.mpr (.inr (.inr ⟨.int 7, rfl, rfl, mem_calls _⟩))
  exact ⟨hall _ (mem_calls _), hall _ hthree⟩

/-- The tokens of the least integer that is out of range. -/
def tooGreat : List Token := [⟨.integer, "9223372036854775808", some (.int (2 ^ 63)), 0⟩, ⟨.eof, "", none, 19⟩]

/-- A constant that no record can hold is the value of an accepted expression, and the
cast of `%` raises for an infinite parameter. -/
theorem evaluate_unstorable :
    (Tokenizer.tokenize Tokenizer.latin1 "9223372036854775808".toList = .ok tooGreat ∧
      Parser.expression Tokenizer.latin1 24 0 ⟨tooGreat, 0⟩ =
        .ok (.literal (.int (2 ^ 63)), ⟨[⟨.eof, "", none, 19⟩], 0⟩) ∧
      Binder.expression id [] ⟨"t", [], 2, ""⟩ (.literal (.int (2 ^ 63))) [] =
        (.ok (.literal (.int (2 ^ 63))), []) ∧
      ¬ Answers (evaluate floatArithmetic [] (.literal (.int (2 ^ 63))))) ∧
      ¬ Answers (evaluate floatArithmetic []
        (.binaryOp (.literal (.real 0x7FF0000000000000)) .mod (.literal (.int 2)))) := by
  refine ⟨⟨rfl, rfl, rfl, ?_⟩, ?_⟩
  · intro h
    have hfits : (Value.int (2 ^ 63)).Storable := h
    exact absurd hfits (by decide)
  · apply @not_answers_modulo floatArithmetic floatArithmetic_converts (.real 0x7FF0000000000000) (.int 2) rfl
    decide

end QuillDb
