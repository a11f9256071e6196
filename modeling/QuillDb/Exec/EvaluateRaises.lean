/-
  Exec/EvaluateRaises.lean --- no expression speaks of a UNIQUE index.

  Source: `evaluate` of `quilldb/exec/expressions.py`.
-/
import QuillDb.BTree.Raises
import QuillDb.Exec.Expressions

set_option autoImplicit false

namespace QuillDb

open Fallible

section EvaluateRaises

variable {ops : FloatOps}

theorem applyOrdering_fails (operator : BinaryOperator) (a b : Value) :
    Fails DbError.Ordinary (applyOrdering operator a b) := by
  cases operator <;> first | exact Fails.ok _ | exact Fails.error trivial

theorem requireNumber_fails (value : Value) (context : String) :
    Fails DbError.Ordinary (requireNumber value context) := by
  cases value <;> first | exact Fails.ok _ | exact Fails.error trivial

theorem floatOfInt_fails (n : Int) : Fails DbError.Ordinary (floatOfInt ops n) := by
  unfold floatOfInt
  split
  · exact Fails.ok _
  · exact Fails.error trivial

theorem toFloat_fails (value : Value) : Fails DbError.Ordinary (toFloat ops value) := by
  cases value <;> first | exact floatOfInt_fails _ | exact Fails.ok _ | exact Fails.error trivial

theorem toInt_fails (value : Value) : Fails DbError.Ordinary (toInt ops value) := by
  cases value with
  | int n => exact Fails.ok _
  | real bits =>
      rw [toInt]
      split
      · exact Fails.ok _
      · exact Fails.ite (Fails.error trivial) (Fails.error trivial)
  | null => exact Fails.error trivial
  | text s => exact Fails.error trivial
  | blob data => exact Fails.error trivial

theorem fitInt64_fails (value : Value) : Fails DbError.Ordinary (fitInt64 ops value) := by
  cases value with
  | int n => exact Fails.ite (Fails.ok _) ((floatOfInt_fails n).map _)
  | null => exact Fails.ok _
  | real bits => exact Fails.ok _
  | text s => exact Fails.ok _
  | blob data => exact Fails.ok _

theorem pyArith_fails (intOp : Int → Int → Int) (floatOp : BitVec 64 → BitVec 64 → BitVec 64) (a b : Value) :
    Fails DbError.Ordinary (pyArith ops intOp floatOp a b) := by
  unfold pyArith
  split
  · exact Fails.ok _
  · exact (toFloat_fails a).bind fun x => (toFloat_fails b).bind fun y => Fails.ok _

theorem divide_fails (a b : Value) : Fails DbError.Ordinary (divide ops a b) := by
  unfold divide
  split
  · exact Fails.ok _
  · split
    · exact fitInt64_fails _
    · exact (toFloat_fails _).bind fun x => (toFloat_fails _).bind fun y => Fails.ok _

theorem modulo_fails (a b : Value) : Fails DbError.Ordinary (modulo ops a b) := by
  apply (toInt_fails a).bind
  intro m
  apply (toInt_fails b).bind
  intro n
  refine Fails.ite (Fails.ok _) ?_
  dsimp only
  split
  · exact Fails.ok _
  · exact (floatOfInt_fails _).map _

theorem arithmetic_fails (operator : BinaryOperator) (left right : Value) :
    Fails DbError.Ordinary (arithmetic ops operator left right) := by
  apply (requireNumber_fails left _).bind
  intro a
  apply (requireNumber_fails right _).bind
  intro b
  cases operator with
  | add => exact (pyArith_fails _ _ _ _).bind fun _ => fitInt64_fails _
  | sub => exact (pyArith_fails _ _ _ _).bind fun _ => fitInt64_fails _
  | mul => exact (pyArith_fails _ _ _ _).bind fun _ => fitInt64_fails _
  | div => exact divide_fails _ _
  | _ => exact modulo_fails _ _

theorem unary_fails (operator : UnaryOperator) (operand : Value) :
    Fails DbError.Ordinary (unary ops operator operand) := by
  cases operator with
  | not => exact Fails.ok _
  | plus => exact Fails.ite (Fails.ok _) (requireNumber_fails _ _)
  | minus =>
      refine Fails.ite (Fails.ok _) ((requireNumber_fails _ _).bind fun value => ?_)
      split
      · exact fitInt64_fails _
      · exact Fails.ok _
      · exact Fails.error trivial

theorem binary_fails (operator : BinaryOperator) (left right : Value) :
    Fails DbError.Ordinary (binary ops operator left right) := by
  refine Fails.ite (Fails.ok _) ?_
  have hcompare : Fails DbError.Ordinary (compareValues operator left right) :=
    Fails.ite (applyOrdering_fails _ _ _) (applyOrdering_fails _ _ _)
  cases operator with
  | like =>
      dsimp only
      split
      · exact Fails.ok _
      · exact Fails.error trivial
  | add | sub | mul | div | mod => exact arithmetic_fails _ _ _
  | eq | ne | lt | le | gt | ge => exact hcompare.map _
  | and | or => exact Fails.error trivial

/-- No expression speaks of a UNIQUE index. -/
theorem evaluate_fails (row : List Value) (e : BoundExpression) : Fails DbError.Ordinary (evaluate ops row e) := by
  induction e with
  | literal value => exact Fails.ok _
  | column c =>
      rw [evaluate]
      split
      · exact Fails.ok _
      · exact Fails.error trivial
  | isNull operand negated ih =>
      rw [evaluate]
      exact ih.bind fun value => Fails.ok _
  | unaryOp operator operand ih =>
      rw [evaluate]
      exact ih.bind fun value => unary_fails _ _
  | binaryOp left operator right ihl ihr =>
      cases operator with
      | and =>
          rw [evaluate]
          refine ihl.bind fun l => Fails.ite (Fails.ok _) (ihr.bind fun r => ?_)
          exact Fails.ite (Fails.ok _) (Fails.ok _)
      | or =>
          rw [evaluate]
          refine ihl.bind fun l => Fails.ite (Fails.ok _) (ihr.bind fun r => ?_)
          exact Fails.ite (Fails.ok _) (Fails.ok _)
      | _ =>
          rw [evaluate]
          · exact ihl.bind fun l => ihr.bind fun r => binary_fails _ _ _
          all_goals simp

end EvaluateRaises

end QuillDb
