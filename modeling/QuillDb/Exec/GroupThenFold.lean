/-
  Exec/GroupThenFold.lean --- what an aggregate query means.

  Source: `quilldb/exec/aggregate.py`.

  The rows of equal keys make a class, and each aggregate has a value for the arguments
  of a class that are not NULL.  A SUM of integers is checked at every addition, but the
  number it starts from is not.
-/
import QuillDb.Exec.Aggregate

set_option autoImplicit false

namespace QuillDb

open Fallible

/-! ## Reference values -/

/-- The arguments that are not NULL. -/
def nonNull (args : List Value) : List Value := args.filter fun v => v ≠ .null

/-- The first of the values that none of those after it beats. -/
def extremum (o : Ordering) : List Value → Value
  | [] => .null
  | v :: vs => vs.foldl (fun m v => if compareKeys [v] [m] = o then v else m) v

/-- An extremum: where there is no NaN, one of the values that no other beats. -/
structure Extreme (o : Ordering) (args : List Value) (v : Value) : Prop where
  value : v = extremum o args
  extreme : (∀ a ∈ args, ¬ a.isNan) → args ≠ [] → v ∈ args ∧ ∀ a ∈ args, compareKeys [a] [v] ≠ o

section Reference

variable (ops : FloatOps)

/-- The sum, from left to right. -/
def sumOf : List Value → Except DbError Value
  | [] => .ok .null
  | v :: vs => vs.foldlM (pyAdd ops) v

/-- The mean. -/
def averageOf (args : List Value) : Except DbError Value :=
  if args.isEmpty then .ok .null
  else do
    let total ← sumOf ops args
    quotient ops total args.length

/-- The value of an aggregate for the arguments of a class. -/
def IsReference (func : AggregateFunction) (args : List Value) (v : Value) : Prop :=
  match func with
  | .countStar => v = .int args.length
  | .count => v = .int (nonNull args).length
  | .sum => sumOf ops (nonNull args) = .ok v
  | .avg => averageOf ops (nonNull args) = .ok v
  | .min => Extreme .lt (nonNull args) v
  | .max => Extreme .gt (nonNull args) v

variable {ops}

/-- A step that ignores NULL. -/
theorem foldlM_nonNull {σ : Type} {step : σ → Value → Except DbError σ}
    (hstep : ∀ s, step s .null = .ok s) (args : List Value) (s : σ) :
    args.foldlM step s = (nonNull args).foldlM step s := by
  induction args generalizing s with
  | nil => rfl
  | cons arg args ih =>
      rw [nonNull, List.filter_cons, List.foldlM_cons]
      by_cases hnull : arg = .null
      · rw [if_neg (by simp [hnull]), hnull, hstep]
        exact ih s
      · rw [if_pos (by simp [hnull]), List.foldlM_cons]
        exact congrArg _ (funext fun s' => ih s')

theorem ne_null_of_mem {args : List Value} : ∀ v ∈ nonNull args, v ≠ .null :=
  fun _ hv => of_decide_eq_true (List.mem_filter.mp hv).2

/-- Counting, with and without NULLs. -/
theorem foldlM_count {step : Nat → Value → Except DbError Nat} {args : List Value}
    (hstep : ∀ v ∈ args, ∀ s, step s v = .ok (s + 1)) (s : Nat) :
    args.foldlM step s = .ok (s + args.length) := by
  induction args generalizing s with
  | nil => rfl
  | cons arg args ih =>
      obtain ⟨harg, hargs⟩ := List.forall_mem_cons.mp hstep
      rw [List.foldlM_cons, harg]
      refine (ih hargs (s + 1)).trans ?_
      rw [List.length_cons, Nat.add_assoc, Nat.add_comm 1]

theorem foldlM_extreme {o : Ordering} {vs : List Value} (hvs : ∀ v ∈ vs, v ≠ .null) {m : Value}
    (hm : m ≠ .null) :
    vs.foldlM (fun s v => (Except.ok (extremeStep o s v) : Except DbError Value)) m =
      .ok (vs.foldl (fun m v => if compareKeys [v] [m] = o then v else m) m) := by
  induction vs generalizing m with
  | nil => rfl
  | cons v vs ih =>
      obtain ⟨hv, hvs⟩ := List.forall_mem_cons.mp hvs
      have hstep : extremeStep o m v = if compareKeys [v] [m] = o then v else m := by
        rw [extremeStep, if_neg hv, if_neg hm]
      rw [List.foldlM_cons, List.foldl_cons, ← hstep]
      refine ih hvs ?_
      rw [hstep]
      split
      · exact hv
      · exact hm

/-- What a fold keeps is one of the elements, and the least of them. -/
theorem foldl_least {L : Type} [LinearOrder L] {f : Value → L} {R : Value → Value → Prop} [DecidableRel R]
    {vs : List Value} {m : Value}
    (hR : ∀ a ∈ m :: vs, ∀ b ∈ m :: vs, R a b ↔ f a < f b) :
    vs.foldl (fun m v => if R v m then v else m) m ∈ m :: vs ∧
      ∀ a ∈ m :: vs, f (vs.foldl (fun m v => if R v m then v else m) m) ≤ f a := by
  induction vs generalizing m with
  | nil =>
      refine ⟨List.mem_singleton.mpr rfl, fun a ha => ?_⟩
      rw [List.mem_singleton.mp ha]
      exact le_rfl
  | cons v vs ih =>
      have hv : v ∈ m :: v :: vs := List.mem_cons_of_mem _ (List.mem_cons_self ..)
      have hm : m ∈ m :: v :: vs := List.mem_cons_self ..
      rw [List.foldl_cons]
      -- the better of the first two stands for both
      have hfirst : ∀ w ∈ [m, v], f (if R v m then v else m) ≤ f w := by
        intro w hw
        by_cases hbeats : R v m
        · rw [if_pos hbeats]
          rcases List.mem_pair.mp hw with rfl | rfl
          · exact ((hR v hv w hm).mp hbeats).le
          · exact le_rfl
        · rw [if_neg hbeats]
          rcases List.mem_pair.mp hw with rfl | rfl
          · exact le_rfl
          · exact not_lt.mp fun hlt => hbeats ((hR w hv m hm).mpr hlt)
      have hsub : ∀ a ∈ (if R v m then v else m) :: vs, a ∈ m :: v :: vs := by
        refine List.forall_mem_cons.mpr ⟨?_, fun a ha => List.mem_cons_of_mem _ (List.mem_cons_of_mem _ ha)⟩
        split
        · exact hv
        · exact hm
      obtain ⟨hmem, hbest⟩ := ih fun a ha b hb => hR a (hsub a ha) b (hsub b hb)
      obtain ⟨hbestFirst, hbestRest⟩ := List.forall_mem_cons.mp hbest
      refine ⟨?_, List.forall_mem_cons.mpr ⟨?_, List.forall_mem_cons.mpr ⟨?_, hbestRest⟩⟩⟩
      · exact hsub _ hmem
      · exact hbestFirst.trans (hfirst m (List.mem_cons_self ..))
      · exact hbestFirst.trans (hfirst v (by simp))

/-- Two values compare like their places. -/
theorem compareKeys_singleton {a b : Value} (ha : ¬ a.isNan) (hb : ¬ b.isNan) :
    (compareKeys [a] [b] = .lt ↔ a.place < b.place) ∧ (compareKeys [a] [b] = .gt ↔ b.place < a.place) := by
  have hplace : ∀ x y : List Int, [x] < [y] ↔ x < y := fun x y => by
    rw [List.cons_lt_cons_iff]
    simp
  have hcases := compareKeys_cases (comparable_singleton ha) (comparable_singleton hb)
  cases hcmp : compareKeys [a] [b] with
  | lt =>
      rw [hcmp] at hcases
      have hlt := (hplace _ _).mp hcases
      exact ⟨iff_of_true rfl hlt, iff_of_false (by decide) hlt.le.not_gt⟩
  | eq =>
      rw [hcmp] at hcases
      have heq : a.place = b.place := List.singleton_inj.mp hcases
      rw [heq]
      exact ⟨iff_of_false (by decide) (lt_irrefl _), iff_of_false (by decide) (lt_irrefl _)⟩
  | gt =>
      rw [hcmp] at hcases
      have hlt := (hplace _ _).mp hcases
      exact ⟨iff_of_false (by decide) hlt.le.not_gt, iff_of_true rfl hlt⟩

/-- The extremum of values without a NaN. -/
theorem extreme_extremum {o : Ordering} (ho : o ≠ .eq) (args : List Value) : Extreme o args (extremum o args) := by
  refine ⟨rfl, fun hnan hne => ?_⟩
  cases args with
  | nil => exact absurd rfl hne
  | cons v vs =>
      cases o with
      | eq => exact absurd rfl ho
      | lt =>
          obtain ⟨hmem, hbest⟩ := foldl_least (f := Value.place) (R := fun a b => compareKeys [a] [b] = .lt)
            fun a ha b hb => (compareKeys_singleton (hnan a ha) (hnan b hb)).1
          refine ⟨hmem, fun a ha hbeats => ?_⟩
          exact ((compareKeys_singleton (hnan a ha) (hnan _ hmem)).1.mp hbeats).not_ge (hbest a ha)
      | gt =>
          obtain ⟨hmem, hbest⟩ := foldl_least (f := fun v => OrderDual.toDual v.place)
            (R := fun a b => compareKeys [a] [b] = .gt)
            fun a ha b hb => (compareKeys_singleton (hnan a ha) (hnan b hb)).2
          refine ⟨hmem, fun a ha hbeats => ?_⟩
          exact ((compareKeys_singleton (hnan a ha) (hnan _ hmem)).2.mp hbeats).not_ge (hbest a ha)

/-! ## Steps and reference values -/

theorem requireNumber_ok {v w : Value} {context : String} (h : requireNumber v context = .ok w) :
    w = v ∧ v ≠ .null := by
  cases v with
  | int n => exact ⟨(Except.ok.inj h).symm, nofun⟩
  | real bits => exact ⟨(Except.ok.inj h).symm, nofun⟩
  | null => cases h
  | text s => cases h
  | blob data => cases h

theorem pyAdd_ne_null {a b t : Value} (h : pyAdd ops a b = .ok t) : t ≠ .null := by
  unfold pyAdd pyArith at h
  split at h
  · rw [← Except.ok.inj h]
    nofun
  · obtain ⟨x, -, h⟩ := bind_eq_ok h
    obtain ⟨y, -, h⟩ := bind_eq_ok h
    rw [← Except.ok.inj h]
    nofun

/-- A step of SUM that does not raise adds. -/
theorem sumStep_ok {s v t : Value} (hs : s ≠ .null) (hv : v ≠ .null) (h : sumStep ops s v = .ok t) :
    pyAdd ops s v = .ok t := by
  rw [sumStep, if_neg hv] at h
  obtain ⟨w, hw, hnumber⟩ := bind_eq_ok h
  obtain ⟨rfl, -⟩ := requireNumber_ok hw
  rw [if_neg hs] at hnumber
  split at hnumber
  · split at hnumber
    · exact hnumber
    · cases hnumber
  · exact hnumber

theorem foldlM_sumStep_ok {vs : List Value} (hvs : ∀ v ∈ vs, v ≠ .null) {s t : Value} (hs : s ≠ .null)
    (h : vs.foldlM (sumStep ops) s = .ok t) : vs.foldlM (pyAdd ops) s = .ok t := by
  induction vs generalizing s with
  | nil => exact h
  | cons v vs ih =>
      obtain ⟨hv, hvs⟩ := List.forall_mem_cons.mp hvs
      obtain ⟨s₁, hstep, hrest⟩ := bind_eq_ok h
      have hadd := sumStep_ok hs hv hstep
      rw [List.foldlM_cons, hadd]
      exact ih hvs (pyAdd_ne_null hadd) hrest

/-- A step of AVG that does not raise adds and counts. -/
theorem foldlM_avgStep_ok {vs : List Value} (hvs : ∀ v ∈ vs, v ≠ .null) {s : Value} {n : Nat}
    {t : Value × Nat} (hs : s ≠ .null) (h : vs.foldlM (avgStep ops) (s, n) = .ok t) :
    vs.foldlM (pyAdd ops) s = .ok t.1 ∧ t.1 ≠ .null ∧ t.2 = n + vs.length := by
  induction vs generalizing s n with
  | nil =>
      obtain rfl := Except.ok.inj h
      exact ⟨rfl, hs, rfl⟩
  | cons v vs ih =>
      obtain ⟨hv, hne⟩ := List.forall_mem_cons.mp hvs
      obtain ⟨s₁, hstep, hrest⟩ := bind_eq_ok h
      rw [avgStep, if_neg hv] at hstep
      obtain ⟨w, hw, hnumber⟩ := bind_eq_ok hstep
      obtain ⟨rfl, -⟩ := requireNumber_ok hw
      rw [if_neg hs] at hnumber
      obtain ⟨total, hadd, hpair⟩ := bind_eq_ok hnumber
      obtain rfl := Except.ok.inj hpair
      obtain ⟨hfold, hne, hcount⟩ := ih hne (pyAdd_ne_null hadd) hrest
      rw [List.foldlM_cons, hadd, List.length_cons]
      exact ⟨hfold, hne, by omega⟩

/-- MIN and MAX. -/
theorem extreme_of_run {o : Ordering} (ho : o ≠ .eq) {args : List Value} {v : Value}
    (h : args.foldlM (fun s v => (Except.ok (extremeStep o s v) : Except DbError Value)) .null = .ok v) :
    Extreme o (nonNull args) v := by
  have hne := @ne_null_of_mem args
  rw [foldlM_nonNull fun _ => rfl] at h
  have hvalue : v = extremum o (nonNull args) := by
    cases hargs : nonNull args with
    | nil =>
        rw [hargs] at h
        exact (Except.ok.inj h).symm
    | cons u vs =>
        rw [hargs] at h
        obtain ⟨hu, hvs⟩ := List.forall_mem_cons.mp (hargs ▸ hne)
        have hfirst : extremeStep o .null u = u := by rw [extremeStep, if_neg hu, if_pos rfl]
        have hrest : vs.foldlM (fun s v => (Except.ok (extremeStep o s v) : Except DbError Value))
            (extremeStep o .null u) = .ok v := h
        rw [hfirst, foldlM_extreme hvs hu] at hrest
        exact (Except.ok.inj hrest).symm
  rw [hvalue]
  exact extreme_extremum ho _

/-- What an aggregate that does not raise returns is the reference value. -/
theorem isReference_of_run {func : AggregateFunction} {args : List Value} {v : Value}
    (h : runAggregate ops func args = .ok v) : IsReference ops func args v := by
  have hne := @ne_null_of_mem args
  cases func with
  | countStar =>
      have hcount := @foldlM_count (fun s _ => .ok (s + 1)) args (fun _ _ _ => rfl) 0
      have hrun : runAggregate ops .countStar args = .ok (.int (0 + args.length : Nat)) := by
        refine bind_eq_ok_iff.mpr ⟨_, hcount, rfl⟩
      rw [Nat.zero_add] at hrun
      exact (Except.ok.inj (hrun.symm.trans h)).symm
  | count =>
      have hskip := @foldlM_nonNull Nat (fun s v => .ok (countStep s v)) (fun _ => rfl) args 0
      have hcount := @foldlM_count (fun s v => .ok (countStep s v)) (nonNull args)
        (fun v hv s => by rw [countStep, if_neg (hne v hv)]) 0
      have hrun : runAggregate ops .count args = .ok (.int (0 + (nonNull args).length : Nat)) :=
        bind_eq_ok_iff.mpr ⟨_, hskip.trans hcount, rfl⟩
      rw [Nat.zero_add] at hrun
      exact (Except.ok.inj (hrun.symm.trans h)).symm
  | sum =>
      obtain ⟨state, hfold, hfinal⟩ := bind_eq_ok h
      obtain rfl := Except.ok.inj hfinal
      have hfold : args.foldlM (sumStep ops) .null = .ok state := hfold
      rw [foldlM_nonNull fun _ => rfl] at hfold
      show sumOf ops (nonNull args) = .ok state
      cases hargs : nonNull args with
      | nil =>
          rw [hargs] at hfold
          exact hfold
      | cons v vs =>
          rw [hargs] at hfold
          obtain ⟨hv, hvs⟩ := List.forall_mem_cons.mp (hargs ▸ hne)
          obtain ⟨s₁, hstep, hrest⟩ := bind_eq_ok hfold
          rw [sumStep, if_neg hv] at hstep
          obtain ⟨w, hw, hfirst⟩ := bind_eq_ok hstep
          obtain ⟨rfl, -⟩ := requireNumber_ok hw
          obtain rfl := Except.ok.inj hfirst
          exact foldlM_sumStep_ok hvs hv hrest
  | avg =>
      obtain ⟨state, hfold, hfinal⟩ := bind_eq_ok h
      have hfold : args.foldlM (avgStep ops) (.null, 0) = .ok state := hfold
      rw [foldlM_nonNull fun _ => rfl] at hfold
      show averageOf ops (nonNull args) = .ok v
      cases hargs : nonNull args with
      | nil =>
          rw [hargs] at hfold
          obtain rfl := Except.ok.inj hfold
          exact hfinal
      | cons u vs =>
          rw [hargs] at hfold
          obtain ⟨hu, hvs⟩ := List.forall_mem_cons.mp (hargs ▸ hne)
          obtain ⟨s₁, hstep, hrest⟩ := bind_eq_ok hfold
          rw [avgStep, if_neg hu] at hstep
          obtain ⟨w, hw, hfirst⟩ := bind_eq_ok hstep
          obtain ⟨rfl, -⟩ := requireNumber_ok hw
          obtain rfl := Except.ok.inj hfirst
          obtain ⟨hsum, hsome, hcount⟩ := foldlM_avgStep_ok hvs hu hrest
          have hfinal : avgFinal ops state = .ok v := hfinal
          rw [avgFinal, if_neg hsome, hcount] at hfinal
          refine bind_eq_ok_iff.mpr ⟨state.1, hsum, ?_⟩
          rw [List.length_cons, Nat.add_comm]
          exact hfinal
  | min =>
      obtain ⟨state, hfold, hfinal⟩ := bind_eq_ok h
      obtain rfl := Except.ok.inj hfinal
      exact extreme_of_run (by decide) hfold
  | max =>
      obtain ⟨state, hfold, hfinal⟩ := bind_eq_ok h
      obtain rfl := Except.ok.inj hfinal
      exact extreme_of_run (by decide) hfold

/-! ## Sums of integers -/

/-- What `_sum_step` raises. -/
def sumOverflow : DbError := .integerOverflow "SUM of all-INTEGER values overflowing 2**63-1"

/-- The sum of the first `k` integers is out of range. -/
def Leaves (ns : List Int) (k : Nat) : Prop := 0 < k ∧ k ≤ ns.length ∧ fitsInt64 (ns.take k).sum = false

theorem sumStep_int (total n : Int) :
    sumStep ops (.int total) (.int n) =
      if fitsInt64 (total + n) then .ok (.int (total + n)) else .error sumOverflow := rfl

/-- Every addition is checked. -/
theorem foldlM_sumStep_ints (ops : FloatOps) (ns : List Int) (total : Int) :
    ((ns.map Value.int).foldlM (sumStep ops) (.int total) = .ok (.int (total + ns.sum)) ∧
        ∀ i < ns.length, fitsInt64 (total + (ns.take (i + 1)).sum) = true) ∨
      ((ns.map Value.int).foldlM (sumStep ops) (.int total) = .error sumOverflow ∧
        ∃ i < ns.length, fitsInt64 (total + (ns.take (i + 1)).sum) = false) := by
  induction ns generalizing total with
  | nil =>
      refine .inl ⟨?_, fun i hi => absurd hi (Nat.not_lt_zero i)⟩
      rw [List.sum_nil, Int.add_zero]
      rfl
  | cons n ns ih =>
      rw [List.map_cons, List.foldlM_cons, sumStep_int, List.length_cons]
      have hshift : ∀ i, total + ((n :: ns).take (i + 1)).sum = total + n + (ns.take i).sum := by
        intro i
        rw [List.take_succ_cons, List.sum_cons, Int.add_assoc]
      simp only [hshift]
      by_cases hfits : fitsInt64 (total + n) = true
      · rw [if_pos hfits, List.sum_cons, ← Int.add_assoc]
        rcases ih (total + n) with ⟨hrun, hall⟩ | ⟨hrun, i, hi, hnot⟩
        · refine .inl ⟨hrun, fun i hi => ?_⟩
          cases i with
          | zero => simpa using hfits
          | succ i => exact hall i (Nat.lt_of_succ_lt_succ hi)
        · exact .inr ⟨hrun, i + 1, Nat.succ_lt_succ hi, hnot⟩
      · refine .inr ⟨by rw [if_neg hfits]; rfl, 0, Nat.succ_pos _, ?_⟩
        simpa using hfits

/-- A SUM of integers raises exactly if the sum of some first two or more of them is out of
range. -/
theorem sum_raises_iff (ops : FloatOps) {args : List Value} {ns : List Int} (hargs : nonNull args = ns.map Value.int) :
    runAggregate ops .sum args = .error sumOverflow ↔ ∃ k, 1 < k ∧ Leaves ns k := by
  have hrun : runAggregate ops .sum args = (ns.map Value.int).foldlM (sumStep ops) .null := by
    rw [← hargs, ← foldlM_nonNull fun _ => rfl]
    show (args.foldlM (sumStep ops) .null >>= fun state => .ok state) = _
    cases args.foldlM (sumStep ops) .null <;> rfl
  rw [hrun]
  cases ns with
  | nil =>
      refine iff_of_false (fun h => nomatch h) ?_
      rintro ⟨k, hk, -, hle, -⟩
      exact absurd (hk.trans_le hle) (Nat.not_lt_zero 1)
  | cons n ns =>
      have hshift : ∀ i, ((n :: ns).take (i + 2)).sum = n + (ns.take (i + 1)).sum := fun i => by
        rw [List.take_succ_cons, List.sum_cons]
      show (ns.map Value.int).foldlM (sumStep ops) (.int n) = _ ↔ _
      rcases foldlM_sumStep_ints ops ns n with ⟨hok, hall⟩ | ⟨herror, i, hi, hnot⟩
      · rw [hok]
        refine iff_of_false (fun h => nomatch h) ?_
        rintro ⟨k, hk, -, hle, hnot⟩
        obtain ⟨i, rfl⟩ := Nat.exists_eq_add_of_lt hk
        rw [show 1 + i + 1 = i + 2 by omega, hshift, hall i (by rw [List.length_cons] at hle; omega)] at hnot
        cases hnot
      · refine iff_of_true herror ⟨i + 2, by omega, by omega, ?_, ?_⟩
        · rw [List.length_cons]
          omega
        · rw [hshift]
          exact hnot

end Reference

/-! ## Group, then fold -/

/-- An aggregate query is its classes, folded: a returned row for each class, with the
reference values; it returns exactly if every class folds; the empty stream has a row exactly if there
is no GROUP BY; a SUM of integers raises exactly if some prefix sum is out of range. -/
structure GroupThenFold (ops : FloatOps) (groupBy : List BoundExpression) (aggregates : List BoundAggregate)
    (rows : List StreamRow) : Prop where
  classRows : ∀ results, hashAggregate ops groupBy aggregates rows = .ok results →
    ∃ keyed, keyedRows ops groupBy rows = .ok keyed ∧
      List.Forall₂ (ClassRow ops (IsReference ops) aggregates) (classes groupBy keyed) results
  returns : (∃ results, hashAggregate ops groupBy aggregates rows = .ok results) ↔
    ∃ keyed, keyedRows ops groupBy rows = .ok keyed ∧
      ∀ cls ∈ classes groupBy keyed, ∀ agg ∈ aggregates, ∃ args v,
        arguments ops agg cls.2 = .ok args ∧ runAggregate ops agg.func args = .ok v
  empty : rows = [] → ∃ results, hashAggregate ops groupBy aggregates rows = .ok results ∧
    results.length = if groupBy.isEmpty then 1 else 0
  overflow : ∀ keyed, keyedRows ops groupBy rows = .ok keyed →
    ∀ cls ∈ classes groupBy keyed, ∀ agg ∈ aggregates, agg.func = .sum →
      ∀ args ns, arguments ops agg cls.2 = .ok args → nonNull args = ns.map Value.int →
        (runAggregate ops .sum args = .error sumOverflow ↔ ∃ k, Leaves ns k)

/-- In every class whose SUM is one of integers, the first is in range, or a later prefix
sum is out of range too. -/
def SumsStartInRange (ops : FloatOps) (groupBy : List BoundExpression) (aggregates : List BoundAggregate)
    (rows : List StreamRow) : Prop :=
  ∀ keyed, keyedRows ops groupBy rows = .ok keyed →
    ∀ cls ∈ classes groupBy keyed, ∀ agg ∈ aggregates, agg.func = .sum →
      ∀ args n ns, arguments ops agg cls.2 = .ok args → nonNull args = (n :: ns).map Value.int →
        fitsInt64 n = true ∨ ∃ k, 1 < k ∧ Leaves (n :: ns) k

section Query

variable {ops : FloatOps} {aggregates : List BoundAggregate}

/-- A query returns exactly if every class folds. -/
theorem hashAggregate_returns (aggregates : List BoundAggregate) {groupBy : List BoundExpression}
    {rows : List StreamRow} :
    (∃ results, hashAggregate ops groupBy aggregates rows = .ok results) ↔
      ∃ keyed, keyedRows ops groupBy rows = .ok keyed ∧
        ∀ cls ∈ classes groupBy keyed, ∀ agg ∈ aggregates, ∃ args v,
          arguments ops agg cls.2 = .ok args ∧ runAggregate ops agg.func args = .ok v := by
  simp only [hashAggregate_iff]
  rw [exists_comm]
  refine exists_congr fun keyed => ?_
  rw [exists_and_left, exists_forall₂_iff]
  refine and_congr_right fun _ => forall₂_congr fun cls _ => ?_
  constructor
  · rintro ⟨_, values, -, hvalues⟩ agg hagg
    obtain ⟨v, args, hv⟩ := exists_forall₂_iff.mp ⟨values, hvalues⟩ agg hagg
    exact ⟨args, v, hv⟩
  · intro h
    obtain ⟨values, hvalues⟩ := exists_forall₂_iff.mpr fun agg hagg => exists_comm.mp (h agg hagg)
    exact ⟨_, values, rfl, hvalues⟩

theorem runAggregate_nil (ops : FloatOps) (func : AggregateFunction) : ∃ v, runAggregate ops func [] = .ok v := by
  cases func <;> exact ⟨_, rfl⟩

/-- A query is group, then fold, exactly if its integer sums start in range. -/
theorem groupThenFold_iff (ops : FloatOps) (groupBy : List BoundExpression) (aggregates : List BoundAggregate)
    (rows : List StreamRow) :
    GroupThenFold ops groupBy aggregates rows ↔ SumsStartInRange ops groupBy aggregates rows := by
  constructor
  · intro h keyed hkeyed cls hcls agg hagg hsum args n ns hargs hints
    by_cases hfits : fitsInt64 n = true
    · exact .inl hfits
    · -- the first alone is out of range, so the SUM raises, and does so at a later one
      refine .inr ((sum_raises_iff ops hints).mp ?_)
      refine (h.overflow keyed hkeyed cls hcls agg hagg hsum args _ hargs hints).mpr ⟨1, Nat.one_pos, ?_, ?_⟩
      · rw [List.length_cons]
        omega
      · simpa using hfits
  · intro h
    refine ⟨fun results hresults => ?_, hashAggregate_returns aggregates, fun hempty => ?_, ?_⟩
    · obtain ⟨keyed, hkeyed, hrows⟩ := hashAggregate_iff.mp hresults
      refine ⟨keyed, hkeyed, hrows.imp fun cls result hrow => ?_⟩
      obtain ⟨values, heq, hvalues⟩ := hrow
      refine ⟨values, heq, hvalues.imp fun agg v hv => ?_⟩
      obtain ⟨args, hargs, hrun⟩ := hv
      exact ⟨args, hargs, isReference_of_run hrun⟩
    · subst hempty
      have hkeyed : keyedRows ops groupBy [] = .ok [] := rfl
      have hfold : ∀ cls ∈ classes groupBy [], ∀ agg ∈ aggregates, ∃ args v,
          arguments ops agg cls.2 = .ok args ∧ runAggregate ops agg.func args = .ok v := by
        intro cls hcls agg _
        have hmembers : cls.2 = [] := by
          rw [classes] at hcls
          split at hcls
          · obtain rfl := List.mem_singleton.mp hcls
            rfl
          · cases hcls
        obtain ⟨v, hv⟩ := runAggregate_nil ops agg.func
        exact ⟨[], v, by rw [hmembers]; rfl, hv⟩
      obtain ⟨results, hresults⟩ := (hashAggregate_returns aggregates).mpr ⟨[], hkeyed, hfold⟩
      refine ⟨results, hresults, ?_⟩
      obtain ⟨keyed, hkeyed', hrows⟩ := hashAggregate_iff.mp hresults
      obtain rfl := Except.ok.inj (hkeyed.symm.trans hkeyed')
      rw [← hrows.length_eq, classes]
      split <;> rfl
    · intro keyed hkeyed cls hcls agg hagg hsum args ns hargs hints
      rw [sum_raises_iff ops hints]
      constructor
      · rintro ⟨k, -, hleaves⟩
        exact ⟨k, hleaves⟩
      · rintro ⟨k, hleaves⟩
        by_cases hk : 1 < k
        · exact ⟨k, hk, hleaves⟩
        · obtain ⟨hpos, hle, hnot⟩ := hleaves
          obtain rfl : k = 1 := by omega
          cases ns with
          | nil => exact absurd hle (Nat.not_succ_le_zero 0)
          | cons n ns =>
              refine (h keyed hkeyed cls hcls agg hagg hsum args n ns hargs hints).resolve_left ?_
              simpa using hnot

end Query

/-- `SUM(9223372036854775808)` over one row returns a number that is no int64. -/
theorem sum_out_of_range :
    ¬ GroupThenFold noFloats [] [⟨.sum, some (.literal (.int (2 ^ 63)))⟩] [⟨[.int 1], fun _ => 0⟩] := by
  rw [groupThenFold_iff]
  intro h
  have hstart := h [([], ⟨[.int 1], fun _ => 0⟩)] rfl ([], [⟨[.int 1], fun _ => 0⟩]) (List.mem_singleton.mpr rfl) _
    (List.mem_singleton.mpr rfl) rfl [.int (2 ^ 63)] (2 ^ 63) [] rfl rfl
  rcases hstart with hfits | ⟨k, hk, -, hle, -⟩
  · exact absurd hfits (by decide)
  · exact absurd (hk.trans_le hle) (Nat.lt_irrefl 1)

end QuillDb
