/-
  Lib/SameErrors.lean --- two computations that raise the same.

  `SameErrors r r'` forgets what is returned: `r'` may be the part of `r` that can go
  wrong.  A list of checks in a row raises what the first one raises that fails.
-/
import QuillDb.Lib.Fallible
import QuillDb.Lib.Raises

set_option autoImplicit false

namespace Fallible

variable {ε α β γ δ : Type}

theorem ok_bind (a : α) (f : α → Except ε β) : (.ok a : Except ε α) >>= f = f a := rfl

theorem error_bind (e : ε) (f : α → Except ε β) : (.error e : Except ε α) >>= f = .error e := rfl

/-- The one raises exactly what the other raises. -/
def SameErrors (r : Except ε α) (r' : Except ε β) : Prop := ∀ e, r = .error e ↔ r' = .error e

namespace SameErrors

theorem refl (r : Except ε α) : SameErrors r r := fun _ => Iff.rfl

theorem symm {r : Except ε α} {r' : Except ε β} (h : SameErrors r r') : SameErrors r' r := fun e => (h e).symm

theorem trans {r : Except ε α} {r' : Except ε β} {r'' : Except ε γ} (h : SameErrors r r')
    (h' : SameErrors r' r'') : SameErrors r r'' := fun e => (h e).trans (h' e)

theorem of_ok {r : Except ε α} {r' : Except ε β} {a : α} {b : β} (hr : r = .ok a) (hr' : r' = .ok b) :
    SameErrors r r' := by
  intro e
  subst hr
  subst hr'
  simp

theorem of_error (e : ε) : SameErrors (.error e : Except ε α) (.error e : Except ε β) := by
  intro e'
  simp

theorem ok {r : Except ε α} {r' : Except ε β} (h : SameErrors r r') {a : α} (hr : r = .ok a) :
    ∃ b, r' = .ok b := by
  cases hr' : r' with
  | ok b => exact ⟨b, rfl⟩
  | error e =>
      rw [(h e).mpr hr'] at hr
      cases hr

theorem fails_iff {E : ε → Prop} {r : Except ε α} {r' : Except ε β} (h : SameErrors r r') :
    Fails E r ↔ Fails E r' := by
  constructor
  · intro hfails e he
    exact hfails e ((h e).mpr he)
  · intro hfails e he
    exact hfails e ((h e).mp he)

/-- The second parts count where the first ones return. -/
theorem bind {r : Except ε α} {r' : Except ε β} {f : α → Except ε γ} {f' : β → Except ε δ}
    (h : SameErrors r r') (hf : ∀ a b, r = .ok a → r' = .ok b → SameErrors (f a) (f' b)) :
    SameErrors (r >>= f) (r' >>= f') := by
  cases r with
  | ok a =>
      obtain ⟨b, rfl⟩ := h.ok rfl
      exact hf a b rfl rfl
  | error e =>
      rw [(h e).mp rfl]
      exact of_error e

/-- What is done to a result raises nothing. -/
theorem bind_ok {r : Except ε α} {r' : Except ε β} {f : α → Except ε γ} (h : SameErrors r r')
    (hf : ∀ a, r = .ok a → ∃ c, f a = .ok c) : SameErrors (r >>= f) r' := by
  cases r with
  | ok a =>
      obtain ⟨b, rfl⟩ := h.ok rfl
      obtain ⟨c, hc⟩ := hf a rfl
      exact of_ok hc rfl
  | error e =>
      rw [(h e).mp rfl]
      exact of_error e

end SameErrors

/-! ## Checks in a row -/

/-- Checks, one after the other. -/
def inTurn : List (Except ε Unit) → Except ε Unit
  | [] => .ok ()
  | check :: checks => check >>= fun _ => inTurn checks

theorem inTurn_append (xs ys : List (Except ε Unit)) : inTurn (xs ++ ys) = inTurn xs >>= fun _ => inTurn ys := by
  induction xs with
  | nil => rfl
  | cons x xs ih =>
      cases x with
      | ok u => exact ih
      | error e => rfl

theorem inTurn_ok {checks : List (Except ε Unit)} (h : ∀ check ∈ checks, check = .ok ()) : inTurn checks = .ok () := by
  induction checks with
  | nil => rfl
  | cons check checks ih =>
      rw [inTurn, h check (List.mem_cons_self ..)]
      exact ih fun c hc => h c (List.mem_cons_of_mem _ hc)

/-- Checks raise only what is allowed exactly when one that raises something else comes
behind one that raises what is allowed. -/
theorem fails_inTurn_map_iff {E : ε → Prop} {check : α → Except ε Unit} {xs : List α} :
    Fails E (inTurn (xs.map check)) ↔ ∀ before x after, xs = before ++ x :: after → ¬ Fails E (check x) →
      ∃ y ∈ before, ∃ e, E e ∧ check y = .error e := by
  induction xs with
  | nil => simp [inTurn, Fails.ok]
  | cons x xs ih =>
      rw [List.map_cons, inTurn]
      cases hx : check x with
      | ok u =>
          rw [ok_bind, ih]
          constructor
          · intro h before y after hsplit hy
            cases before with
            | nil =>
                cases hsplit
                exact absurd (hx ▸ Fails.ok u) hy
            | cons z before =>
                cases hsplit
                obtain ⟨w, hw, e, he, hcheck⟩ := h before y after rfl hy
                exact ⟨w, List.mem_cons_of_mem _ hw, e, he, hcheck⟩
          · intro h before y after hsplit hy
            subst hsplit
            obtain ⟨w, hw, e, he, hcheck⟩ := h (x :: before) y after rfl hy
            rcases List.mem_cons.mp hw with rfl | hw
            · rw [hx] at hcheck
              cases hcheck
            · exact ⟨w, hw, e, he, hcheck⟩
      | error e =>
          rw [error_bind, Fails.error_iff]
          constructor
          · intro he before y after hsplit hy
            cases before with
            | nil =>
                cases hsplit
                exact absurd (hx ▸ Fails.error he) hy
            | cons z before =>
                cases hsplit
                exact ⟨x, List.mem_cons_self .., e, he, hx⟩
          · intro h
            by_contra he
            have hfails : ¬ Fails E (check x) := by
              rw [hx, Fails.error_iff]
              exact he
            obtain ⟨w, hw, -⟩ := h [] x xs rfl hfails
            cases hw

/-- A check that is made again raises nothing new. -/
theorem inTurn_replicate (check : Except ε Unit) (n : Nat) : inTurn (List.replicate (n + 1) check) = check := by
  cases check with
  | ok u => exact inTurn_ok fun c hc => List.eq_of_mem_replicate hc
  | error e => rfl

theorem SameErrors.mapM {f : α → Except ε β} {checks : α → List (Except ε Unit)} {xs : List α}
    (h : ∀ x ∈ xs, SameErrors (f x) (inTurn (checks x))) : SameErrors (xs.mapM f) (inTurn (xs.flatMap checks)) := by
  induction xs with
  | nil => exact of_ok rfl rfl
  | cons x xs ih =>
      rw [List.mapM_cons, List.flatMap_cons, inTurn_append]
      apply (h x (List.mem_cons_self ..)).bind
      intro b u _ _
      have hrest := ih fun y hy => h y (List.mem_cons_of_mem _ hy)
      exact hrest.bind_ok fun bs _ => ⟨b :: bs, rfl⟩

/-- Several computations that all raise what one check raises. -/
theorem SameErrors.mapM_check {f : α → Except ε β} {check : Except ε Unit} {xs : List α} (hne : xs ≠ [])
    (h : ∀ x ∈ xs, SameErrors (f x) check) : SameErrors (xs.mapM f) check := by
  have hcopies : ∀ x ∈ xs, SameErrors (f x) (inTurn [check]) := by
    intro x hx
    have hone : inTurn [check] = check := inTurn_replicate check 0
    rw [hone]
    exact h x hx
  have hmany := @SameErrors.mapM ε α β f (fun _ => [check]) xs hcopies
  obtain ⟨x, rest, rfl⟩ := List.exists_cons_of_ne_nil hne
  have hreplicate : ((x :: rest).flatMap fun _ => [check]) = List.replicate (rest.length + 1) check := by
    rw [← List.map_eq_flatMap, List.map_const', List.length_cons]
  rwa [hreplicate, inTurn_replicate] at hmany

end Fallible
