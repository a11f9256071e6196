/-
  Lib/Raises.lean --- which exceptions a program may raise.

  `Fails E` speaks of a computation without a state, `Raises E` of a program; both
  say nothing about what is returned.  They go through every way of putting programs
  together, so an exception that no part raises is not raised by the whole.
-/
import QuillDb.Lib.Prog
import Mathlib.Data.List.Basic

set_option autoImplicit false

namespace Fallible

variable {ε α β : Type} {E : ε → Prop}

/-- Only what `E` allows is raised. -/
def Fails (E : ε → Prop) (r : Except ε α) : Prop := ∀ e, r = .error e → E e

namespace Fails

protected theorem ok (a : α) : Fails E (.ok a : Except ε α) := by
  intro e h
  cases h

protected theorem error {e : ε} (he : E e) : Fails E (.error e : Except ε α) := by
  intro e' h
  cases h
  exact he

protected theorem bind {r : Except ε α} {f : α → Except ε β} (hr : Fails E r) (hf : ∀ a, Fails E (f a)) :
    Fails E (r >>= f) := by
  intro e h
  cases r with
  | ok a => exact hf a e h
  | error e' =>
      cases h
      exact hr _ rfl

protected theorem pure (a : α) : Fails E (pure a : Except ε α) := Fails.ok a

theorem error_iff {e : ε} : Fails E (.error e : Except ε α) ↔ E e := by
  constructor
  · intro h
    exact h e rfl
  · exact Fails.error

/-- Two computations one after the other: the second counts where the first returns. -/
theorem bind_iff {r : Except ε α} {f : α → Except ε β} :
    Fails E (r >>= f) ↔ Fails E r ∧ ∀ a, r = .ok a → Fails E (f a) := by
  constructor
  · intro h
    constructor
    · intro e he
      subst he
      exact h e rfl
    · intro a ha
      subst ha
      exact h
  · intro h e he
    cases r with
    | ok a => exact h.2 a rfl e he
    | error e' =>
        cases he
        exact h.1 _ rfl

theorem map_iff {r : Except ε α} {f : α → β} : Fails E (f <$> r) ↔ Fails E r := by
  cases r with
  | ok a => exact iff_of_true (Fails.ok _) (Fails.ok a)
  | error e => exact Fails.error_iff.trans Fails.error_iff.symm

protected theorem map {r : Except ε α} (f : α → β) (h : Fails E r) : Fails E (f <$> r) := map_iff.mpr h

protected theorem ite {c : Prop} [Decidable c] {r r' : Except ε α} (hr : Fails E r) (hr' : Fails E r') :
    Fails E (if c then r else r') := by
  split
  · exact hr
  · exact hr'

protected theorem mapM {f : β → Except ε α} (hf : ∀ b, Fails E (f b)) (bs : List β) :
    Fails E (bs.mapM f) := by
  induction bs with
  | nil => exact Fails.ok []
  | cons b bs ih =>
      rw [List.mapM_cons]
      exact (hf b).bind fun a => ih.bind fun as => Fails.pure (a :: as)

end Fails

end Fallible

namespace Prog

open Fallible

variable {ε σ τ α β : Type} {E : ε → Prop}

/-- From whatever state, `m` raises only what `E` allows. -/
def Raises (E : ε → Prop) (m : Prog ε σ α) : Prop := ∀ s, Fails E (m s).1

namespace Raises

protected theorem pure (a : α) : Raises E (pure a : Prog ε σ α) := fun _ => Fails.ok a

protected theorem raise {e : ε} (he : E e) : Raises E (raise e : Prog ε σ α) := fun _ => Fails.error he

protected theorem state : Raises E (state : Prog ε σ σ) := fun s => Fails.ok s

protected theorem update (f : σ → σ) : Raises E (update f : Prog ε σ Unit) := fun _ => Fails.ok ()

protected theorem lift {r : Except ε α} (hr : Fails E r) : Raises E (lift r : Prog ε σ α) := fun _ => hr

protected theorem bind {m : Prog ε σ α} {f : α → Prog ε σ β} (hm : Raises E m) (hf : ∀ a, Raises E (f a)) :
    Raises E (m >>= f) := by
  intro s
  have hfirst := hm s
  rw [bind_apply]
  rcases hrun : m s with ⟨e | a, s'⟩ <;> rw [hrun] at hfirst
  · exact Fails.error (hfirst e rfl)
  · exact hf a s'

protected theorem ite {c : Prop} [Decidable c] {m n : Prog ε σ α} (hm : Raises E m) (hn : Raises E n) :
    Raises E (if c then m else n) := by
  split
  · exact hm
  · exact hn

protected theorem raiseIf (c : Prop) [Decidable c] {e : ε} (he : E e) :
    Raises E (raiseIf c e : Prog ε σ Unit) :=
  Raises.ite (Raises.raise he) (Raises.pure ())

/-- What the handler raises of what is raised to it. -/
protected theorem handle {m : Prog ε σ α} {handler : ε → Prog ε σ α} (hm : Raises E m)
    (hhandler : ∀ e, E e → Raises E (handler e)) : Raises E (handle m handler) := by
  intro s
  have hfirst := hm s
  unfold Prog.handle
  rcases hrun : m s with ⟨e | a, s'⟩ <;> rw [hrun] at hfirst
  · exact hhandler e (hfirst e rfl) s'
  · exact Fails.ok a

protected theorem zoom {get : σ → τ} {set : τ → σ → σ} {m : Prog ε τ α} (hm : Raises E m) :
    Raises E (zoom get set m) :=
  fun s => hm (get s)

theorem post {m : Prog ε σ α} (h : Raises E m) {s : σ} : Post m s (fun _ _ => True) fun e _ => E e := by
  have hs := h s
  unfold Post
  rcases hrun : m s with ⟨e | a, s'⟩ <;> rw [hrun] at hs
  · exact hs e rfl
  · trivial

end Raises

end Prog
