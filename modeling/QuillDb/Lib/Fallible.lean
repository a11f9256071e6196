/-
  Lib/Fallible.lean --- computations that may raise, over lists.

  What it means that a sequence of such computations, a map or a fold, returned.
-/
import Mathlib.Data.List.Forall2

set_option autoImplicit false

namespace Fallible

variable {α β γ σ ε : Type}

theorem bind_eq_ok_iff {m : Except ε α} {f : α → Except ε β} {b : β} :
    m >>= f = .ok b ↔ ∃ a, m = .ok a ∧ f a = .ok b := by
  cases m with
  | error e => exact iff_of_false (fun h => nomatch h) fun ⟨_, h, _⟩ => nomatch h
  | ok a =>
      refine ⟨fun h => ⟨a, rfl, h⟩, ?_⟩
      rintro ⟨_, ha, h⟩
      rwa [← Except.ok.inj ha] at h

/-- What the first part of a computation returned. -/
theorem bind_eq_ok {m : Except ε α} {f : α → Except ε β} {b : β} (h : m >>= f = .ok b) :
    ∃ a, m = .ok a ∧ f a = .ok b :=
  bind_eq_ok_iff.mp h

/-- A condition on what may be returned. -/
instance decidableForallOk (m : Except ε α) (p : α → Prop) [DecidablePred p] : Decidable (∀ a, m = .ok a → p a) :=
  match m with
  | .ok a => decidable_of_iff (p a) ⟨fun h _ heq => Except.ok.inj heq ▸ h, fun h => h a rfl⟩
  | .error _ => .isTrue fun _ heq => nomatch heq

theorem mapM_eq_ok_iff {f : α → Except ε β} {xs : List α} {ys : List β} :
    xs.mapM f = .ok ys ↔ List.Forall₂ (fun x y => f x = .ok y) xs ys := by
  induction xs generalizing ys with
  | nil =>
      rw [List.mapM_nil, List.forall₂_nil_left_iff]
      exact ⟨fun h => (Except.ok.inj h).symm, fun h => congrArg _ h.symm⟩
  | cons x xs ih =>
      rw [List.mapM_cons, bind_eq_ok_iff, List.forall₂_cons_left_iff]
      constructor
      · rintro ⟨y, hy, h⟩
        obtain ⟨zs, hzs, h⟩ := bind_eq_ok h
        exact ⟨y, zs, hy, ih.mp hzs, (Except.ok.inj h).symm⟩
      · rintro ⟨y, zs, hy, hzs, rfl⟩
        exact ⟨y, hy, bind_eq_ok_iff.mpr ⟨zs, ih.mpr hzs, rfl⟩⟩

/-- What `mapM` returned, one element at a time. -/
theorem mapM_ok {f : α → Except ε β} {xs : List α} {ys : List β} (h : xs.mapM f = .ok ys) :
    List.Forall₂ (fun x y => f x = .ok y) xs ys :=
  mapM_eq_ok_iff.mp h

/-- What an element of a result came from. -/
theorem exists_left {R : α → β → Prop} {xs : List α} {ys : List β} (h : List.Forall₂ R xs ys) {y : β}
    (hy : y ∈ ys) : ∃ x ∈ xs, R x y := by
  induction h with
  | nil => cases hy
  | cons hxy _ ih =>
      rcases List.mem_cons.mp hy with rfl | hy
      · exact ⟨_, List.mem_cons_self .., hxy⟩
      · obtain ⟨x, hx, hR⟩ := ih hy
        exact ⟨x, List.mem_cons_of_mem _ hx, hR⟩

/-- What an element led to. -/
theorem exists_right {R : α → β → Prop} {xs : List α} {ys : List β} (h : List.Forall₂ R xs ys) {x : α}
    (hx : x ∈ xs) : ∃ y ∈ ys, R x y :=
  exists_left h.flip hx

/-- What the two parts of a list led to. -/
theorem forall₂_append_left {R : α → β → Prop} {xs ys : List α} {zs : List β} (h : List.Forall₂ R (xs ++ ys) zs) :
    ∃ us vs, List.Forall₂ R xs us ∧ List.Forall₂ R ys vs ∧ zs = us ++ vs := by
  induction xs generalizing zs with
  | nil => exact ⟨[], zs, .nil, h, rfl⟩
  | cons x xs ih =>
      obtain ⟨z, zs, hx, hrest, rfl⟩ := List.forall₂_cons_left_iff.mp h
      obtain ⟨us, vs, hus, hvs, rfl⟩ := ih hrest
      exact ⟨z :: us, vs, .cons hx hus, hvs, rfl⟩

/-- Lists that come from one list. -/
theorem forall₂_of_left {R : α → β → Prop} {R' : α → γ → Prop} {S : β → γ → Prop} {xs : List α}
    {ys : List β} {zs : List γ} (h : List.Forall₂ R xs ys) (h' : List.Forall₂ R' xs zs)
    (hS : ∀ x y z, R x y → R' x z → S y z) : List.Forall₂ S ys zs := by
  induction h generalizing zs with
  | nil =>
      cases h'
      exact .nil
  | cons hxy _ ih =>
      cases h' with
      | cons hxz hrest => exact .cons (hS _ _ _ hxy hxz) (ih hrest)

/-- Every element is related to something. -/
theorem exists_forall₂_iff {R : α → β → Prop} {xs : List α} :
    (∃ ys, List.Forall₂ R xs ys) ↔ ∀ x ∈ xs, ∃ y, R x y := by
  induction xs with
  | nil => exact iff_of_true ⟨[], .nil⟩ fun x hx => nomatch hx
  | cons x xs ih =>
      rw [List.forall_mem_cons, ← ih]
      constructor
      · rintro ⟨ys, h⟩
        cases h with
        | cons hx hrest => exact ⟨⟨_, hx⟩, _, hrest⟩
      · rintro ⟨⟨y, hy⟩, ys, hrest⟩
        exact ⟨y :: ys, .cons hy hrest⟩

/-- Elements related through a third. -/
theorem forall₂_comp_iff {R : α → β → Prop} {S : β → γ → Prop} {xs : List α} {zs : List γ} :
    (∃ ys, List.Forall₂ R xs ys ∧ List.Forall₂ S ys zs) ↔
      List.Forall₂ (fun x z => ∃ y, R x y ∧ S y z) xs zs := by
  induction xs generalizing zs with
  | nil =>
      constructor
      · rintro ⟨ys, hxs, hzs⟩
        cases hxs
        cases hzs
        exact .nil
      · intro h
        cases h
        exact ⟨[], .nil, .nil⟩
  | cons x xs ih =>
      constructor
      · rintro ⟨ys, hxs, hzs⟩
        cases hxs with
        | cons hx hrest =>
            cases hzs with
            | cons hz hrest' => exact .cons ⟨_, hx, hz⟩ (ih.mp ⟨_, hrest, hrest'⟩)
      · intro h
        cases h with
        | cons hx hrest =>
            obtain ⟨y, hy, hz⟩ := hx
            obtain ⟨ys, hys, hzs⟩ := ih.mpr hrest
            exact ⟨y :: ys, .cons hy hys, .cons hz hzs⟩

/-- A fold that computes something of each element first. -/
theorem foldlM_bind_iff {g : α → Except ε β} {h : σ → β → Except ε σ} {xs : List α} {s s' : σ} :
    xs.foldlM (fun s x => g x >>= h s) s = .ok s' ↔
      ∃ ys, xs.mapM g = .ok ys ∧ ys.foldlM h s = .ok s' := by
  induction xs generalizing s with
  | nil =>
      rw [List.foldlM_nil, List.mapM_nil]
      constructor
      · exact fun hs => ⟨[], rfl, hs⟩
      · rintro ⟨ys, hys, hs⟩
        rwa [← Except.ok.inj hys] at hs
  | cons x xs ih =>
      rw [List.foldlM_cons, bind_eq_ok_iff, List.mapM_cons]
      constructor
      · rintro ⟨s₁, hstep, hrest⟩
        obtain ⟨y, hy, hstep⟩ := bind_eq_ok hstep
        obtain ⟨ys, hys, hrest⟩ := ih.mp hrest
        refine ⟨y :: ys, bind_eq_ok_iff.mpr ⟨y, hy, bind_eq_ok_iff.mpr ⟨ys, hys, rfl⟩⟩, ?_⟩
        rw [List.foldlM_cons, hstep]
        exact hrest
      · rintro ⟨zs, hzs, hrest⟩
        obtain ⟨y, hy, hzs⟩ := bind_eq_ok hzs
        obtain ⟨ys, hys, hzs⟩ := bind_eq_ok hzs
        obtain rfl := Except.ok.inj hzs
        obtain ⟨s₁, hstep, hrest⟩ := bind_eq_ok hrest
        exact ⟨s₁, bind_eq_ok_iff.mpr ⟨y, hy, hstep⟩, ih.mpr ⟨ys, hys, hrest⟩⟩

section Pointwise

variable (step : α → σ → β → Except ε σ)

/-- Each state of a list makes its own step. -/
def stepAll (as : List α) (states : List σ) (x : β) : Except ε (List σ) :=
  (as.zip states).mapM fun p => step p.1 p.2 x

variable {step}

theorem stepAll_cons_iff {a : α} {as : List α} {s : σ} {states states' : List σ} {x : β} :
    stepAll step (a :: as) (s :: states) x = .ok states' ↔
      ∃ s' rest, step a s x = .ok s' ∧ stepAll step as states x = .ok rest ∧ states' = s' :: rest := by
  rw [stepAll, List.zip_cons_cons, List.mapM_cons, bind_eq_ok_iff]
  constructor
  · rintro ⟨s', hs, h⟩
    obtain ⟨rest, hrest, h⟩ := bind_eq_ok h
    exact ⟨s', rest, hs, hrest, (Except.ok.inj h).symm⟩
  · rintro ⟨s', rest, hs, hrest, rfl⟩
    exact ⟨s', hs, bind_eq_ok_iff.mpr ⟨rest, hrest, rfl⟩⟩

theorem foldlM_stepAll_cons_iff {a : α} {as : List α} {s : σ} {xs : List β} {states states' : List σ} :
    xs.foldlM (stepAll step (a :: as)) (s :: states) = .ok states' ↔
      ∃ s' rest, xs.foldlM (step a) s = .ok s' ∧ xs.foldlM (stepAll step as) states = .ok rest ∧
        states' = s' :: rest := by
  induction xs generalizing s states with
  | nil =>
      constructor
      · intro h
        exact ⟨s, states, rfl, rfl, (Except.ok.inj h).symm⟩
      · rintro ⟨s', rest, hs, hrest, rfl⟩
        rw [← Except.ok.inj hs, ← Except.ok.inj hrest]
        rfl
  | cons x xs ih =>
      simp only [List.foldlM_cons, bind_eq_ok_iff]
      constructor
      · rintro ⟨states₁, hstep, hrest⟩
        obtain ⟨s₁, rest₁, hs, hstates, rfl⟩ := stepAll_cons_iff.mp hstep
        obtain ⟨s', rest, hs', hrest', heq⟩ := ih.mp hrest
        exact ⟨s', rest, ⟨s₁, hs, hs'⟩, ⟨rest₁, hstates, hrest'⟩, heq⟩
      · rintro ⟨s', rest, ⟨s₁, hs, hs'⟩, ⟨rest₁, hstates, hrest⟩, heq⟩
        exact ⟨s₁ :: rest₁, stepAll_cons_iff.mpr ⟨s₁, rest₁, hs, hstates, rfl⟩,
          ih.mpr ⟨s', rest, hs', hrest, heq⟩⟩

/-- A fold of a list of states, each by its own steps, is the list of the folds. -/
theorem foldlM_stepAll_iff {as : List α} {states : List σ} {xs : List β} {states' : List σ}
    (hlen : as.length = states.length) :
    xs.foldlM (stepAll step as) states = .ok states' ↔
      List.Forall₂ (fun p s' => xs.foldlM (step p.1) p.2 = .ok s') (as.zip states) states' := by
  induction as generalizing states states' with
  | nil =>
      obtain rfl : states = [] := List.length_eq_zero_iff.mp hlen.symm
      rw [List.zip_nil_left, List.forall₂_nil_left_iff]
      induction xs with
      | nil => exact ⟨fun h => (Except.ok.inj h).symm, fun h => congrArg _ h.symm⟩
      | cons x xs ih => exact ih
  | cons a as ih =>
      cases states with
      | nil => cases hlen
      | cons s states =>
          rw [foldlM_stepAll_cons_iff, List.zip_cons_cons, List.forall₂_cons_left_iff]
          have ihrest := fun rest => @ih states rest (Nat.succ.inj hlen)
          simp only [ihrest]

end Pointwise

end Fallible
