/-
  Lib/Prog.lean --- programs that update a state and may raise.

  A raised exception keeps the state reached so far, as in an imperative
  language.  `Triple` is the Hoare triple of such a program; both ways of
  ending have their own postcondition, so an invariant that must survive an
  exception is stated once.
-/

set_option autoImplicit false

/-- A program over state `σ` that returns an `α` or raises an `ε`. -/
def Prog (ε σ α : Type) : Type := σ → Except ε α × σ

namespace Prog

variable {ε σ α β : Type}

instance : Monad (Prog ε σ) where
  pure a := fun s => (.ok a, s)
  bind m f := fun s =>
    match m s with
    | (.ok a, s') => f a s'
    | (.error e, s') => (.error e, s')

/-- Raise `e`. -/
def raise (e : ε) : Prog ε σ α := fun s => (.error e, s)

/-- Read the state. -/
def state : Prog ε σ σ := fun s => (.ok s, s)

/-- Replace the state by its image. -/
def update (f : σ → σ) : Prog ε σ Unit := fun s => (.ok (), f s)

/-- Run a partial computation that does not touch the state. -/
def lift (r : Except ε α) : Prog ε σ α := fun s => (r, s)

/-- Raise `e` if `c` holds. -/
def raiseIf (c : Prop) [Decidable c] (e : ε) : Prog ε σ Unit := if c then raise e else pure ()

/-- `try m finally f`: `f` runs however `m` ends; an exception of `f` wins. -/
def finally_ (m : Prog ε σ α) (f : Prog ε σ Unit) : Prog ε σ α := fun s =>
  match m s with
  | (r, s') =>
    match f s' with
    | (.ok (), s'') => (r, s'')
    | (.error e, s'') => (.error e, s'')

/-- `try m except e: handler e`. -/
def handle (m : Prog ε σ α) (handler : ε → Prog ε σ α) : Prog ε σ α := fun s =>
  match m s with
  | (.ok a, s') => (.ok a, s')
  | (.error e, s') => handler e s'

/-- Run a program on a part of the state. -/
def zoom {τ : Type} (get : σ → τ) (set : τ → σ → σ) (m : Prog ε τ α) : Prog ε σ α := fun s =>
  ((m (get s)).1, set (m (get s)).2 s)

/-- Run a program for its effect, whatever the outcome. -/
def exec (m : Prog ε σ α) (s : σ) : σ := (m s).2

/-- Run the programs of a list in order, up to the first that raises. -/
def seq : List (Prog ε σ Unit) → Prog ε σ Unit
  | [] => pure ()
  | m :: ms => m >>= fun _ => seq ms

/-- `good` holds before the first program of a list, between any two that run,
and where the run ends. -/
def Along (good : σ → Prop) : List (Prog ε σ Unit) → σ → Prop
  | [], s => good s
  | m :: ms, s =>
      good s ∧ match m s with
        | (.ok (), s') => Along good ms s'
        | (.error _, s') => good s'

@[simp] theorem pure_apply (a : α) (s : σ) : (pure a : Prog ε σ α) s = (.ok a, s) := rfl

@[simp] theorem raise_apply (e : ε) (s : σ) : (raise e : Prog ε σ α) s = (.error e, s) := rfl

@[simp] theorem state_apply (s : σ) : (state : Prog ε σ σ) s = (.ok s, s) := rfl

@[simp] theorem update_apply (f : σ → σ) (s : σ) :
    (update f : Prog ε σ Unit) s = (.ok (), f s) := rfl

@[simp] theorem lift_apply (r : Except ε α) (s : σ) : (lift r : Prog ε σ α) s = (r, s) := rfl

theorem bind_apply (m : Prog ε σ α) (f : α → Prog ε σ β) (s : σ) :
    (m >>= f) s = match m s with
      | (.ok a, s') => f a s'
      | (.error e, s') => (.error e, s') := rfl

theorem bind_of_ok {m : Prog ε σ α} {f : α → Prog ε σ β} {s s' : σ} {a : α}
    (h : m s = (.ok a, s')) : (m >>= f) s = f a s' := by
  rw [bind_apply, h]

theorem bind_of_error {m : Prog ε σ α} {f : α → Prog ε σ β} {s s' : σ} {e : ε}
    (h : m s = (.error e, s')) : (m >>= f) s = (.error e, s') := by
  rw [bind_apply, h]

/-- A first part may be replaced by one that runs alike, from another state. -/
theorem bind_run_eq {m m' : Prog ε σ α} {s s' : σ} (h : m s = m' s') (f : α → Prog ε σ β) :
    (m >>= f) s = (m' >>= f) s' := by
  rw [bind_apply, bind_apply, h]

/-- Two sequences that run alike from here. -/
theorem bind_congr_at {m m' : Prog ε σ α} {f f' : α → Prog ε σ β} {s : σ} (hm : m s = m' s)
    (hf : ∀ a s₁, m s = (.ok a, s₁) → f a s₁ = f' a s₁) : (m >>= f) s = (m' >>= f') s := by
  rw [bind_apply, bind_apply, ← hm]
  split
  · rename_i a s₁ hrun
    exact hf a s₁ hrun
  · rfl

instance : LawfulMonad (Prog ε σ) := by
  refine LawfulMonad.mk' (Prog ε σ) (fun m => ?_) (fun _ _ => rfl) fun m f g => ?_
  · funext s
    show (match m s with | (.ok a, s') => (.ok a, s') | (.error e, s') => (.error e, s')) = m s
    rcases m s with ⟨_ | _, s'⟩ <;> rfl
  · funext s
    rw [bind_apply, bind_apply, bind_apply]
    rcases m s with ⟨_ | _, s'⟩ <;> rfl

theorem apply_eq {m : Prog ε σ α} {s : σ} {r : Except ε α} (h : (m s).1 = r) :
    m s = (r, m.exec s) :=
  Prod.ext h rfl

/-- A sequence that returns does so from where its first part returned. -/
theorem exists_of_bind_ok {m : Prog ε σ α} {f : α → Prog ε σ β} {s s' : σ} {b : β}
    (h : (m >>= f) s = (.ok b, s')) : ∃ a s₁, m s = (.ok a, s₁) ∧ f a s₁ = (.ok b, s') := by
  rw [bind_apply] at h
  split at h
  · rename_i a s₁ hm
    exact ⟨a, s₁, hm, h⟩
  · cases h

/-- A computation without a state that returned, and what came behind it. -/
theorem of_lift_bind_ok {r : Except ε α} {f : α → Prog ε σ β} {s s' : σ} {b : β}
    (h : (lift r >>= f) s = (.ok b, s')) : ∃ a, r = .ok a ∧ f a s = (.ok b, s') := by
  cases r with
  | ok a => exact ⟨a, rfl, h⟩
  | error e => cases congrArg Prod.fst h

/-- A check that passed, and what came behind it. -/
theorem of_raiseIf_bind_ok {c : Prop} [Decidable c] {e : ε} {f : Unit → Prog ε σ β} {s s' : σ} {b : β}
    (h : (raiseIf c e >>= f) s = (.ok b, s')) : ¬ c ∧ f () s = (.ok b, s') := by
  unfold raiseIf at h
  split at h
  · cases congrArg Prod.fst h
  · exact ⟨‹_›, h⟩

/-! ## Triples -/

/-- From a state with `P`, `m` returns into `Q` or raises into `E`. -/
def Triple (P : σ → Prop) (m : Prog ε σ α) (Q : α → σ → Prop) (E : ε → σ → Prop) : Prop :=
  ∀ s, P s →
    match m s with
    | (.ok a, s') => Q a s'
    | (.error e, s') => E e s'

/-- `m` keeps `I`, whether it returns or raises. -/
def Keeps (I : σ → Prop) (m : Prog ε σ α) : Prop := Triple I m (fun _ => I) (fun _ => I)

variable {P P' R : σ → Prop} {Q Q' : α → σ → Prop} {E E' : ε → σ → Prop} {I : σ → Prop}

theorem Triple.ok {m : Prog ε σ α} (h : Triple P m Q E) {s s' : σ} {a : α} (hs : P s)
    (hm : m s = (.ok a, s')) : Q a s' := by
  have := h s hs
  rwa [hm] at this

theorem Triple.conseq {m : Prog ε σ α} (h : Triple P' m Q' E') (hP : ∀ s, P s → P' s)
    (hQ : ∀ a s, Q' a s → Q a s) (hE : ∀ e s, E' e s → E e s) : Triple P m Q E := by
  intro s hs
  have := h s (hP s hs)
  split at this
  · exact hQ _ _ this
  · exact hE _ _ this

theorem Triple.bind {m : Prog ε σ α} {f : α → Prog ε σ β} {Q' : β → σ → Prop}
    (hm : Triple P m Q E) (hf : ∀ a, Triple (Q a) (f a) Q' E) : Triple P (m >>= f) Q' E := by
  intro s hs
  have := hm s hs
  rw [bind_apply]
  split at this
  · exact hf _ _ this
  · exact this

theorem Triple.pure {a : α} (h : ∀ s, P s → Q a s) : Triple P (pure a : Prog ε σ α) Q E :=
  fun s hs => h s hs

theorem Triple.raise {e : ε} (h : ∀ s, P s → E e s) : Triple P (raise e : Prog ε σ α) Q E :=
  fun s hs => h s hs

theorem Triple.update {f : σ → σ} {Q : Unit → σ → Prop} (h : ∀ s, P s → Q () (f s)) :
    Triple P (update f : Prog ε σ Unit) Q E :=
  fun s hs => h s hs

/-- Reading the state first: the rest runs from the state that was read. -/
theorem Triple.state_bind {f : σ → Prog ε σ α} (h : ∀ s, P s → Triple (· = s) (f s) Q E) :
    Triple P (Prog.state >>= f) Q E :=
  fun s hs => h s hs s rfl

/-- Running a partial computation first. -/
theorem Triple.lift_bind {r : Except ε β} {f : β → Prog ε σ α}
    (hok : ∀ a, r = .ok a → Triple P (f a) Q E) (herr : ∀ e s, r = .error e → P s → E e s) :
    Triple P (Prog.lift r >>= f) Q E := by
  intro s hs
  rw [bind_apply, lift_apply]
  cases hr : r with
  | ok a => exact hok a hr s hs
  | error e => exact herr e s hr hs

theorem Triple.ite {c : Prop} [Decidable c] {m n : Prog ε σ α} (hm : c → Triple P m Q E)
    (hn : ¬ c → Triple P n Q E) : Triple P (if c then m else n) Q E := by
  split
  · exact hm ‹_›
  · exact hn ‹_›

theorem Triple.finally_ {m : Prog ε σ α} {f : Prog ε σ Unit} (hm : Triple P m Q' E')
    (hok : ∀ a, Triple (Q' a) f (fun _ => Q a) E) (herr : ∀ e, Triple (E' e) f (fun _ => E e) E) :
    Triple P (finally_ m f) Q E := by
  intro s hs
  have h := hm s hs
  unfold Prog.finally_
  rcases hrun : m s with ⟨e | a, s'⟩ <;> rw [hrun] at h <;> dsimp only at h ⊢
  · have hf := herr e s' h
    rcases hrunf : f s' with ⟨e' | _, s''⟩ <;> rw [hrunf] at hf <;> exact hf
  · have hf := hok a s' h
    rcases hrunf : f s' with ⟨e' | _, s''⟩ <;> rw [hrunf] at hf <;> exact hf

theorem Keeps.bind {m : Prog ε σ α} {f : α → Prog ε σ β} (hm : Keeps I m)
    (hf : ∀ a, Keeps I (f a)) : Keeps I (m >>= f) :=
  Triple.bind hm hf

/-- Keeping an invariant, from one state that has it. -/
theorem Keeps.of_eq {m : Prog ε σ α} (h : Keeps I m) {s₀ : σ} (hs : I s₀) :
    Triple (· = s₀) m (fun _ => I) (fun _ => I) :=
  fun s heq => h s (heq ▸ hs)

theorem Keeps.exec {m : Prog ε σ α} (h : Keeps I m) {s : σ} (hs : I s) : I (m.exec s) := by
  have := h s hs
  unfold Prog.exec
  split at this <;> simp_all

theorem Keeps.seq {ms : List (Prog ε σ Unit)} (h : ∀ m ∈ ms, Keeps I m) :
    Keeps I (seq ms) := by
  induction ms with
  | nil => exact Triple.pure fun _ hs => hs
  | cons m ms ih => exact (h m (by simp)).bind fun _ => ih fun m' hm' => h m' (by simp [hm'])

/-! ## Where a run can end -/

/-- A relation between earlier and later states. -/
class Progress (R : σ → σ → Prop) : Prop where
  refl : ∀ s, R s s
  trans : ∀ {a b c}, R a b → R b c → R a c

instance : Progress (Eq : σ → σ → Prop) := ⟨fun _ => rfl, Eq.trans⟩

/-- However `m` ends, it ends in a state that its first one is in relation `R` to. -/
def Moves (R : σ → σ → Prop) (m : Prog ε σ α) : Prop := ∀ s, R s (m s).2

/-- `m` leaves the state as it is. -/
abbrev Reads (m : Prog ε σ α) : Prop := Moves Eq m

namespace Moves

variable {R : σ → σ → Prop} [Progress R]

protected theorem pure (a : α) : Moves R (pure a : Prog ε σ α) := fun s => Progress.refl s

protected theorem raise (e : ε) : Moves R (raise e : Prog ε σ α) := fun s => Progress.refl s

protected theorem state : Moves R (state : Prog ε σ σ) := fun s => Progress.refl s

protected theorem lift (r : Except ε α) : Moves R (lift r : Prog ε σ α) := fun s => Progress.refl s

omit [Progress R] in
protected theorem update {f : σ → σ} (h : ∀ s, R s (f s)) : Moves R (update f : Prog ε σ Unit) := h

protected theorem bind {m : Prog ε σ α} {f : α → Prog ε σ β} (hm : Moves R m) (hf : ∀ a, Moves R (f a)) :
    Moves R (m >>= f) := by
  intro s
  have hfirst := hm s
  rw [bind_apply]
  rcases hrun : m s with ⟨e | a, s'⟩ <;> rw [hrun] at hfirst
  · exact hfirst
  · exact Progress.trans hfirst (hf a s')

omit [Progress R] in
protected theorem ite {c : Prop} [Decidable c] {m n : Prog ε σ α} (hm : Moves R m) (hn : Moves R n) :
    Moves R (if c then m else n) := by
  split
  · exact hm
  · exact hn

/-- A guarded first part: `if c then m`, then the rest. -/
protected theorem guard {c : Prop} [Decidable c] {m : Prog ε σ Unit} {rest : Prog ε σ β} (hm : Moves R m)
    (hrest : Moves R rest) : Moves R (if c then (m >>= fun _ => rest) else rest) :=
  Moves.ite (hm.bind fun _ => hrest) hrest

protected theorem raiseIf (c : Prop) [Decidable c] (e : ε) : Moves R (raiseIf c e : Prog ε σ Unit) :=
  Moves.ite (Moves.raise e) (Moves.pure ())

protected theorem handle {m : Prog ε σ α} {handler : ε → Prog ε σ α} (hm : Moves R m)
    (hhandler : ∀ e, Moves R (handler e)) : Moves R (handle m handler) := by
  intro s
  have hfirst := hm s
  unfold Prog.handle
  rcases hrun : m s with ⟨e | a, s'⟩ <;> rw [hrun] at hfirst
  · exact Progress.trans hfirst (hhandler e s')
  · exact hfirst

protected theorem forM {f : β → Prog ε σ PUnit} (h : ∀ b, Moves R (f b)) (bs : List β) :
    Moves R (bs.forM f) := by
  induction bs with
  | nil => exact Moves.pure _
  | cons b bs ih => exact (h b).bind fun _ => ih

protected theorem mapM {f : β → Prog ε σ α} (h : ∀ b, Moves R (f b)) (bs : List β) :
    Moves R (bs.mapM f) := by
  induction bs with
  | nil => exact Moves.pure []
  | cons b bs ih =>
      rw [List.mapM_cons]
      exact (h b).bind fun a => ih.bind fun as => Moves.pure (a :: as)

/-- A program that only reads stays where it is. -/
theorem of_reads {m : Prog ε σ α} (h : Reads m) : Moves R m := fun s => h s ▸ Progress.refl s

end Moves

/-! ## Running from one state -/

/-- Run from `s`, `m` returns into `Q` or raises into `E`. -/
def Post (m : Prog ε σ α) (s : σ) (Q : α → σ → Prop) (E : ε → σ → Prop) : Prop :=
  match m s with
  | (.ok a, s') => Q a s'
  | (.error e, s') => E e s'

section Post

variable {s s' : σ}

@[simp] theorem post_pure (a : α) : Post (pure a) s Q E ↔ Q a s := Iff.rfl

@[simp] theorem post_raise (e : ε) : Post (raise e) s Q E ↔ E e s := Iff.rfl

@[simp] theorem post_state {Q : σ → σ → Prop} : Post state s Q E ↔ Q s s := Iff.rfl

@[simp] theorem post_update {Q : Unit → σ → Prop} (f : σ → σ) :
    Post (update f) s Q E ↔ Q () (f s) := Iff.rfl

@[simp] theorem post_lift_ok (a : α) : Post (lift (.ok a)) s Q E ↔ Q a s := Iff.rfl

@[simp] theorem post_lift_error (e : ε) : Post (lift (.error e)) s Q E ↔ E e s := Iff.rfl

@[simp] theorem post_bind {Q : β → σ → Prop} (m : Prog ε σ α) (f : α → Prog ε σ β) :
    Post (m >>= f) s Q E ↔ Post m s (fun a s' => Post (f a) s' Q E) E := by
  unfold Post
  rw [bind_apply]
  rcases m s with ⟨_ | _, s'⟩ <;> rfl

@[simp] theorem post_raiseIf {Q : Unit → σ → Prop} {c : Prop} [Decidable c] (e : ε) :
    Post (raiseIf c e) s Q E ↔ (c → E e s) ∧ (¬ c → Q () s) := by
  unfold raiseIf
  split <;> simp [*]

theorem post_lift {r : Except ε α} :
    Post (lift r) s Q E ↔ (∀ a, r = .ok a → Q a s) ∧ ∀ e, r = .error e → E e s := by
  cases r <;> simp

theorem Post.mono {m : Prog ε σ α} (h : Post m s Q' E') (hQ : ∀ a s', Q' a s' → Q a s')
    (hE : ∀ e s', E' e s' → E e s') : Post m s Q E := by
  unfold Post at h ⊢
  split at h
  · exact hQ _ _ h
  · exact hE _ _ h

theorem Post.and {m : Prog ε σ α} (h : Post m s Q E) (h' : Post m s Q' E') :
    Post m s (fun a s' => Q a s' ∧ Q' a s') fun e s' => E e s' ∧ E' e s' := by
  unfold Post at h h' ⊢
  rcases hm : m s with ⟨e | a, s'⟩ <;> rw [hm] at h h' <;> exact ⟨h, h'⟩

/-- A run that cannot raise returns. -/
theorem Post.exists_ok {m : Prog ε σ α} (h : Post m s Q fun _ _ => False) :
    ∃ a s', m s = (.ok a, s') ∧ Q a s' := by
  unfold Post at h
  split at h
  · exact ⟨_, _, ‹_›, h⟩
  · exact h.elim

/-- Two programs that run alike. -/
theorem Post.of_run_eq {m m' : Prog ε σ α} (hrun : m s = m' s') (h : Post m' s' Q E) : Post m s Q E := by
  unfold Post at h ⊢
  rwa [hrun]

/-- Of every run something is known. -/
theorem Post.trivial (m : Prog ε σ α) (s : σ) : Post m s (fun _ _ => True) fun _ _ => True := by
  unfold Post
  split <;> exact True.intro

/-- Run the first part by its specification. -/
theorem Post.bind {Q : β → σ → Prop} {m : Prog ε σ α} {f : α → Prog ε σ β} (h : Post m s Q' E')
    (hQ : ∀ a s', Q' a s' → Post (f a) s' Q E) (hE : ∀ e s', E' e s' → E e s') :
    Post (m >>= f) s Q E :=
  (post_bind m f).mpr (h.mono hQ hE)

/-- A choice of the first part, then the rest. -/
theorem Post.ite_bind {c : Prop} [Decidable c] {m n : Prog ε σ α} {rest : α → Prog ε σ β}
    {Q : β → σ → Prop} (h : Post (if c then m else n) s Q' E')
    (hrest : ∀ a s', Q' a s' → Post (rest a) s' Q E) (hE : ∀ e s', E' e s' → E e s') :
    Post (if c then m >>= rest else n >>= rest) s Q E := by
  split
  · rename_i hc
    rw [if_pos hc] at h
    exact h.bind hrest hE
  · rename_i hc
    rw [if_neg hc] at h
    exact h.bind hrest hE

/-- A guarded first part: `if c then m`, then the rest. -/
theorem Post.guard {c : Prop} [Decidable c] {m : Prog ε σ Unit} {rest : Prog ε σ β}
    {Q' : Unit → σ → Prop} {Q : β → σ → Prop} (h : Post (if c then m else pure ()) s Q' E)
    (hrest : ∀ u s', Q' u s' → Post rest s' Q E) :
    Post (if c then (m >>= fun _ => rest) else rest) s Q E :=
  h.ite_bind hrest fun _ _ he => he

theorem Post.of_eq {m : Prog ε σ α} {a : α} (h : m s = (.ok a, s')) (hQ : Q a s') :
    Post m s Q E := by
  unfold Post
  rwa [h]

@[simp] theorem post_handle {m : Prog ε σ α} {handler : ε → Prog ε σ α} :
    Post (handle m handler) s Q E ↔ Post m s Q fun e s' => Post (handler e) s' Q E := by
  unfold Post handle
  rcases m s with ⟨_ | _, s'⟩ <;> rfl

@[simp] theorem post_zoom {τ : Type} {get : σ → τ} {set : τ → σ → σ} {m : Prog ε τ α} :
    Post (zoom get set m) s Q E ↔
      Post m (get s) (fun a t => Q a (set t s)) fun e t => E e (set t s) := by
  unfold Post zoom
  rcases m (get s) with ⟨_ | _, t⟩ <;> rfl

/-- A loop keeps what each of its turns keeps. -/
theorem Post.forM {f : β → Prog ε σ PUnit} {bs : List β} (hs : I s)
    (h : ∀ b ∈ bs, ∀ s, I s → Post (f b) s (fun _ => I) E) : Post (bs.forM f) s (fun _ => I) E := by
  induction bs generalizing s with
  | nil => exact hs
  | cons b bs ih =>
      exact (h b (List.mem_cons_self ..) s hs).bind
        (fun _ s' hs' => ih hs' fun c hc => h c (List.mem_cons_of_mem _ hc)) fun _ _ he => he

/-- A loop of checks stops at the first that raises. -/
theorem Post.checks {f : β → Prog ε σ PUnit} {bs : List β} (passes : β → Prop) (fails : β → ε → Prop)
    (h : ∀ b ∈ bs, Post (f b) s (fun _ s' => s' = s ∧ passes b) fun e s' => s' = s ∧ fails b e) :
    Post (bs.forM f) s (fun _ s' => s' = s ∧ ∀ b ∈ bs, passes b) fun e s' => s' = s ∧ ∃ b ∈ bs, fails b e := by
  induction bs with
  | nil => exact ⟨rfl, fun b hb => absurd hb List.not_mem_nil⟩
  | cons b bs ih =>
      apply (h b (List.mem_cons_self ..)).bind
      · rintro _ s' ⟨hs', hb⟩
        subst hs'
        apply (ih fun c hc => h c (List.mem_cons_of_mem _ hc)).mono
        · rintro _ s'' ⟨hs'', hbs⟩
          refine ⟨hs'', fun c hc => ?_⟩
          rcases List.mem_cons.mp hc with rfl | hc
          · exact hb
          · exact hbs c hc
        · rintro e s'' ⟨hs'', c, hc, he⟩
          exact ⟨hs'', c, List.mem_cons_of_mem _ hc, he⟩
      · rintro e s' ⟨hs', he⟩
        exact ⟨hs', b, List.mem_cons_self .., he⟩

theorem Post.ok {m : Prog ε σ α} {a : α} (h : Post m s Q E) (hm : m s = (.ok a, s')) : Q a s' := by
  unfold Post at h
  rwa [hm] at h

/-- What holds of each result that is not an error. -/
theorem Post.of_ok {m : Prog ε σ α} (h : ∀ a s', m s = (.ok a, s') → Q a s') : Post m s Q fun _ _ => True := by
  unfold Post
  rcases hrun : m s with ⟨_ | a, s'⟩
  · trivial
  · exact h a s' hrun

/-- What is known of a program's results, when it only reads. -/
theorem Reads.post {m : Prog ε σ α} (h : Reads m) : Post m s (fun a s' => s' = s ∧ (m s).1 = .ok a)
    fun e s' => s' = s ∧ (m s).1 = .error e := by
  have hstate := h s
  unfold Post
  rcases hrun : m s with ⟨_ | _, s'⟩
  · rw [hrun] at hstate
    exact ⟨hstate.symm, rfl⟩
  · rw [hrun] at hstate
    exact ⟨hstate.symm, rfl⟩

theorem Post.error {m : Prog ε σ α} {e : ε} (h : Post m s Q E) (hm : m s = (.error e, s')) :
    E e s' := by
  unfold Post at h
  rwa [hm] at h

end Post

/-! ## Runs that stop half way -/

section Along

variable {good : σ → Prop} {ms ns : List (Prog ε σ Unit)} {s : σ}

theorem seq_cons_of_ok {m : Prog ε σ Unit} {s' : σ} (h : m s = (.ok (), s')) :
    seq (m :: ms) s = seq ms s' :=
  bind_of_ok h

/-- A sequence that returns ends with its last program. -/
theorem exists_of_seq_concat_ok {m : Prog ε σ Unit} {s' : σ} (h : seq (ms ++ [m]) s = (.ok (), s')) :
    ∃ s₁, m s₁ = (.ok (), s') := by
  induction ms generalizing s with
  | nil =>
      obtain ⟨⟨⟩, s₁, hm, hrest⟩ := exists_of_bind_ok (show (m >>= fun _ => seq []) s = _ from h)
      obtain rfl := (Prod.mk.inj hrest).2
      exact ⟨s, hm⟩
  | cons m' ms ih =>
      obtain ⟨⟨⟩, s₁, -, hrest⟩ := exists_of_bind_ok (show (m' >>= fun _ => seq (ms ++ [m])) s = _ from h)
      exact ih hrest

/-- Stopping after any number of programs leaves a good state. -/
theorem Along.take (h : Along good ms s) (k : Nat) : good ((seq (ms.take k)).exec s) := by
  induction ms generalizing s k with
  | nil => rw [List.take_nil]; exact h
  | cons m ms ih =>
      cases k with
      | zero => exact h.1
      | succ k =>
          obtain ⟨-, hstep⟩ := h
          have hrun : (seq ((m :: ms).take (k + 1))).exec s = ((m >>= fun _ => seq (ms.take k)) s).2 :=
            rfl
          rw [hrun, bind_apply]
          split at hstep <;> rename_i heq <;> rw [heq]
          · exact ih hstep k
          · exact hstep

/-- One program that is known to return. -/
theorem Along.cons {m : Prog ε σ Unit} {s' : σ} (hs : good s) (hm : m s = (.ok (), s'))
    (h : Along good ms s') : Along good (m :: ms) s := by
  refine ⟨hs, ?_⟩
  rw [hm]
  exact h

/-- Programs that keep an invariant, then the rest from wherever they return. -/
theorem Along.append (hkeep : ∀ m ∈ ms, Keeps I m) (hgood : ∀ s, I s → good s) (hs : I s)
    (hrest : ∀ s', I s' → seq ms s = (.ok (), s') → Along good ns s') :
    Along good (ms ++ ns) s := by
  induction ms generalizing s with
  | nil => exact hrest s hs rfl
  | cons m ms ih =>
      have hm := hkeep m (by simp) s hs
      refine ⟨hgood s hs, ?_⟩
      rcases heq : m s with ⟨_ | _, s'⟩ <;> rw [heq] at hm
      · exact hgood s' hm
      · refine ih (fun m' hm' => hkeep m' (by simp [hm'])) hm fun s'' hs'' hrun => ?_
        exact hrest s'' hs'' ((seq_cons_of_ok heq).trans hrun)

end Along

end Prog
