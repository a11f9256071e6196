/-
  Lib/Serial.lean --- transactions that stand in each other's way no more than one after
  another would.

  A store of objects that transactions read and write in place, keeping what was there
  before.  If nobody touches what another active transaction has written, or writes what
  another has touched, then the committed transactions have read and written what they would
  have one after another, in the order of their commits.
-/
import QuillDb.Lib.Dict
import QuillDb.Lib.Runs
import Mathlib.Logic.Function.Basic

set_option autoImplicit false

namespace Serial

universe u

/-- What a transaction did to an object: the value it read or wrote. -/
inductive Access (Object Content : Type) where
  | read (o : Object) (v : Content)
  | write (o : Object) (v : Content)
  deriving DecidableEq

namespace Access

variable {Object Content : Type} [DecidableEq Object]

/-- The object of an access. -/
def object : Access Object Content → Object
  | read o _ => o
  | write o _ => o

/-- The access to a store that nobody else uses. -/
inductive Step : Access Object Content → (Object → Content) → (Object → Content) → Prop
  | read (db : Object → Content) (o : Object) : Step (.read o (db o)) db db
  | write (db : Object → Content) (o : Object) (v : Content) : Step (.write o v) db (Function.update db o v)

end Access

section Replays

variable {Object Content : Type} {log : List (Access Object Content)} {o : Object} {v : Content}

/-- A transaction has touched an object. -/
def Touched (log : List (Access Object Content)) (o : Object) : Prop := ∃ a ∈ log, a.object = o

/-- A transaction has written an object. -/
def Written (log : List (Access Object Content)) (o : Object) : Prop := ∃ v, .write o v ∈ log

theorem Written.touched (h : Written log o) : Touched log o := by
  obtain ⟨v, hv⟩ := h
  exact ⟨_, hv, rfl⟩

theorem touched_concat {a : Access Object Content} :
    Touched (log ++ [a]) o ↔ Touched log o ∨ a.object = o := by
  simp [Touched, or_and_right, exists_or]

theorem written_concat_read {o' : Object} : Written (log ++ [.read o' v]) o ↔ Written log o := by
  simp [Written]

theorem written_concat_write {o' : Object} : Written (log ++ [.write o' v]) o ↔ Written log o ∨ o = o' := by
  simp [Written, exists_or]

variable [DecidableEq Object] {db db' : Object → Content}

/-- The accesses, one after another, of a store that nobody else uses. -/
abbrev Replays (db : Object → Content) (log : List (Access Object Content)) (db' : Object → Content) : Prop :=
  Runs Access.Step db log db'

/-- What is not written stays. -/
theorem Replays.frame (h : Replays db log db') (ho : ¬ Written log o) : db' o = db o := by
  induction h with
  | nil => rfl
  | @cons db db₁ db' a log hstep _ ih =>
      have hrest : ¬ Written log o := fun ⟨v, hv⟩ => ho ⟨v, List.mem_cons_of_mem _ hv⟩
      rw [ih hrest]
      cases hstep with
      | read => rfl
      | write _ o' v =>
          have hne : o ≠ o' := by
            intro heq
            exact ho ⟨v, heq ▸ List.mem_cons_self ..⟩
          exact Function.update_of_ne hne v db

/-- A log replays alike where the objects that it touches are alike. -/
theorem Replays.congr (h : Replays db log db') {db₂ : Object → Content} (hagree : ∀ o, Touched log o → db₂ o = db o) :
    ∃ db₂', Replays db₂ log db₂' ∧ ∀ o, Touched log o → db₂' o = db' o := by
  suffices hstrong : ∀ p : Object → Prop, (∀ o, Touched log o → p o) → (∀ o, p o → db₂ o = db o) →
      ∃ db₂', Replays db₂ log db₂' ∧ ∀ o, p o → db₂' o = db' o by
    exact hstrong (Touched log) (fun _ ho => ho) hagree
  intro p hp hsame
  clear hagree
  induction h generalizing db₂ with
  | nil => exact ⟨db₂, .nil _, hsame⟩
  | @cons db db₁ db' a log hstep _ ih =>
      have hrest : ∀ o, Touched log o → p o := by
        intro o ho
        obtain ⟨b, hb, hbo⟩ := ho
        exact hp o ⟨b, List.mem_cons_of_mem _ hb, hbo⟩
      have hhead : p a.object := hp _ ⟨a, List.mem_cons_self .., rfl⟩
      cases hstep with
      | read _ o =>
          obtain ⟨db₂', hreplays, hagree⟩ := ih hrest hsame
          refine ⟨db₂', .cons ?_ hreplays, hagree⟩
          have hvalue : db₂ o = db o := hsame o hhead
          rw [← hvalue]
          exact .read db₂ o
      | write _ o v =>
          have hsame' : ∀ o', p o' → Function.update db₂ o v o' = Function.update db o v o' := by
            intro o' ho'
            by_cases heq : o' = o
            · subst heq
              simp
            · simp [Function.update_of_ne heq, hsame o' ho']
          obtain ⟨db₂', hreplays, hagree⟩ := ih hrest hsame'
          exact ⟨db₂', .cons (.write db₂ o v) hreplays, hagree⟩

end Replays

/-! ## A store in use -/

/-- Where a transaction stands. -/
inductive Phase where
  | new
  | active
  | ended
  deriving DecidableEq

/-- The store as it is, and the transactions: what each has done, what was there before it
wrote, and who has committed, in order. -/
structure World (Txn Object Content : Type) where
  contents : Object → Content
  phase : Txn → Phase := fun _ => .new
  log : Txn → List (Access Object Content) := fun _ => []
  before : Txn → Dict Object Content := fun _ => []
  history : List Txn := []

namespace World

variable {Txn Object Content : Type} [DecidableEq Txn] [DecidableEq Object]

/-- A transaction begins. -/
def start (w : World Txn Object Content) (t : Txn) : World Txn Object Content :=
  { w with phase := Function.update w.phase t .active }

/-- A transaction reads the object as it is. -/
def read (w : World Txn Object Content) (t : Txn) (o : Object) : World Txn Object Content :=
  { w with log := Function.update w.log t (w.log t ++ [.read o (w.contents o)]) }

/-- A transaction writes in place; what was there is kept the first time. -/
def write (w : World Txn Object Content) (t : Txn) (o : Object) (v : Content) : World Txn Object Content :=
  { w with
    contents := Function.update w.contents o v
    log := Function.update w.log t (w.log t ++ [.write o v])
    before := Function.update w.before t
      (match (w.before t).lookup o with
        | some _ => w.before t
        | none => w.before t ++ [(o, w.contents o)]) }

/-- What a transaction wrote stays. -/
def commit (w : World Txn Object Content) (t : Txn) : World Txn Object Content :=
  { w with
    phase := Function.update w.phase t .ended
    history := w.history ++ [t] }

/-- What was there before is put back. -/
def rollback (w : World Txn Object Content) (t : Txn) : World Txn Object Content :=
  { w with
    contents := fun o => ((w.before t).lookup o).getD (w.contents o)
    phase := Function.update w.phase t .ended }

/-- Nobody touches what another active transaction has written. -/
def Separate (w : World Txn Object Content) : Prop :=
  ∀ t u, t ≠ u → w.phase t = .active → w.phase u = .active → ∀ o, Written (w.log t) o → ¬ Touched (w.log u) o

/-- The store of the committed transactions, which have run one after another; an active
transaction has done what it would have after them, and has put down what they left. -/
structure Serializes (w : World Txn Object Content) (initial committed : Object → Content) : Prop where
  serial : Replays initial (w.history.flatMap w.log) committed
  views : ∀ t, w.phase t = .active → ∃ view, Replays committed (w.log t) view ∧
    ∀ o, Touched (w.log t) o → view o = w.contents o
  clean : ∀ o, (∀ t, w.phase t = .active → ¬ Written (w.log t) o) → w.contents o = committed o
  before : ∀ t, w.phase t = .active → ∀ o, (Written (w.log t) o → (w.before t).lookup o = some (committed o)) ∧
    (¬ Written (w.log t) o → (w.before t).lookup o = none)
  fresh : ∀ t, w.phase t = .new → w.log t = [] ∧ w.before t = []
  ended : ∀ t ∈ w.history, w.phase t = .ended

variable {w : World Txn Object Content} {initial committed : Object → Content} {t : Txn} {o : Object} {v : Content}

omit [DecidableEq Txn] in
theorem serializes_init (contents : Object → Content) :
    Serializes ({ contents := contents } : World Txn Object Content) contents contents where
  serial := .nil _
  views := nofun
  clean _ _ := rfl
  before := nofun
  fresh _ _ := ⟨rfl, rfl⟩
  ended := nofun

omit [DecidableEq Txn] in
/-- Who has committed is not active. -/
theorem Serializes.ne_of_mem (h : w.Serializes initial committed) (hactive : w.phase t = .active) {u : Txn}
    (hu : u ∈ w.history) : u ≠ t := by
  rintro rfl
  have hended := h.ended u hu
  rw [hactive] at hended
  cases hended

/-- What an active transaction would read after those that have committed is there, if no
other has written it. -/
theorem Serializes.found (h : w.Serializes initial committed) {view : Object → Content}
    (hreplays : Replays committed (w.log t) view) (hview : ∀ o, Touched (w.log t) o → view o = w.contents o)
    (hfree : ∀ u, u ≠ t → w.phase u = .active → ¬ Written (w.log u) o) : view o = w.contents o := by
  by_cases hwritten : Written (w.log t) o
  · exact hview o hwritten.touched
  · rw [hreplays.frame hwritten]
    symm
    apply h.clean
    intro u hu
    by_cases heq : u = t
    · exact heq ▸ hwritten
    · exact hfree u heq hu

theorem Serializes.start (h : w.Serializes initial committed) (hnew : w.phase t = .new) :
    (w.start t).Serializes initial committed := by
  have hempty := h.fresh t hnew
  have hphase : ∀ u, u ≠ t → (w.start t).phase u = w.phase u := fun u hu => Function.update_of_ne hu _ _
  constructor
  · exact h.serial
  · intro u hu
    by_cases heq : u = t
    · subst heq
      refine ⟨committed, ?_, ?_⟩
      · change Replays committed (w.log u) committed
        rw [hempty.1]
        exact .nil _
      · intro o ho
        change Touched (w.log u) o at ho
        rw [hempty.1] at ho
        simp [Touched] at ho
    · exact h.views u (hphase u heq ▸ hu)
  · intro o ho
    apply h.clean
    intro u hu
    by_cases heq : u = t
    · rw [heq, hempty.1]
      simp [Written]
    · exact ho u ((hphase u heq).trans hu)
  · intro u hu o
    by_cases heq : u = t
    · subst heq
      change (Written (w.log u) o → (w.before u).lookup o = _) ∧ (¬ Written (w.log u) o → (w.before u).lookup o = _)
      rw [hempty.1, hempty.2]
      simp [Written]
    · exact h.before u (hphase u heq ▸ hu) o
  · intro u hu
    by_cases heq : u = t
    · subst heq
      simp [World.start] at hu
    · exact h.fresh u (hphase u heq ▸ hu)
  · intro u hu
    have hended := h.ended u hu
    by_cases heq : u = t
    · subst heq
      rw [hnew] at hended
      cases hended
    · exact (hphase u heq).trans hended

theorem Serializes.read (h : w.Serializes initial committed) (hactive : w.phase t = .active)
    (hfree : ∀ u, u ≠ t → w.phase u = .active → ¬ Written (w.log u) o) : (w.read t o).Serializes initial committed := by
  have hself : (w.read t o).log t = w.log t ++ [.read o (w.contents o)] := Function.update_self ..
  have hother : ∀ u, u ≠ t → (w.read t o).log u = w.log u := fun u hu => Function.update_of_ne hu _ _
  have hwritten : ∀ u o', Written ((w.read t o).log u) o' ↔ Written (w.log u) o' := by
    intro u o'
    by_cases heq : u = t
    · rw [heq, hself, written_concat_read]
    · rw [hother u heq]
  have hhistory : ∀ u ∈ w.history, (w.read t o).log u = w.log u := by
    intro u hu
    exact hother u (h.ne_of_mem hactive hu)
  constructor
  · change Replays initial (w.history.flatMap (w.read t o).log) committed
    rw [List.flatMap_congr hhistory]
    exact h.serial
  · intro u hu
    obtain ⟨view, hreplays, hview⟩ := h.views u hu
    by_cases heq : u = t
    · subst heq
      have hfound := h.found hreplays hview hfree
      refine ⟨view, ?_, ?_⟩
      · rw [hself, ← hfound]
        exact hreplays.concat (.read view o)
      · intro o' ho'
        rw [hself, touched_concat] at ho'
        rcases ho' with ho' | ho'
        · exact hview o' ho'
        · cases ho'
          exact hfound
    · rw [hother u heq]
      exact ⟨view, hreplays, hview⟩
  · intro o' ho'
    exact h.clean o' fun u hu hw => ho' u hu ((hwritten u o').mpr hw)
  · intro u hu o'
    rw [hwritten]
    exact h.before u hu o'
  · intro u hu
    have hne : u ≠ t := by
      rintro rfl
      rw [World.read, hactive] at hu
      cases hu
    rw [hother u hne]
    exact h.fresh u hu
  · exact h.ended

theorem Serializes.write (h : w.Serializes initial committed) (hactive : w.phase t = .active) (v : Content)
    (hfree : ∀ u, u ≠ t → w.phase u = .active → ¬ Touched (w.log u) o) :
    (w.write t o v).Serializes initial committed := by
  have hself : (w.write t o v).log t = w.log t ++ [.write o v] := Function.update_self ..
  have hother : ∀ u, u ≠ t → (w.write t o v).log u = w.log u := fun u hu => Function.update_of_ne hu _ _
  have hothers : ∀ u, u ≠ t → (w.write t o v).before u = w.before u := fun u hu => Function.update_of_ne hu _ _
  have hcontents : ∀ o', o' ≠ o → (w.write t o v).contents o' = w.contents o' := fun o' ho' =>
    Function.update_of_ne ho' _ _
  have hhistory : ∀ u ∈ w.history, (w.write t o v).log u = w.log u := by
    intro u hu
    exact hother u (h.ne_of_mem hactive hu)
  constructor
  · change Replays initial (w.history.flatMap (w.write t o v).log) committed
    rw [List.flatMap_congr hhistory]
    exact h.serial
  · intro u hu
    obtain ⟨view, hreplays, hview⟩ := h.views u hu
    by_cases heq : u = t
    · subst heq
      refine ⟨Function.update view o v, ?_, ?_⟩
      · rw [hself]
        exact hreplays.concat (.write view o v)
      · intro o' ho'
        rw [hself, touched_concat] at ho'
        by_cases hsame : o' = o
        · subst hsame
          simp [World.write]
        · rw [Function.update_of_ne hsame, hcontents o' hsame]
          rcases ho' with ho' | ho'
          · exact hview o' ho'
          · exact absurd ho'.symm hsame
    · rw [hother u heq]
      refine ⟨view, hreplays, ?_⟩
      intro o' ho'
      have hne : o' ≠ o := by
        rintro rfl
        exact hfree u heq hu ho'
      rw [hcontents o' hne]
      exact hview o' ho'
  · intro o' ho'
    have hne : o' ≠ o := by
      rintro rfl
      apply ho' t hactive
      rw [hself, written_concat_write]
      exact .inr rfl
    rw [hcontents o' hne]
    apply h.clean
    intro u hu hw
    apply ho' u hu
    by_cases heq : u = t
    · subst heq
      rw [hself, written_concat_write]
      exact .inl hw
    · rwa [hother u heq]
  · intro u hu o'
    by_cases heq : u = t
    · subst heq
      have hkept : (w.write u o v).before u =
          match (w.before u).lookup o with
          | some _ => w.before u
          | none => w.before u ++ [(o, w.contents o)] := Function.update_self ..
      rw [hself, written_concat_write, hkept]
      have hbefore := h.before u hu
      by_cases hwritten : Written (w.log u) o
      · rw [(hbefore o).1 hwritten]
        have hiff : Written (w.log u) o' ∨ o' = o ↔ Written (w.log u) o' := by
          constructor
          · rintro (hw | rfl)
            · exact hw
            · exact hwritten
          · exact Or.inl
        rw [hiff]
        exact hbefore o'
      · have hclean : w.contents o = committed o := by
          apply h.clean
          intro u' hu'
          by_cases heq : u' = u
          · exact heq ▸ hwritten
          · exact fun hw => hfree u' heq hu' hw.touched
        rw [(hbefore o).2 hwritten]
        simp only [List.lookup_append, Dict.lookup_cons_ite, List.lookup_nil, hclean]
        by_cases hsame : o' = o
        · subst hsame
          simp [(hbefore o').2 hwritten]
        · simp only [hsame, or_false, if_false, Option.or_none]
          exact hbefore o'
    · rw [hother u heq, hothers u heq]
      exact h.before u hu o'
  · intro u hu
    have hne : u ≠ t := by
      rintro rfl
      rw [World.write, hactive] at hu
      cases hu
    rw [hother u hne, hothers u hne]
    exact h.fresh u hu
  · exact h.ended

theorem Serializes.commit (h : w.Serializes initial committed) (hactive : w.phase t = .active) (hsep : w.Separate) :
    ∃ committed', (w.commit t).Serializes initial committed' := by
  obtain ⟨view, hreplays, hview⟩ := h.views t hactive
  have hself : (w.commit t).phase t = .ended := Function.update_self ..
  have hphase : ∀ u, (w.commit t).phase u = .active → u ≠ t ∧ w.phase u = .active := by
    intro u hu
    have hne : u ≠ t := by
      rintro rfl
      rw [hself] at hu
      cases hu
    exact ⟨hne, (Function.update_of_ne hne _ _ : (w.commit t).phase u = w.phase u) ▸ hu⟩
  -- what another active transaction touches is as it was
  have hsame : ∀ u o, (w.commit t).phase u = .active → Touched (w.log u) o → view o = committed o := by
    intro u o hu ho
    obtain ⟨hne, hu⟩ := hphase u hu
    exact hreplays.frame fun hw => hsep t u hne.symm hactive hu o hw ho
  refine ⟨view, ?_⟩
  constructor
  · change Replays initial ((w.history ++ [t]).flatMap w.log) view
    rw [List.flatMap_append, List.flatMap_singleton]
    exact h.serial.append hreplays
  · intro u hu
    obtain ⟨viewu, hreplaysu, hviewu⟩ := h.views u (hphase u hu).2
    obtain ⟨viewu', hreplaysu', hagree⟩ := hreplaysu.congr fun o ho => hsame u o hu ho
    refine ⟨viewu', hreplaysu', ?_⟩
    intro o ho
    exact (hagree o ho).trans (hviewu o ho)
  · intro o ho
    by_cases htouched : Touched (w.log t) o
    · exact (hview o htouched).symm
    · have hunwritten : ¬ Written (w.log t) o := fun hw => htouched hw.touched
      rw [hreplays.frame hunwritten]
      apply h.clean
      intro u hu
      by_cases heq : u = t
      · exact heq ▸ hunwritten
      · exact ho u ((Function.update_of_ne heq _ _ : (w.commit t).phase u = w.phase u).trans hu)
  · intro u hu o
    obtain ⟨hwritten, hunwritten⟩ := h.before u (hphase u hu).2 o
    refine ⟨fun hw => ?_, hunwritten⟩
    rw [hsame u o hu hw.touched]
    exact hwritten hw
  · intro u hu
    have hne : u ≠ t := by
      rintro rfl
      rw [hself] at hu
      cases hu
    exact h.fresh u ((Function.update_of_ne hne _ _ : (w.commit t).phase u = w.phase u) ▸ hu)
  · intro u hu
    rcases List.mem_append.mp hu with hu | hu
    · exact (Function.update_of_ne (h.ne_of_mem hactive hu) _ _).trans (h.ended u hu)
    · rw [List.mem_singleton.mp hu]
      exact hself

theorem Serializes.rollback (h : w.Serializes initial committed) (hactive : w.phase t = .active) (hsep : w.Separate) :
    (w.rollback t).Serializes initial committed := by
  have hself : (w.rollback t).phase t = .ended := Function.update_self ..
  have hne : ∀ u p, p ≠ .ended → (w.rollback t).phase u = p → u ≠ t := by
    rintro u p hp hu rfl
    exact hp (hu.symm.trans hself)
  have hphase : ∀ u p, p ≠ .ended → (w.rollback t).phase u = p → w.phase u = p := by
    intro u p hp hu
    exact (Function.update_of_ne (hne u p hp hu) _ _ : (w.rollback t).phase u = w.phase u) ▸ hu
  have hback : ∀ o, Written (w.log t) o → (w.rollback t).contents o = committed o := by
    intro o hw
    change ((w.before t).lookup o).getD (w.contents o) = committed o
    rw [(h.before t hactive o).1 hw]
    rfl
  have hkept : ∀ o, ¬ Written (w.log t) o → (w.rollback t).contents o = w.contents o := by
    intro o hw
    change ((w.before t).lookup o).getD (w.contents o) = w.contents o
    rw [(h.before t hactive o).2 hw]
    rfl
  constructor
  · exact h.serial
  · intro u hu
    have hu' := hphase u .active (by decide) hu
    obtain ⟨view, hreplays, hview⟩ := h.views u hu'
    refine ⟨view, hreplays, ?_⟩
    intro o ho
    rw [hkept o fun hw => hsep t u (hne u .active (by decide) hu).symm hactive hu' o hw ho]
    exact hview o ho
  · intro o ho
    by_cases hw : Written (w.log t) o
    · exact hback o hw
    · rw [hkept o hw]
      apply h.clean
      intro u hu
      by_cases heq : u = t
      · exact heq ▸ hw
      · exact ho u ((Function.update_of_ne heq _ _ : (w.rollback t).phase u = w.phase u).trans hu)
  · intro u hu
    exact h.before u (hphase u .active (by decide) hu)
  · intro u hu
    exact h.fresh u (hphase u .new (by decide) hu)
  · intro u hu
    exact (Function.update_of_ne (h.ne_of_mem hactive hu) _ _).trans (h.ended u hu)

omit [DecidableEq Txn] in
/-- When nobody is active, the store is what the committed transactions left. -/
theorem Serializes.quiet (h : w.Serializes initial committed) (hquiet : ∀ t, w.phase t ≠ .active) :
    w.contents = committed := by
  funext o
  exact h.clean o fun t ht => absurd ht (hquiet t)

end World

end Serial
