/-
  Txn/Serializable.lean --- transactions under these locks are serializable.

  `docs/concurrency.md` promises it: strict two-phase locking of tables, a single writer, and
  "__schema__" before anything else.  The order is the order of the commits.
-/
import QuillDb.Txn.Sessions

set_option autoImplicit false

namespace QuillDb

open Serial

namespace LockSystem

variable {s s' : LockSystem} {t u : Nat} {r : String} {m : LockMode}

/-! ## What a call of `acquire` that returns has got -/

theorem HoldsAtLeast.weaken (h : s.HoldsAtLeast t r .exclusive) (m : LockMode) : s.HoldsAtLeast t r m := by
  obtain ⟨held, hmem, hstrong⟩ := h
  exact ⟨held, hmem, fun _ => hstrong rfl⟩

/-- An exclusive hold is the only one. -/
theorem Coherent.holder_unique (hc : s.Coherent) (h : s.HoldsAtLeast t r .exclusive) (h' : s.HoldsAtLeast u r m) :
    t = u := by
  obtain ⟨held, hmem, hstrong⟩ := h
  obtain ⟨held', hmem', -⟩ := h'
  exact (hc.orderly r).alone t u held' (hstrong rfl ▸ hmem) hmem'

theorem holdsAtLeast_of_put {d : Dict Nat LockMode} (h : (s.entry r).holders = d.put t m) : s.HoldsAtLeast t r m := by
  refine ⟨m, ?_, id⟩
  rw [h]
  exact Dict.mem_of_lookup ((Dict.lookup_put ..).trans (if_pos rfl))

theorem acquire_holds (h : (s.acquire t r m).threads t = .outside) :
    (s.acquire t r m).HoldsAtLeast t r m := by
  unfold acquire at h ⊢
  simp only at h ⊢
  split
  · rename_i hsufficient
    rw [LockEntry.sufficient] at hsufficient
    split at hsufficient
    · rename_i held hlookup
      refine ⟨held, ?_, ?_⟩
      · simpa using Dict.mem_of_lookup hlookup
      · rintro rfl
        simpa using hsufficient
    · cases hsufficient
  · split
    · apply holdsAtLeast_of_put (d := (s.entry r).holders)
      simp [LockEntry.grant]
    · rename_i hsufficient hgrantable
      rw [if_neg hsufficient, if_neg hgrantable, threads_setThread_self] at h
      cases h

/-- A call of `acquire` returns at once, or goes on to wait for what it was made for. -/
theorem acquire_threads (houtside : s.threads t = .outside) (r : String) (m : LockMode) :
    (s.acquire t r m).threads t = .outside ∨ (s.acquire t r m).threads t = .checking r m := by
  unfold acquire
  simp only
  split
  · exact .inl houtside
  · split
    · left
      rw [threads_notifyAll, threads_setEntry, houtside]
      rfl
    · exact .inr (threads_setThread_self ..)

theorem check_holds {expired : Bool} (hgrantable : (s.entry r).grantable t m = true) :
    (s.check t r m expired).HoldsAtLeast t r m := by
  unfold check
  rw [if_pos hgrantable]
  apply holdsAtLeast_of_put (d := (s.entry r).holders)
  rw [holders_leave]
  simp [LockEntry.grant]

/-- A call that is about to return: what it asked for, and has unless it failed. -/
theorem leaving_of_step {a : Action} {outcome : Outcome} (h : s.step a = some s')
    (hleaving : s'.threads a.actor = .leaving outcome) :
    ∃ r m, s.threads a.actor = .checking r m ∧ (outcome = .ok () → s'.HoldsAtLeast a.actor r m) := by
  cases (step_effect h).queueing with
  | stay request waiters =>
      rw [hleaving] at request
      rcases unqueued_step h request.symm with houtside | ⟨r, m, hchecking⟩ | ⟨-, rest, hreleasing⟩
      · rw [houtside] at hleaving
        cases hleaving
      · rw [hchecking] at hleaving
        cases hleaving
      · rw [hreleasing] at hleaving
        cases hleaving
  | enter r m outside inside wanting waiters =>
      rw [inside] at hleaving
      cases hleaving
  | leave r m outcome' inside outside ends waiters =>
      rw [outside] at hleaving
      cases hleaving
      refine ⟨r, m, inside, ?_⟩
      rintro rfl
      rcases ends with ⟨-, hgrantable⟩ | ⟨cycle, hend⟩ | ⟨message, hend⟩
      · -- only a round of the wait loop leaves a queue
        cases a with
        | check t expired =>
            simp only [step] at h
            split at h
            · rename_i r' m' hchecking
              cases h
              cases hchecking.symm.trans inside
              exact check_holds hgrantable
            · cases h
        | acquire t r' m' =>
            simp only [step, Action.actor] at h inside
            simp [inside] at h
        | _ t =>
            simp only [step, Action.actor] at h inside
            simp [inside] at h
      · cases hend
      · cases hend

end LockSystem

namespace Sessions

open LockSystem

variable {Content : Type} {s s' : Sessions Content} {t u : Nat} {i : Item}

/-! ## What the locks of a transaction are good for -/

/-- The locks that make a read safe: the table, or being the one writer, or the schema. -/
def Readable (l : LockSystem) (t : Nat) : Item → Prop
  | .catalog => l.HoldsAtLeast t schemaResource .shared
  | .table name => l.HoldsAtLeast t schemaResource .shared ∧
      (l.HoldsAtLeast t name .shared ∨ l.HoldsAtLeast t writerResource .exclusive ∨
        l.HoldsAtLeast t schemaResource .exclusive)

/-- The locks that make a write safe. -/
def Writable (l : LockSystem) (t : Nat) : Item → Prop
  | .catalog => l.HoldsAtLeast t schemaResource .exclusive
  | .table name => l.HoldsAtLeast t schemaResource .shared ∧ l.HoldsAtLeast t writerResource .exclusive ∧
      (l.HoldsAtLeast t name .exclusive ∨ l.HoldsAtLeast t schemaResource .exclusive)

theorem Writable.readable {l : LockSystem} (h : Writable l t i) : Readable l t i := by
  cases i with
  | catalog => exact HoldsAtLeast.weaken h .shared
  | table name => exact ⟨h.1, .inr (.inl h.2.1)⟩

/-- Nobody reads what another may write. -/
theorem Writable.alone {l : LockSystem} (hc : l.Coherent) (h : Writable l t i) (h' : Readable l u i) : t = u := by
  cases i with
  | catalog => exact hc.holder_unique h h'
  | table name =>
      obtain ⟨hschema, hwriter, htable⟩ := h
      obtain ⟨hschema', htable'⟩ := h'
      rcases htable' with hname | hwriter' | hexclusive
      · rcases htable with hname' | hexclusive
        · exact hc.holder_unique hname' hname
        · exact hc.holder_unique hexclusive hschema'
      · exact hc.holder_unique hwriter hwriter'
      · exact (hc.holder_unique hexclusive hschema).symm

end Sessions

namespace Locking

open LockSystem Sessions Transaction

variable {l : LockSystem} {t : Nat} {statement : Locking} {granted : Nat} {i : Item}

/-- Of the calls that have returned, the first is for the schema. -/
theorem schema_held (hgranted : 0 < granted)
    (h : ∀ q ∈ statement.requests.take granted, l.HoldsAtLeast t q.1 q.2) :
    l.HoldsAtLeast t schemaResource .shared := by
  obtain ⟨n, rfl⟩ := Nat.exists_eq_succ_of_ne_zero hgranted.ne'
  cases statement with
  | createTable name => exact (h (schemaResource, .exclusive) (by simp [requests, lockSchemaWrite])).weaken _
  | createIndex written table => exact (h (schemaResource, .exclusive) (by simp [requests, lockSchemaWrite])).weaken _
  | immediate => exact h (schemaResource, .shared) (by simp [requests, lockImmediate, lockSchemaRead])
  | _ => exact h (schemaResource, .shared) (by simp [requests, lockSchemaRead])

/-- A writer of rows is the one writer, and has its table for itself. -/
theorem mutate_held {name : String}
    (h : ∀ q ∈ (lockSchemaRead ++ lockForWrite name).take 3, l.HoldsAtLeast t q.1 q.2) :
    l.HoldsAtLeast t schemaResource .shared ∧ l.HoldsAtLeast t writerResource .exclusive ∧
      l.HoldsAtLeast t name .exclusive := by
  simpa [lockSchemaRead, lockForWrite, acquireWriter] using h

/-- A CREATE has the schema for itself too. -/
theorem create_held {name : String}
    (h : ∀ q ∈ (lockSchemaWrite ++ lockForWrite name).take 3, l.HoldsAtLeast t q.1 q.2) :
    l.HoldsAtLeast t schemaResource .exclusive ∧ l.HoldsAtLeast t writerResource .exclusive ∧
      l.HoldsAtLeast t name .exclusive := by
  simpa [lockSchemaWrite, lockForWrite, acquireWriter] using h

/-- ANALYZE is a writer of its own table, whatever else it reads. -/
theorem analyze_held {names : List (String × String)}
    (h : ∀ q ∈ (analyze names).requests.take (3 + names.length), l.HoldsAtLeast t q.1 q.2) :
    l.HoldsAtLeast t schemaResource .shared ∧ l.HoldsAtLeast t writerResource .exclusive ∧
      l.HoldsAtLeast t stat1TableName .exclusive := by
  apply mutate_held
  intro q hq
  apply h
  rw [requests, show 3 = (lockSchemaRead ++ lockForWrite stat1TableName).length from rfl, List.take_length_add_append]
  exact List.mem_append_left _ (List.mem_of_mem_take hq)

theorem writable (h : ∀ q ∈ statement.requests.take granted, l.HoldsAtLeast t q.1 q.2)
    (hmay : statement.mayWrite granted i = true) : Writable l t i := by
  cases statement with
  | mutate table =>
      cases i with
      | catalog => cases hmay
      | table name =>
          simp only [mayWrite, Bool.and_eq_true, decide_eq_true_eq] at hmay
          obtain ⟨rfl, rfl⟩ := hmay
          obtain ⟨hschema, hwriter, hname⟩ := mutate_held h
          exact ⟨hschema, hwriter, .inl hname⟩
  | createTable created =>
      cases i with
      | catalog =>
          simp only [mayWrite, decide_eq_true_eq] at hmay
          subst hmay
          exact (create_held h).1
      | table name =>
          simp only [mayWrite, Bool.and_eq_true, decide_eq_true_eq] at hmay
          obtain ⟨rfl, rfl⟩ := hmay
          obtain ⟨hschema, hwriter, hname⟩ := create_held h
          exact ⟨hschema.weaken _, hwriter, .inl hname⟩
  | createIndex written table =>
      cases i with
      | catalog =>
          simp only [mayWrite, decide_eq_true_eq] at hmay
          subst hmay
          exact (create_held h).1
      | table name =>
          simp only [mayWrite, Bool.and_eq_true, decide_eq_true_eq] at hmay
          obtain ⟨rfl, rfl⟩ := hmay
          obtain ⟨hschema, hwriter, -⟩ := create_held h
          exact ⟨hschema.weaken _, hwriter, .inr hschema⟩
  | analyze names =>
      cases i with
      | catalog => cases hmay
      | table name =>
          simp only [mayWrite, Bool.and_eq_true, decide_eq_true_eq] at hmay
          obtain ⟨rfl, rfl⟩ := hmay
          obtain ⟨hschema, hwriter, hstat⟩ := analyze_held h
          exact ⟨hschema, hwriter, .inl hstat⟩
  | _ => cases i <;> cases hmay

theorem readable (h : ∀ q ∈ statement.requests.take granted, l.HoldsAtLeast t q.1 q.2)
    (hmay : statement.mayRead granted i = true) : Sessions.Readable l t i := by
  cases i with
  | catalog => exact schema_held (of_decide_eq_true hmay) h
  | table name =>
      cases statement with
      | select tables =>
          simp only [mayRead, decide_eq_true_eq] at hmay
          have hgranted : 0 < granted := by
            by_contra hzero
            simp [Nat.eq_zero_of_not_pos hzero] at hmay
          obtain ⟨n, rfl⟩ := Nat.exists_eq_succ_of_ne_zero hgranted.ne'
          refine ⟨schema_held hgranted h, .inl (h (name, .shared) ?_)⟩
          have hlocks : tables.flatMap lockForRead = tables.map fun table => (table, .shared) := by
            rw [List.map_eq_flatMap]
            rfl
          rw [requests, hlocks, lockSchemaRead, List.singleton_append, List.take_succ_cons, ← List.map_take]
          apply List.mem_cons_of_mem
          exact List.mem_map.mpr ⟨name, hmay, rfl⟩
      | analyze names =>
          simp only [mayRead, Bool.and_eq_true, decide_eq_true_eq] at hmay
          obtain ⟨rfl, -⟩ := hmay
          obtain ⟨hschema, hwriter, -⟩ := analyze_held h
          exact ⟨hschema, .inr (.inl hwriter)⟩
      | immediate => cases hmay
      | _ => exact (writable h (i := .table name) hmay).readable

end Locking

/-! ## Runs -/

namespace Sessions

open LockSystem

variable {Content : Type} {s s' : Sessions Content} {t u : Nat} {i : Item}

/-- The call of `acquire` that a transaction is at. -/
def Asks (s : Sessions Content) (t : Nat) (q : Transaction.LockCall) : Prop :=
  ∃ u, s.underway t = some u ∧ u.statement.requests[u.granted]? = some q

/-- The calls of `acquire` that have returned. -/
def Granted (s : Sessions Content) (t : Nat) (q : Transaction.LockCall) : Prop :=
  ∃ u, s.underway t = some u ∧ q ∈ u.statement.requests.take u.granted

/-- Transactions have the locks that their calls were for, as long as they are active, and
have touched nothing that these do not make safe. -/
structure Disciplined (s : Sessions Content) : Prop where
  coherent : s.locks.Coherent
  busy : ∀ t, s.world.phase t ≠ .ended → ¬ s.locks.Releasing t
  unused : ∀ t, s.world.phase t = .new → s.underway t = none
  held : ∀ t q, s.world.phase t = .active → s.Granted t q → s.locks.HoldsAtLeast t q.1 q.2
  waiting : ∀ t q, (s.locks.threads t).request = some q → s.world.phase t = .active ∧ s.Asks t q
  leaving : ∀ t outcome, s.locks.threads t = .leaving outcome → s.world.phase t = .active ∧
    (outcome = .ok () → ∃ q, s.Asks t q ∧ s.locks.HoldsAtLeast t q.1 q.2)
  touched : ∀ t i, s.world.phase t = .active → Touched (s.world.log t) i → Readable s.locks t i
  written : ∀ t i, s.world.phase t = .active → Written (s.world.log t) i → Writable s.locks t i

theorem disciplined_opened (contents : Item → Content) : (opened contents).Disciplined where
  coherent := coherent_init
  busy _ _ := nofun
  unused _ _ := rfl
  held := nofun
  waiting := nofun
  leaving := nofun
  touched := nofun
  written := nofun

theorem Disciplined.separate (h : s.Disciplined) : s.world.Separate := by
  intro t u hne ht hu i hwritten htouched
  exact hne ((h.written t i ht hwritten).alone h.coherent (h.touched u i hu htouched))

/-- The locks that keep a transaction safe it keeps through every step of the lock manager. -/
theorem Disciplined.held_step (h : s.Disciplined) {a : LockSystem.Action} {l : LockSystem}
    (hstep : s.locks.step a = some l) (hlive : s.world.phase t ≠ .ended) {r : String} {m : LockMode}
    (hheld : s.locks.HoldsAtLeast t r m) : l.HoldsAtLeast t r m :=
  hheld.step h.coherent (h.busy t hlive) hstep

theorem Readable.mono {l l' : LockSystem} (hkeeps : ∀ r m, l.HoldsAtLeast t r m → l'.HoldsAtLeast t r m)
    (h : Readable l t i) : Readable l' t i := by
  cases i with
  | catalog => exact hkeeps _ _ h
  | table name => exact ⟨hkeeps _ _ h.1, h.2.imp (hkeeps _ _) (Or.imp (hkeeps _ _) (hkeeps _ _))⟩

theorem Writable.mono {l l' : LockSystem} (hkeeps : ∀ r m, l.HoldsAtLeast t r m → l'.HoldsAtLeast t r m)
    (h : Writable l t i) : Writable l' t i := by
  cases i with
  | catalog => exact hkeeps _ _ h
  | table name => exact ⟨hkeeps _ _ h.1, hkeeps _ _ h.2.1, h.2.2.imp (hkeeps _ _) (hkeeps _ _)⟩

/-! ### Steps of the lock manager -/

/-- A step of the lock manager, whose thread goes on waiting only for what its transaction
asks for. -/
theorem Disciplined.locks_step (h : s.Disciplined) {a : LockSystem.Action} {l : LockSystem}
    (hstep : s.locks.step a = some l) (hrelease : ∀ t, a = .releaseAll t → s.world.phase t = .ended)
    (hwaiting : ∀ q, (l.threads a.actor).request = some q → s.world.phase a.actor = .active ∧ s.Asks a.actor q) :
    ({ s with locks := l } : Sessions Content).Disciplined := by
  have he := step_effect hstep
  have hkeeps : ∀ t, s.world.phase t = .active → ∀ r m, s.locks.HoldsAtLeast t r m → l.HoldsAtLeast t r m := by
    intro t ht r m hheld
    exact h.held_step hstep (by rw [ht]; decide) hheld
  constructor
  · exact h.coherent.step he
  · intro t ht hreleasing
    rcases hreleasing.before hstep with heq | hbefore
    · exact ht (hrelease t heq)
    · exact h.busy t ht hbefore
  · exact h.unused
  · intro t q ht hgranted
    exact hkeeps t ht _ _ (h.held t q ht hgranted)
  · intro t q hq
    by_cases heq : t = a.actor
    · subst heq
      exact hwaiting q hq
    · exact h.waiting t q (he.request_other heq ▸ hq)
  · intro t outcome hleaving
    by_cases heq : t = a.actor
    · subst heq
      obtain ⟨r, m, hchecking, hheld⟩ := leaving_of_step hstep hleaving
      obtain ⟨hactive, hasks⟩ := h.waiting a.actor (r, m) (congrArg ThreadState.request hchecking)
      exact ⟨hactive, fun hok => ⟨(r, m), hasks, hheld hok⟩⟩
    · have hbefore : s.locks.threads t = .leaving outcome := by
        rcases he.others t heq with hsame | ⟨r, m, -, hwoken⟩
        · exact hsame ▸ hleaving
        · rw [hwoken] at hleaving
          cases hleaving
      obtain ⟨hactive, hasks⟩ := h.leaving t outcome hbefore
      refine ⟨hactive, fun hok => ?_⟩
      obtain ⟨q, hq, hheld⟩ := hasks hok
      exact ⟨q, hq, hkeeps t hactive _ _ hheld⟩
  · intro t i ht htouched
    exact (h.touched t i ht htouched).mono (hkeeps t ht)
  · intro t i ht hwritten
    exact (h.written t i ht hwritten).mono (hkeeps t ht)

/-- A transaction goes on with its statement, or with another. -/
theorem Disciplined.setUnderway (h : s.Disciplined) (hactive : s.world.phase t = .active)
    (houtside : s.locks.threads t = .outside) {next : Option Underway}
    (hheld : ∀ u, next = some u → ∀ q ∈ u.statement.requests.take u.granted, s.locks.HoldsAtLeast t q.1 q.2) :
    (s.setUnderway t next).Disciplined := by
  have hself : (s.setUnderway t next).underway t = next := Function.update_self ..
  have hother : ∀ u, u ≠ t → (s.setUnderway t next).underway u = s.underway u := fun u hu =>
    Function.update_of_ne hu _ _
  have hasks : ∀ u q, u ≠ t → s.Asks u q → (s.setUnderway t next).Asks u q := by
    intro u q hu hasked
    rwa [Asks, hother u hu]
  constructor
  · exact h.coherent
  · exact h.busy
  · intro u hu
    have hne : u ≠ t := by
      rintro rfl
      cases hu.symm.trans hactive
    exact (hother u hne).trans (h.unused u hu)
  · intro u q hu hgranted
    obtain ⟨v, hv, hq⟩ := hgranted
    by_cases heq : u = t
    · subst heq
      exact hheld v (hself ▸ hv) q hq
    · exact h.held u q hu ⟨v, hother u heq ▸ hv, hq⟩
  · intro u q hq
    have hne : u ≠ t := by
      rintro rfl
      rw [Sessions.setUnderway, houtside] at hq
      cases hq
    obtain ⟨hu, hasked⟩ := h.waiting u q hq
    exact ⟨hu, hasks u q hne hasked⟩
  · intro u outcome hleaving
    have hne : u ≠ t := by
      rintro rfl
      rw [Sessions.setUnderway, houtside] at hleaving
      cases hleaving
    obtain ⟨hu, hasked⟩ := h.leaving u outcome hleaving
    refine ⟨hu, fun hok => ?_⟩
    obtain ⟨q, hq, hholds⟩ := hasked hok
    exact ⟨q, hasks u q hne hq, hholds⟩
  · exact h.touched
  · exact h.written

/-- One more call has returned. -/
theorem Disciplined.advance (h : s.Disciplined) (hactive : s.world.phase t = .active)
    (houtside : s.locks.threads t = .outside) {q : Transaction.LockCall} (hasks : s.Asks t q)
    (hholds : s.locks.HoldsAtLeast t q.1 q.2) : (s.advance t).Disciplined := by
  obtain ⟨u, hu, hq⟩ := hasks
  rw [Sessions.advance, hu, Option.map_some]
  apply h.setUnderway hactive houtside
  intro v hv q' hq'
  cases hv
  rw [List.take_add_one, hq, List.mem_append] at hq'
  rcases hq' with hq' | hq'
  · exact h.held t q' hactive ⟨u, hu, hq'⟩
  · rw [Option.toList_some, List.mem_singleton] at hq'
    exact hq' ▸ hholds

theorem Disciplined.request (h : s.Disciplined) (hrunning : s.Running t) (hstep : s.request t = some s') :
    s'.Disciplined := by
  obtain ⟨hactive, houtside⟩ := hrunning
  obtain ⟨u, hu, hstep⟩ := Option.bind_eq_some_iff.mp hstep
  obtain ⟨q, hq, hstep⟩ := Option.bind_eq_some_iff.mp hstep
  obtain ⟨l, hl, hstep⟩ := Option.bind_eq_some_iff.mp hstep
  have hacquire : s.locks.acquire t q.1 q.2 = l := by
    simpa [LockSystem.step, houtside] using hl
  have hlocks : ({ s with locks := l } : Sessions Content).Disciplined := by
    apply h.locks_step hl
    · intro t' heq
      cases heq
    · intro q' hq'
      refine ⟨hactive, u, hu, ?_⟩
      -- a call that waits waits for what it asks
      subst hacquire
      rcases acquire_threads houtside q.1 q.2 with hreturned | hchecking
      · rw [LockSystem.Action.actor, hreturned] at hq'
        cases hq'
      · rw [LockSystem.Action.actor, hchecking] at hq'
        cases hq'
        exact hq
  split at hstep
  · rename_i hreturned
    cases hstep
    apply hlocks.advance hactive hreturned ⟨u, hu, hq⟩
    subst hacquire
    exact acquire_holds hreturned
  · cases hstep
    exact hlocks

/-- What the steps of the lock manager that are no call of `acquire` leave waiting was
waiting before. -/
theorem Disciplined.waiting_of_step (h : s.Disciplined) {a : LockSystem.Action} {l : LockSystem}
    (hstep : s.locks.step a = some l) (hacquire : ∀ t r m, a ≠ .acquire t r m) (q : Transaction.LockCall)
    (hq : (l.threads a.actor).request = some q) : s.world.phase a.actor = .active ∧ s.Asks a.actor q := by
  cases (step_effect hstep).queueing with
  | stay request waiters => exact h.waiting a.actor q (request ▸ hq)
  | enter r m outside inside wanting waiters =>
      cases a with
      | acquire t r m => exact absurd rfl (hacquire t r m)
      | releaseAll t =>
          simp only [LockSystem.step, LockSystem.Action.actor] at hstep outside inside
          rw [outside] at hstep
          cases hstep
          rw [threads_setThread_self] at inside
          cases inside
      | _ t =>
          simp only [LockSystem.step, LockSystem.Action.actor] at hstep outside
          simp [outside] at hstep
  | leave r m outcome inside outside ends waiters =>
      rw [outside] at hq
      cases hq

theorem Disciplined.lock (h : s.Disciplined) {a : LockSystem.Action} (hstep : s.lock a = some s') : s'.Disciplined := by
  obtain ⟨l, hl, hstep⟩ := Option.bind_eq_some_iff.mp hstep
  cases a with
  | acquire t r m => cases hstep
  | releaseAll t =>
      dsimp only at hstep
      split at hstep
      · rename_i hended
        cases hstep
        apply h.locks_step hl
        · intro t' heq
          cases heq
          exact hended
        · exact h.waiting_of_step hl (fun _ _ _ => by simp)
      · cases hstep
  | settle t =>
      have hlocks : ({ s with locks := l } : Sessions Content).Disciplined :=
        h.locks_step hl (fun _ heq => by cases heq) (h.waiting_of_step hl fun _ _ _ => by simp)
      dsimp only at hstep
      cases hthread : s.locks.threads t with
      | leaving outcome =>
          obtain ⟨hactive, hasks⟩ := h.leaving t outcome hthread
          have houtside : l.threads t = .outside := by
            simp only [LockSystem.step, hthread, Option.some.injEq] at hl
            rw [← hl]
            exact threads_setThread_self ..
          rw [hthread] at hstep
          cases outcome with
          | ok _ =>
              cases hstep
              obtain ⟨q, hq, hholds⟩ := hasks rfl
              apply hlocks.advance hactive houtside hq
              exact h.held_step hl (by rw [hactive]; decide) hholds
          | error e =>
              cases hstep
              apply hlocks.setUnderway hactive houtside
              intro u hu
              cases hu
      | _ => simp [LockSystem.step, hthread] at hl
  | _ t =>
      cases hstep
      exact h.locks_step hl (fun _ heq => by cases heq) (h.waiting_of_step hl fun _ _ _ => by simp)

/-! ### Steps of a transaction -/

theorem Disciplined.start (h : s.Disciplined) (hnew : s.world.phase t = .new) (hempty : s.world.log t = []) :
    ({ s with world := s.world.start t } : Sessions Content).Disciplined := by
  have hphase : ∀ u, u ≠ t → (s.world.start t).phase u = s.world.phase u := fun u hu => Function.update_of_ne hu _ _
  have hself : (s.world.start t).phase t = .active := Function.update_self ..
  have hactive : ∀ u, s.world.phase u = .active → (s.world.start t).phase u = .active := by
    intro u hu
    by_cases heq : u = t
    · exact heq ▸ hself
    · exact (hphase u heq).trans hu
  constructor
  · exact h.coherent
  · intro u hu
    by_cases heq : u = t
    · apply h.busy
      rw [heq, hnew]
      decide
    · exact h.busy u (hphase u heq ▸ hu)
  · intro u hu
    by_cases heq : u = t
    · subst heq
      cases hu.symm.trans hself
    · exact h.unused u (hphase u heq ▸ hu)
  · intro u q hu hgranted
    by_cases heq : u = t
    · subst heq
      obtain ⟨v, hv, -⟩ := hgranted
      cases (h.unused u hnew).symm.trans hv
    · exact h.held u q (hphase u heq ▸ hu) hgranted
  · intro u q hq
    obtain ⟨hu, hasks⟩ := h.waiting u q hq
    exact ⟨hactive u hu, hasks⟩
  · intro u outcome hleaving
    obtain ⟨hu, hasks⟩ := h.leaving u outcome hleaving
    exact ⟨hactive u hu, hasks⟩
  · intro u i hu htouched
    by_cases heq : u = t
    · subst heq
      change Touched (s.world.log u) i at htouched
      rw [hempty] at htouched
      simp [Touched] at htouched
    · exact h.touched u i (hphase u heq ▸ hu) htouched
  · intro u i hu hwritten
    by_cases heq : u = t
    · subst heq
      change Written (s.world.log u) i at hwritten
      rw [hempty] at hwritten
      simp [Written] at hwritten
    · exact h.written u i (hphase u heq ▸ hu) hwritten

/-- What a statement lets a transaction do, its locks make safe. -/
theorem Disciplined.allowed (h : s.Disciplined) (hactive : s.world.phase t = .active) {may : Locking → Nat → Bool}
    (hallows : s.allows t may = true) : ∃ statement granted, may statement granted = true ∧
      ∀ q ∈ statement.requests.take granted, s.locks.HoldsAtLeast t q.1 q.2 := by
  rw [allows] at hallows
  split at hallows
  · rename_i u hu
    exact ⟨u.statement, u.granted, hallows, fun q hq => h.held t q hactive ⟨u, hu, hq⟩⟩
  · cases hallows

/-- An access to what the locks make safe. -/
theorem Disciplined.access (h : s.Disciplined) {w : World Nat Item Content} {a : Access Item Content}
    (hphase : w.phase = s.world.phase) (hself : w.log t = s.world.log t ++ [a])
    (hother : ∀ u, u ≠ t → w.log u = s.world.log u) (hreadable : Readable s.locks t a.object)
    (hwritable : ∀ v, a = .write a.object v → Writable s.locks t a.object) :
    ({ s with world := w } : Sessions Content).Disciplined := by
  constructor
  · exact h.coherent
  · exact fun u hu => h.busy u (hphase ▸ hu)
  · exact fun u hu => h.unused u (hphase ▸ hu)
  · exact fun u q hu hgranted => h.held u q (hphase ▸ hu) hgranted
  · intro u q hq
    obtain ⟨hu, hasks⟩ := h.waiting u q hq
    exact ⟨(congrFun hphase u).trans hu, hasks⟩
  · intro u outcome hleaving
    obtain ⟨hu, hasks⟩ := h.leaving u outcome hleaving
    exact ⟨(congrFun hphase u).trans hu, hasks⟩
  · intro u i hu htouched
    have hu : s.world.phase u = .active := hphase ▸ hu
    by_cases heq : u = t
    · subst heq
      change Touched (w.log u) i at htouched
      rw [hself, touched_concat] at htouched
      rcases htouched with htouched | rfl
      · exact h.touched u i hu htouched
      · exact hreadable
    · exact h.touched u i hu (hother u heq ▸ htouched)
  · intro u i hu hwritten
    have hu : s.world.phase u = .active := hphase ▸ hu
    by_cases heq : u = t
    · subst heq
      obtain ⟨v, hv⟩ := hwritten
      change .write i v ∈ w.log u at hv
      rw [hself, List.mem_append, List.mem_singleton] at hv
      rcases hv with hv | rfl
      · exact h.written u i hu ⟨v, hv⟩
      · exact hwritable v rfl
    · exact h.written u i hu (hother u heq ▸ hwritten)

/-- A transaction that is over asks for nothing, and keeps nothing safe. -/
theorem Disciplined.finish (h : s.Disciplined) (houtside : s.locks.threads t = .outside) {w : World Nat Item Content}
    (hself : w.phase t = .ended) (hother : ∀ u, u ≠ t → w.phase u = s.world.phase u) (hlog : w.log = s.world.log) :
    ({ s with world := w } : Sessions Content).Disciplined := by
  have hne : ∀ u p, p ≠ .ended → w.phase u = p → u ≠ t := by
    rintro u p hp hu rfl
    exact hp (hu.symm.trans hself)
  constructor
  · exact h.coherent
  · intro u hu
    have hne : u ≠ t := by
      rintro rfl
      exact hu hself
    exact h.busy u (hother u hne ▸ hu)
  · intro u hu
    exact h.unused u (hother u (hne u .new (by decide) hu) ▸ hu)
  · intro u q hu hgranted
    exact h.held u q (hother u (hne u .active (by decide) hu) ▸ hu) hgranted
  · intro u q hq
    have hne : u ≠ t := by
      rintro rfl
      rw [houtside] at hq
      cases hq
    obtain ⟨hu, hasks⟩ := h.waiting u q hq
    exact ⟨(hother u hne).trans hu, hasks⟩
  · intro u outcome hleaving
    have hne : u ≠ t := by
      rintro rfl
      cases houtside.symm.trans hleaving
    obtain ⟨hu, hasks⟩ := h.leaving u outcome hleaving
    exact ⟨(hother u hne).trans hu, hasks⟩
  · intro u i hu htouched
    exact h.touched u i (hother u (hne u .active (by decide) hu) ▸ hu) (hlog ▸ htouched)
  · intro u i hu hwritten
    exact h.written u i (hother u (hne u .active (by decide) hu) ▸ hu) (hlog ▸ hwritten)

/-! ### All of them -/

/-- The transactions are isolated: their locks keep them apart, and the committed ones have
run one after another. -/
structure Isolated (contents : Item → Content) (s : Sessions Content) : Prop where
  disciplined : s.Disciplined
  serializes : ∃ committed, s.world.Serializes contents committed

variable {contents : Item → Content}

/-- A call of `acquire` touches nothing but locks. -/
theorem world_of_request (h : s.request t = some s') : s'.world = s.world := by
  obtain ⟨u, -, h⟩ := Option.bind_eq_some_iff.mp h
  obtain ⟨q, -, h⟩ := Option.bind_eq_some_iff.mp h
  obtain ⟨l, -, h⟩ := Option.bind_eq_some_iff.mp h
  split at h
  · cases h
    rfl
  · cases h
    rfl

theorem world_of_lock {a : LockSystem.Action} (h : s.lock a = some s') : s'.world = s.world := by
  obtain ⟨l, -, h⟩ := Option.bind_eq_some_iff.mp h
  cases a with
  | acquire t r m => cases h
  | releaseAll t =>
      dsimp only at h
      split at h
      · cases h
        rfl
      · cases h
  | settle t =>
      dsimp only at h
      split at h
      · cases h
        rfl
      · cases h
        rfl
  | _ t =>
      cases h
      rfl

theorem Isolated.step (h : s.Isolated contents) {a : Action Content} (hstep : s.step a = some s') :
    s'.Isolated contents := by
  obtain ⟨hdisciplined, committed, hserial⟩ := h
  cases a with
  | start t =>
      rw [Sessions.step] at hstep
      split at hstep
      · rename_i hnew
        cases hstep
        exact ⟨hdisciplined.start hnew (hserial.fresh t hnew).1, committed, hserial.start hnew⟩
      · cases hstep
  | execute t statement =>
      rw [Sessions.step] at hstep
      split at hstep
      · rename_i hrunning
        cases hstep
        refine ⟨hdisciplined.setUnderway hrunning.1 hrunning.2 ?_, committed, hserial⟩
        intro u hu
        cases hu
        simp
      · cases hstep
  | request t =>
      rw [Sessions.step] at hstep
      split at hstep
      · rename_i hrunning
        refine ⟨hdisciplined.request hrunning hstep, committed, ?_⟩
        rwa [world_of_request hstep]
      · cases hstep
  | lock a =>
      refine ⟨hdisciplined.lock hstep, committed, ?_⟩
      rwa [world_of_lock hstep]
  | read t i =>
      rw [Sessions.step] at hstep
      split at hstep
      · rename_i hallowed
        obtain ⟨⟨hactive, -⟩, hallows⟩ := hallowed
        cases hstep
        obtain ⟨statement, granted, hmay, hheld⟩ := hdisciplined.allowed hactive hallows
        have hreadable : Readable s.locks t i := Locking.readable hheld hmay
        have hself : (s.world.read t i).log t = s.world.log t ++ [.read i (s.world.contents i)] :=
          Function.update_self ..
        have hother : ∀ u, u ≠ t → (s.world.read t i).log u = s.world.log u := fun u hu => Function.update_of_ne hu _ _
        refine ⟨?_, committed, hserial.read hactive ?_⟩
        · refine hdisciplined.access rfl hself hother hreadable ?_
          intro v hv
          cases hv
        · intro u hu hactiveu hwritten
          exact hu ((hdisciplined.written u i hactiveu hwritten).alone hdisciplined.coherent hreadable)
      · cases hstep
  | write t i v =>
      rw [Sessions.step] at hstep
      split at hstep
      · rename_i hallowed
        obtain ⟨⟨hactive, -⟩, hallows⟩ := hallowed
        cases hstep
        obtain ⟨statement, granted, hmay, hheld⟩ := hdisciplined.allowed hactive hallows
        have hwritable : Writable s.locks t i := Locking.writable hheld hmay
        have hself : (s.world.write t i v).log t = s.world.log t ++ [.write i v] := Function.update_self ..
        have hother : ∀ u, u ≠ t → (s.world.write t i v).log u = s.world.log u := fun u hu =>
          Function.update_of_ne hu _ _
        refine ⟨?_, committed, hserial.write hactive v ?_⟩
        · exact hdisciplined.access rfl hself hother hwritable.readable fun _ _ => hwritable
        · intro u hu hactiveu htouched
          exact hu (hwritable.alone hdisciplined.coherent (hdisciplined.touched u i hactiveu htouched)).symm
      · cases hstep
  | commit t =>
      rw [Sessions.step] at hstep
      split at hstep
      · rename_i hrunning
        cases hstep
        refine ⟨?_, hserial.commit hrunning.1 hdisciplined.separate⟩
        exact hdisciplined.finish hrunning.2 (Function.update_self ..) (fun u hu => Function.update_of_ne hu _ _) rfl
      · cases hstep
  | rollback t =>
      rw [Sessions.step] at hstep
      split at hstep
      · rename_i hrunning
        cases hstep
        refine ⟨?_, committed, hserial.rollback hrunning.1 hdisciplined.separate⟩
        exact hdisciplined.finish hrunning.2 (Function.update_self ..) (fun u hu => Function.update_of_ne hu _ _) rfl
      · cases hstep

/-- Whatever the interleaving, the committed transactions have read and written what they
would have one after another, in the order of their commits.  An active transaction has so
far done what it would after them, and what its statement lets it read is what it would find
there; and with nobody active the database is what that serial run leaves. -/
theorem serializable {actions : List (Action Content)}
    (hrun : Runs (fun a s s' => Sessions.step s a = some s') (opened contents) actions s) :
    ∃ committed, Replays contents (s.world.history.flatMap s.world.log) committed ∧
      (∀ t, s.world.phase t = .active → ∃ view, Replays committed (s.world.log t) view ∧
        ∀ i, s.allows t (fun statement granted => statement.mayRead granted i) = true →
          view i = s.world.contents i) ∧
      ((∀ t, s.world.phase t ≠ .active) → s.world.contents = committed) := by
  have hopened : (opened contents).Isolated contents :=
    ⟨disciplined_opened contents, contents, World.serializes_init contents⟩
  obtain ⟨hdisciplined, committed, hserial⟩ := hrun.keeps hopened fun _ _ _ h hstep => h.step hstep
  refine ⟨committed, hserial.serial, ?_, hserial.quiet⟩
  intro t ht
  obtain ⟨view, hreplays, hview⟩ := hserial.views t ht
  refine ⟨view, hreplays, ?_⟩
  intro i hallows
  obtain ⟨statement, granted, hmay, hheld⟩ := hdisciplined.allowed ht hallows
  have hreadable : Readable s.locks t i := Locking.readable hheld hmay
  apply hserial.found hreplays hview
  intro u hu hactive hwritten
  exact hu ((hdisciplined.written u i hactive hwritten).alone hdisciplined.coherent hreadable)

/-! ### A reader that waits for a writer -/

theorem runs_of_foldlM {actions : List (Action Content)} (h : actions.foldlM Sessions.step s = some s') :
    Runs (fun a s s' => Sessions.step s a = some s') s actions s' := by
  induction actions generalizing s with
  | nil =>
      cases h
      exact .nil _
  | cons a actions ih =>
      rw [List.foldlM_cons] at h
      obtain ⟨s₁, hstep, hrest⟩ := Option.bind_eq_some_iff.mp h
      exact .cons hstep (ih hrest)

/-- An UPDATE writes 7; a SELECT asks for the table before it commits, and reads it after. -/
def readerWaits : List (Action Nat) :=
  [.start 0, .execute 0 (.mutate "t"), .request 0, .request 0, .request 0, .write 0 (.table "t") 7, .start 1,
    .execute 1 (.select ["t"]), .request 1, .request 1, .commit 0, .lock (.releaseAll 0), .lock (.release 0),
    .lock (.release 0), .lock (.release 0), .lock (.release 0), .lock (.check 1 false), .lock (.settle 1),
    .read 1 (.table "t"), .commit 1]

theorem serializable_reader_waits : ∃ s,
    Runs (fun a s s' => Sessions.step s a = some s') (opened fun _ => 0) readerWaits s ∧
    s.world.history = [0, 1] ∧ s.world.log 1 = [.read (.table "t") 7] ∧
    ∃ committed, Replays (fun _ => 0) (s.world.history.flatMap s.world.log) committed := by
  have hfound : (readerWaits.foldlM Sessions.step (opened fun _ => 0)).map
      (fun s => (s.world.history, s.world.log 1)) = some ([0, 1], [.read (.table "t") 7]) := by
    decide +kernel
  obtain ⟨s, hs, hend⟩ := Option.map_eq_some_iff.mp hfound
  obtain ⟨hhistory, hlog⟩ := Prod.mk.inj hend
  have hrun := runs_of_foldlM hs
  obtain ⟨committed, hserial, -⟩ := serializable hrun
  exact ⟨s, hrun, hhistory, hlog, committed, hserial⟩

end Sessions

end QuillDb
