/-
  Txn/DeadlockSound.lean --- when a `DeadlockError` names a real cycle.

  Source: `quilldb/txn/locks.py`.

  A waiter clears its own record after it has woken, so a walk can follow the
  record of a transaction that is about to be granted.  Where no record that a
  walk relies on is stale in this sense, every error names a cycle of
  transactions that are blocked on one another.
-/
import QuillDb.Txn.LockSafety

set_option autoImplicit false

namespace QuillDb

namespace LockSystem

open CycleSearch

variable {s s' : LockSystem} {t u v : Nat} {r : String} {m : LockMode} {a : Action}

/-! ## The condition -/

/-- `u` is queued on `r`, and the request at the front of that queue cannot be
granted now. -/
def stillWaiting (s : LockSystem) (u : Nat) (r : String) : Bool :=
  (s.entry r).waiters.any (fun w => w.1 = u) &&
    match (s.entry r).waiters with
    | [] => false
    | (f, k) :: _ => !(s.entry r).grantable f k

/-- Nothing that the round relies on is stale: the record that condemned the
transaction still stands, or else the records on the cycles that its walk can
reach do. -/
def NothingStale (s : LockSystem) : Action → Prop
  | .check t _ => ∀ r m, s.threads t = .checking r m → (s.entry r).grantable t m = false →
      match s.doomed.lookup t with
      | some cycle => ∀ e ∈ cycle, s.stillWaiting e.1 e.2.1 = true ∧ (s.entry e.2.1).Holds e.2.2
      | none =>
          let walked := { s with waitingFor := s.waitingFor.put t r }
          ∀ c, IsCycle (Edge walked.holdersBlocking) c →
            (∀ x ∈ c, Relation.ReflTransGen (Edge walked.holdersBlocking) t x) →
            ∀ u ∈ c, ∀ r', walked.waitingFor.lookup u = some r' → s.stillWaiting u r' = true
  | _ => True

/-- The transactions that `cycle` names are blocked, and they and `t` lie on a
cycle of the waits-for relation. -/
structure RealCycle (s : LockSystem) (t : Nat) (cycle : List (Nat × String × Nat)) : Prop where
  blocked : ∀ e ∈ cycle, ∃ m, (e.1, m) ∈ (s.entry e.2.1).waiters ∧
    (s.entry e.2.1).grantable e.1 m = false
  closed : ∃ c, IsCycle s.WaitsFor c ∧ t ∈ c ∧ ∀ e ∈ cycle, e.1 ∈ c

/-! ## Edges that stand -/

/-- An edge of a walk. -/
structure Stands (s : LockSystem) (e : Nat × String × Nat) : Prop where
  waiting : s.stillWaiting e.1 e.2.1 = true
  holds : (s.entry e.2.1).Holds e.2.2
  other : e.2.2 ≠ e.1

/-- Whoever waits in a queue whose front is not granted waits, perhaps by way of
the front, for every holder. -/
theorem Stands.waitsFor {e : Nat × String × Nat} (hc : Coherent s) (h : Stands s e) :
    (∃ m, (e.1, m) ∈ (s.entry e.2.1).waiters ∧ (s.entry e.2.1).grantable e.1 m = false) ∧
      Relation.TransGen s.WaitsFor e.1 e.2.2 := by
  obtain ⟨u, r, v⟩ := e
  obtain ⟨hwaiting, ⟨held, hheld⟩, hother⟩ := h
  simp only at hheld hother ⊢
  obtain ⟨hqueued, hfront⟩ := Bool.and_eq_true_iff.mp hwaiting
  obtain ⟨⟨x, m⟩, hm, hx⟩ := List.any_eq_true.mp hqueued
  rw [decide_eq_true_eq] at hx
  obtain rfl : x = u := hx
  rcases hl : (s.entry r).waiters with _ | ⟨⟨f, k⟩, rest⟩
  · simp only [hl] at hm
    cases hm
  · simp only [hl, Bool.not_eq_true'] at hfront
    have hfq : (f, k) ∈ (s.entry r).waiters := hl ▸ List.mem_cons_self ..
    obtain ⟨y, hyf, heldy, hy, hincompatible⟩ := head_blocked hl hfront
    -- any other holder blocks the front
    have hfv : v ≠ f → s.WaitsFor f v := by
      intro hvf
      refine .holder r k hfq hvf ⟨held, hheld, ?_⟩
      cases k with
      | exclusive => rfl
      | shared =>
          cases heldy with
          | shared => cases hincompatible
          | exclusive =>
              obtain rfl := (hc.orderly r).alone y v held hy hheld
              have := (Dict.lookup_of_mem (hc.orderly r).nodup hheld).symm.trans
                (Dict.lookup_of_mem (hc.orderly r).nodup hy)
              rw [Option.some.inj this]
              rfl
    rcases waitsFor_head hl hm with ⟨rfl, rfl⟩ | hahead
    · exact ⟨⟨m, hl ▸ hm, hfront⟩, .single (hfv hother)⟩
    · refine ⟨⟨m, hl ▸ hm, hahead.blocked hc hm⟩, ?_⟩
      by_cases hvf : v = f
      · rw [hvf]
        exact .single hahead
      · exact .tail (.single hahead) (hfv hvf)

/-- A closed walk of edges that stand is a real cycle. -/
theorem RealCycle.of_stands {cycle : List (Nat × String × Nat)} (hc : Coherent s)
    (hclosed : IsCycle Follows cycle) (ht : t ∈ cycle.map Prod.fst)
    (hstands : ∀ e ∈ cycle, Stands s e) : RealCycle s t cycle := by
  have hwalk : IsCycle (Relation.TransGen s.WaitsFor) (cycle.map Prod.fst) := by
    refine hclosed.map fun e he e' he' hfollows => ?_
    have hpath := ((hstands e he).waitsFor hc).2
    rwa [show e.2.2 = e'.1 from hfollows] at hpath
  obtain ⟨c, hcycle, hsub⟩ := hwalk.exists_of_transGen
  exact ⟨fun e he => ((hstands e he).waitsFor hc).1,
    c, hcycle, hsub ht, fun e he => hsub (List.mem_map_of_mem he)⟩

/-! ## Records -/

/-- The record of a condemned transaction is a closed walk through it. -/
def Recorded (s : LockSystem) : Prop :=
  ∀ u c, s.doomed.lookup u = some c →
    IsCycle Follows c ∧ u ∈ c.map Prod.fst ∧ ∀ e ∈ c, e.2.2 ≠ e.1

theorem Recorded.step (h : Recorded s) (hstep : s.step a = some s') : Recorded s' := by
  intro u c hdoomed
  rcases doomed_step hstep hdoomed with hold | ⟨-, r, m, -, hfound⟩
  · exact h u c hold
  · have hd := detected hfound
    exact ⟨hd.closed, hd.victim, fun e he => (hd.edges e he).2.2⟩

theorem Run.recorded {ok : LockSystem → Action → Prop} {ended : List (Nat × Outcome)}
    (h : Run ok {} ended s) : Recorded s := by
  induction h with
  | refl =>
      intro u c hdoomed
      cases hdoomed
  | step run meets stepped ih => exact ih.step stepped

/-! ## Raising -/

/-- A round that ends with `DeadlockError` was condemned, or is the victim of its
own walk. -/
theorem check_raises {expired : Bool} {victim : Nat} {cycle : List (Nat × String × Nat)}
    (h : s.threads t = .checking r m)
    (hraised : (s.check t r m expired).threads t = .leaving (.error (.deadlock victim cycle))) :
    victim = t ∧ (s.entry r).grantable t m = false ∧
      (s.doomed.lookup t = some cycle ∨ s.doomed.lookup t = none ∧
        { s with waitingFor := s.waitingFor.put t r }.detectDeadlock t = some (t, cycle)) := by
  have hleft : ∀ {s₀ : LockSystem} {outcome : Outcome},
      (s₀.leave t r m outcome).threads t = .leaving outcome := threads_setThread_self ..
  have hslept : ∀ {s₀ : LockSystem}, (s₀.sleep t r m expired).threads t ≠
      .leaving (.error (.deadlock victim cycle)) := by
    intro s₀ heq
    unfold sleep at heq
    split at heq
    · rw [hleft] at heq
      cases heq
    · rw [threads_setThread_self] at heq
      cases heq
  unfold check at hraised
  split at hraised
  · rw [hleft] at hraised
    cases hraised
  · rename_i hblocked
    have hblocked : (s.entry r).grantable t m = false := Bool.eq_false_iff.mpr hblocked
    split at hraised
    · rename_i c hdoomed
      rw [hleft] at hraised
      cases hraised
      exact ⟨rfl, hblocked, .inl hdoomed⟩
    · rename_i hspared
      simp only at hraised
      split at hraised
      · exact absurd hraised hslept
      · rename_i found c hfound
        split at hraised
        · rename_i hvictim
          rw [hleft] at hraised
          cases hraised
          exact ⟨hvictim, hblocked, .inr ⟨hspared, hvictim ▸ hfound⟩⟩
        · unfold doom at hraised
          split at hraised
          · exact absurd hraised hslept
          · simp only at hraised
            split at hraised
            · exact absurd hraised hslept
            · split at hraised
              · rw [threads_notifyAll] at hraised
                simp only [h, ThreadState.notified] at hraised
                cases hraised
              · rw [threads_setThread_self] at hraised
                cases hraised

/-- Every `DeadlockError` of a run is raised in a transaction on a real cycle. -/
def ErrorsReal (ok : LockSystem → Action → Prop) : Prop :=
  ∀ (ended : List (Nat × Outcome)) (s s' : LockSystem) (a : Action) (t victim : Nat)
    (cycle : List (Nat × String × Nat)), Run ok {} ended s → ok s a → s.step a = some s' →
    s'.threads t ≠ s.threads t →
    s'.threads t = .leaving (.error (.deadlock victim cycle)) → victim = t ∧ RealCycle s t cycle

/-- In runs in which no round relies on a stale record, every `DeadlockError`
names a real cycle. -/
theorem deadlock_errors_real (ok : LockSystem → Action → Prop)
    (hok : ∀ s a, ok s a → s.NothingStale a) : ErrorsReal ok := by
  intro ended s s' a t victim cycle run meets h hnew hraised
  have hc := run.coherent
  have he := step_effect h
  -- the thread that raises takes the step
  obtain rfl : t = a.actor := by
    by_contra ht
    rcases he.others t ht with hsame | ⟨r, m, -, hwoken⟩
    · exact hnew hsame
    · rw [hraised] at hwoken
      cases hwoken
  have hchecking : ∃ r m, s.threads a.actor = .checking r m := by
    cases he.queueing with
    | enter r m outside inside wanting waiters =>
        rw [hraised] at inside
        cases inside
    | leave r m outcome inside outside ends waiters => exact ⟨r, m, inside⟩
    | stay request waiters =>
        -- a thread that was off its queue does not start to leave it
        have hbefore : (s.threads a.actor).request = none := by
          rw [← request, hraised]
          rfl
        rcases unqueued_step h hbefore with houtside | ⟨r, m, hchecking⟩ | ⟨-, rest, hreleasing⟩
        · rw [houtside] at hraised
          cases hraised
        · rw [hchecking] at hraised
          cases hraised
        · rw [hreleasing] at hraised
          cases hraised
  obtain ⟨r, m, hchecking⟩ := hchecking
  obtain ⟨expired, ha⟩ := check_of_slept h hchecking
  generalize a.actor = t at ha hchecking hraised
  subst ha
  simp only [LockSystem.step, hchecking] at h
  obtain rfl := Option.some.inj h
  obtain ⟨rfl, hblocked, hcause⟩ := check_raises hchecking hraised
  refine ⟨rfl, ?_⟩
  have hmeets := hok _ _ meets r m hchecking hblocked
  rcases hcause with hdoomed | ⟨hspared, hfound⟩
  · simp only [hdoomed] at hmeets
    obtain ⟨hclosed, hvictim, hother⟩ := run.recorded victim cycle hdoomed
    exact .of_stands hc hclosed hvictim fun e he =>
      ⟨(hmeets e he).1, (hmeets e he).2, hother e he⟩
  · simp only [hspared] at hmeets
    have hd := detected hfound
    refine .of_stands hc hd.closed hd.victim fun e he => ?_
    obtain ⟨hwaiting, hholds, hother⟩ := hd.edges e he
    exact ⟨hmeets _ hd.nodes hd.reached e.1 (List.mem_map_of_mem he) e.2.1 hwaiting, hholds, hother⟩

theorem crossing_fresh : Run NothingStale {} [] crossing ∧ crossing.NothingStale (.check 2 false) := by
  refine ⟨.step (a := .acquire 2 "a" .exclusive)
    (.step (a := .check 1 false)
      (.step (a := .acquire 1 "b" .exclusive)
        (.step (a := .acquire 2 "b" .exclusive)
          (.step (a := .acquire 1 "a" .exclusive) (.refl _) trivial rfl)
          trivial rfl)
        trivial rfl)
      ?_ rfl)
    trivial rfl, ?_⟩
  · intro r m hchecking hblocked
    cases hchecking
    intro c hc hreach u hu r' hlookup
    have hlookup : List.lookup u [(1, "b")] = some r' := hlookup
    rw [Dict.lookup_cons_ite] at hlookup
    split at hlookup
    · rename_i hu
      obtain rfl := Option.some.inj hlookup
      subst hu
      rfl
    · cases hlookup
  · intro r m hchecking hblocked
    cases hchecking
    intro c hc hreach u hu r' hlookup
    have hlookup : List.lookup u [(1, "b"), (2, "a")] = some r' := hlookup
    rw [Dict.lookup_cons_ite, Dict.lookup_cons_ite] at hlookup
    split at hlookup
    · rename_i hu
      obtain rfl := Option.some.inj hlookup
      subst hu
      rfl
    · split at hlookup
      · rename_i hu
        obtain rfl := Option.some.inj hlookup
        subst hu
        rfl
      · cases hlookup

/-- The crossing raises in transaction 2, which is on a cycle. -/
theorem deadlock_errors_real_crossing : RealCycle crossing 2 [(2, "a", 1), (1, "b", 2)] := by
  have hraised : (crossing.check 2 "a" .exclusive false).threads 2 =
      .leaving (.error (.deadlock 2 [(2, "a", 1), (1, "b", 2)])) := rfl
  exact (deadlock_errors_real NothingStale (fun _ _ h => h) [] crossing
    (crossing.check 2 "a" .exclusive false) (.check 2 false) 2 2 _ crossing_fresh.1 crossing_fresh.2
    rfl (fun hsame => by cases hraised.symm.trans hsame) hraised).2

/-! ## A waiter that has been woken -/

/-- Transaction 2 holds "q" and waits for "r" behind 3, whose timeout has just
woken it; 4 holds "r" as 2 wants it, and has asked for "q". -/
def woken : LockSystem :=
  let s := (({} : LockSystem).acquire 2 "q" .exclusive).acquire 4 "r" .shared
  let s := (s.acquire 3 "r" .exclusive).check 3 "r" .exclusive false
  let s := (s.acquire 2 "r" .shared).check 2 "r" .shared false
  let s := ((s.setThread 3 (.checking "r" .exclusive)).check 3 "r" .exclusive true).settle 3
  s.acquire 4 "q" .shared

theorem woken_run : ∃ ended, Run (fun _ _ => True) {} ended woken :=
  ⟨_, .step (a := .acquire 4 "q" .shared)
    (.step (a := .settle 3)
      (.step (a := .check 3 true)
        (.step (a := .timeout 3)
          (.step (a := .check 2 false)
            (.step (a := .acquire 2 "r" .shared)
              (.step (a := .check 3 false)
                (.step (a := .acquire 3 "r" .exclusive)
                  (.step (a := .acquire 4 "r" .shared)
                    (.step (a := .acquire 2 "q" .exclusive) (.refl _) trivial rfl)
                    trivial rfl)
                  trivial rfl)
                trivial rfl)
              trivial rfl)
            trivial rfl)
          trivial rfl)
        trivial rfl)
      trivial rfl)
    trivial rfl⟩

/-- Over all runs it does not hold: 4 is aborted on account of the wait of 2,
which can be granted. -/
theorem woken_waiter_reported : ¬ ErrorsReal (fun _ _ => True) := by
  intro hreal
  have hraised : (woken.check 4 "q" .shared false).threads 4 =
      .leaving (.error (.deadlock 4 [(4, "q", 2), (2, "r", 4)])) := rfl
  obtain ⟨ended, hrun⟩ := woken_run
  obtain ⟨-, hcycle⟩ := hreal ended woken (woken.check 4 "q" .shared false) (.check 4 false) 4 4 _
    hrun trivial rfl (fun hsame => by cases hraised.symm.trans hsame) hraised
  obtain ⟨m, hqueued, hblocked⟩ := hcycle.blocked (2, "r", 4) (by decide)
  have hqueued : (2, m) ∈ [(2, LockMode.shared)] := hqueued
  obtain rfl := congrArg Prod.snd (List.mem_singleton.mp hqueued)
  cases hblocked

end LockSystem

end QuillDb
