/-
  Txn/LockInvariant.lean --- what a step of the lock manager can do.

  `Effect` says it once, for the thread that takes the step and for all others;
  the invariant of the queues and of the sleeping threads follows from it.
-/
import QuillDb.Txn.Locks

set_option autoImplicit false

namespace QuillDb

namespace LockSystem

variable {s s' : LockSystem} {t u : Nat} {r r' : String} {m m' : LockMode}

/-! ## Views of the updates -/

@[simp] theorem entry_setEntry (s : LockSystem) (r r' : String) (e : LockEntry) :
    (s.setEntry r e).entry r' = if r' = r then e else s.entry r' := by
  unfold entry setEntry
  rw [Dict.lookup_put]
  split <;> rfl

/-- An update of the queue alone. -/
theorem holders_setEntry {e : LockEntry} (he : e.holders = (s.entry r).holders) (r' : String) :
    ((s.setEntry r e).entry r').holders = (s.entry r').holders := by
  rw [entry_setEntry]
  split
  · rename_i hr
    rw [hr, he]
  · rfl

/-- An update of the holders alone. -/
theorem waiters_setEntry {e : LockEntry} (he : e.waiters = (s.entry r).waiters) (r' : String) :
    ((s.setEntry r e).entry r').waiters = (s.entry r').waiters := by
  rw [entry_setEntry]
  split
  · rename_i hr
    rw [hr, he]
  · rfl

@[simp] theorem entry_notifyAll (s : LockSystem) (r r' : String) :
    (s.notifyAll r).entry r' = s.entry r' := rfl

@[simp] theorem entry_setThread (s : LockSystem) (t : Nat) (p : ThreadState) (r : String) :
    (s.setThread t p).entry r = s.entry r := rfl

@[simp] theorem threads_setEntry (s : LockSystem) (r : String) (e : LockEntry) :
    (s.setEntry r e).threads = s.threads := rfl

@[simp] theorem threads_notifyAll (s : LockSystem) (r : String) (t : Nat) :
    (s.notifyAll r).threads t = (s.threads t).notified r := rfl

@[simp] theorem threads_setThread_self (s : LockSystem) (t : Nat) (p : ThreadState) :
    (s.setThread t p).threads t = p := if_pos rfl

theorem threads_setThread_of_ne (s : LockSystem) {t u : Nat} (p : ThreadState) (hu : u ≠ t) :
    (s.setThread t p).threads u = s.threads u := if_neg hu

theorem notified_cases (p : ThreadState) (r : String) :
    p.notified r = p ∨ ∃ m, p = .asleep r m ∧ p.notified r = .checking r m := by
  cases p with
  | asleep r' m =>
      by_cases hr : r' = r
      · subst hr
        exact .inr ⟨m, rfl, if_pos rfl⟩
      · exact .inl (if_neg hr)
  | _ => exact .inl rfl

/-- Nobody sleeps on a resource that has just been notified. -/
theorem notified_ne_asleep (p : ThreadState) (r : String) (m : LockMode) :
    p.notified r ≠ .asleep r m := by
  intro h
  rcases notified_cases p r with hsame | ⟨m', rfl, hwoken⟩
  · rw [hsame] at h
    rw [h, ThreadState.notified, if_pos rfl] at hsame
    cases hsame
  · rw [hwoken] at h
    cases h

end LockSystem

namespace LockEntry

variable {e e' : LockEntry} {t : Nat} {m : LockMode}

/-- Joining the back of the queue makes nothing grantable. -/
theorem grantable_of_prefix (hholders : e'.holders = e.holders)
    (hwaiters : e.waiters <+: e'.waiters) (h : e.grantable t m = false) :
    e'.grantable t m = false := by
  obtain ⟨l, hl⟩ := hwaiters
  unfold grantable at h ⊢
  rw [hholders, ← hl]
  cases hw : e.waiters with
  | nil =>
      rw [hw, Bool.true_and] at h
      rw [h, Bool.and_false]
  | cons w ws =>
      rw [hw] at h
      exact h

/-- One hold a transaction, and an exclusive hold is the only one. -/
structure Orderly (e : LockEntry) : Prop where
  nodup : (e.holders.map Prod.fst).Nodup
  alone : ∀ x y h, (x, .exclusive) ∈ e.holders → (y, h) ∈ e.holders → x = y

theorem Orderly.grant (h : e.Orderly) (hgrantable : e.grantable t m = true) :
    (e.grant t m).Orderly := by
  have hcompatible : ∀ x held, (x, held) ∈ e.holders → x ≠ t → compatible m held = true := by
    intro x held hmem hx
    have := List.all_eq_true.mp (Bool.and_eq_true_iff.mp hgrantable).2 _ hmem
    simpa [hx] using this
  refine ⟨Dict.nodup_put h.nodup t m, fun x y held hx hy => ?_⟩
  by_cases hxt : x = t
  · by_contra hne
    have hyt : y ≠ t := fun heq => hne (hxt.trans heq.symm)
    have hmode : m = .exclusive := (Dict.eq_of_mem_put (hxt ▸ hx)).symm
    have := hcompatible y held ((Dict.mem_put_of_ne hyt).mp hy) hyt
    rw [hmode] at this
    cases held <;> cases this
  · have hold := (Dict.mem_put_of_ne hxt).mp hx
    have := hcompatible x _ hold hxt
    cases m <;> cases this

theorem Orderly.drop (h : e.Orderly) (t : Nat) : (e.drop t).Orderly :=
  ⟨Dict.nodup_erase h.nodup t, fun x y held hx hy =>
    h.alone x y held (Dict.mem_erase.mp hx).2 (Dict.mem_erase.mp hy).2⟩

theorem Orderly.congr {e' : LockEntry} (h : e.Orderly) (he : e'.holders = e.holders) :
    e'.Orderly := by
  constructor
  · rw [he]
    exact h.nodup
  · rw [he]
    exact h.alone

end LockEntry

namespace LockSystem

variable {s s' : LockSystem} {t u : Nat} {r r' : String} {m m' : LockMode}

/-! ## The effect of a step -/

/-- How a step moves its own thread through the queues. -/
inductive Queueing (s : LockSystem) (t : Nat) (s' : LockSystem) : Prop
  | stay (request : (s'.threads t).request = (s.threads t).request)
      (waiters : ∀ r, (s'.entry r).waiters = (s.entry r).waiters)
  | enter (r : String) (m : LockMode) (outside : s.threads t = .outside)
      (inside : s'.threads t = .checking r m)
      (wanting : (s.entry r).sufficient t m = false)
      (waiters : ∀ r', (s'.entry r').waiters =
        if r' = r then (s.entry r).waiters ++ [(t, m)] else (s.entry r').waiters)
  | leave (r : String) (m : LockMode) (outcome : Outcome)
      (inside : s.threads t = .checking r m) (outside : s'.threads t = .leaving outcome)
      (ends : outcome = .ok () ∧ (s.entry r).grantable t m = true ∨
        (∃ cycle, outcome = .error (.deadlock t cycle)) ∨
        ∃ message, outcome = .error (.lockTimeout message))
      (waiters : ∀ r', (s'.entry r').waiters =
        if r' = r then (s.entry r).waiters.erase (t, m) else (s.entry r').waiters)

/-- A thread has gone to sleep after a round that found nothing to do. -/
structure Slept (s : LockSystem) (t : Nat) (r : String) (m : LockMode) (s' : LockSystem) :
    Prop where
  awake : s.threads t = .checking r m
  blocked : (s'.entry r).grantable t m = false
  waits : s'.waitingFor.lookup t = some r
  spared : s'.doomed.lookup t = none
  graph : s'.holdersBlocking =
    { s with waitingFor := s.waitingFor.put t r }.holdersBlocking
  /-- The walk came back empty, or with a victim that is condemned already. -/
  unseen : s'.detectDeadlock t = none ∨
    ∃ victim cycle, s'.detectDeadlock t = some (victim, cycle) ∧ victim ≠ t ∧
      (s.doomed.lookup victim ≠ none ∧ s'.doomed.lookup victim ≠ none ∨
        s'.waitingFor.lookup victim = none)

/-- What a step of `t` may change. -/
structure Effect (s : LockSystem) (t : Nat) (s' : LockSystem) : Prop where
  queueing : Queueing s t s'
  others : ∀ u, u ≠ t → s'.threads u = s.threads u ∨
    ∃ r m, s.threads u = .asleep r m ∧ s'.threads u = .checking r m
  holders_other : ∀ r x h, x ≠ t →
    ((x, h) ∈ (s'.entry r).holders ↔ (x, h) ∈ (s.entry r).holders)
  holders_waiting : (s'.threads t).request ≠ none →
    ∀ r, (s'.entry r).holders = (s.entry r).holders
  orderly : ∀ r, (s.entry r).Orderly → (s'.entry r).Orderly
  quiet : ∀ u r m, u ≠ t → s'.threads u = .asleep r m →
    (s'.entry r).holders = (s.entry r).holders ∧ (s.entry r).waiters <+: (s'.entry r).waiters
  waitingFor : ∀ u, u ≠ t → s'.waitingFor.lookup u = s.waitingFor.lookup u
  spared : ∀ u, u ≠ t → s'.doomed.lookup u = none → s.doomed.lookup u = none
  doomed : ∀ u, u ≠ t → s'.doomed.lookup u ≠ none → s.doomed.lookup u ≠ none ∨
    ∀ r m, s.waitingFor.lookup u = some r → s'.threads u = .asleep r m →
      ∃ r' m', s'.threads t = .waking r' m' r
  slept : ∀ r m, s'.threads t = .asleep r m → Slept s t r m s'
  woke : ∀ r m target, s.threads t = .waking r m target → ∀ u m', s'.threads u ≠ .asleep target m'

/-- A step that leaves the entries and the other threads alone. -/
theorem Effect.of_thread (hentry : ∀ r, s'.entry r = s.entry r)
    (hothers : ∀ u, u ≠ t → s'.threads u = s.threads u)
    (hwaiting : ∀ u, u ≠ t → s'.waitingFor.lookup u = s.waitingFor.lookup u)
    (hspared : ∀ u, u ≠ t → s'.doomed.lookup u = none → s.doomed.lookup u = none)
    (hdoomed : ∀ u, u ≠ t → s'.doomed.lookup u ≠ none → s.doomed.lookup u ≠ none ∨
      ∀ r m, s.waitingFor.lookup u = some r → s'.threads u = .asleep r m →
        ∃ r' m', s'.threads t = .waking r' m' r)
    (hrequest : (s'.threads t).request = (s.threads t).request)
    (hslept : ∀ r m, s'.threads t = .asleep r m → Slept s t r m s')
    (hwoke : ∀ r m target, s.threads t ≠ .waking r m target) : Effect s t s' where
  queueing := .stay hrequest fun r => by rw [hentry]
  others := fun u hu => .inl (hothers u hu)
  holders_other := fun r x h _ => by rw [hentry]
  holders_waiting := fun _ r => by rw [hentry]
  orderly := fun r hr => by rwa [hentry]
  quiet := fun u r m _ _ => by rw [hentry]; exact ⟨rfl, List.prefix_rfl⟩
  waitingFor := hwaiting
  spared := hspared
  doomed := hdoomed
  slept := hslept
  woke := fun r m target h => absurd h (hwoke r m target)

/-- Notifying a resource does to every other thread what `Effect` allows. -/
theorem others_notified (r : String) (p : ThreadState) (hu : u ≠ t) :
    ((s.notifyAll r).setThread t p).threads u = s.threads u ∨
      ∃ r' m, s.threads u = .asleep r' m ∧
        ((s.notifyAll r).setThread t p).threads u = .checking r' m := by
  rw [threads_setThread_of_ne _ p hu, threads_notifyAll]
  rcases notified_cases (s.threads u) r with hsame | ⟨m, hasleep, hwoken⟩
  · exact .inl hsame
  · exact .inr ⟨r, m, hasleep, hwoken⟩

theorem acquire_effect (h : s.threads t = .outside) : Effect s t (s.acquire t r m) := by
  have hwoke : ∀ r' m' target, s.threads t ≠ .waking r' m' target := by
    intro r' m' target hwaking
    rw [h] at hwaking
    cases hwaking
  unfold acquire
  simp only
  split
  · refine .of_thread ?_ (fun _ _ => rfl) (fun _ _ => rfl) (fun _ _ hd => hd) (fun _ _ hd => .inl hd) rfl ?_ hwoke
    · intro r'
      rw [entry_setEntry]
      split
      · rename_i hr
        rw [hr]
      · rfl
    · intro r' m' hasleep
      rw [threads_setEntry, h] at hasleep
      cases hasleep
  · rename_i hwanting
    split
    · -- the fast path of a grantable request
      rename_i hgrantable
      have houtside : (s.threads t).notified r = .outside := by
        rw [h]
        rfl
      refine
        { queueing := .stay ?_ (waiters_setEntry rfl), others := ?_, holders_other := ?_,
          holders_waiting := ?_, orderly := ?_, quiet := ?_,
          waitingFor := fun u _ => rfl,
          spared := fun u _ hd => hd, doomed := fun u _ hd => .inl hd, slept := ?_,
          woke := fun r' m' target hwaking => absurd hwaking (hwoke r' m' target) }
      · rw [threads_notifyAll, threads_setEntry, houtside, h]
      · intro u _
        rcases notified_cases (s.threads u) r with hsame | ⟨m', hasleep, hwoken⟩
        · exact .inl hsame
        · exact .inr ⟨r, m', hasleep, hwoken⟩
      · intro r' x h' hx
        rw [entry_notifyAll, entry_setEntry]
        split
        · rename_i hr
          rw [hr]
          exact Dict.mem_put_of_ne hx
        · rfl
      · intro hreq
        rw [threads_notifyAll, threads_setEntry, houtside] at hreq
        exact absurd rfl hreq
      · intro r' horderly
        rw [entry_notifyAll, entry_setEntry]
        split
        · rename_i hr
          exact (hr ▸ horderly).grant hgrantable
        · exact horderly
      · intro u r' m' _ hasleep
        rw [entry_notifyAll, entry_setEntry, if_neg]
        · exact ⟨rfl, List.prefix_rfl⟩
        · rintro rfl
          exact notified_ne_asleep _ _ _ hasleep
      · intro r' m' hasleep
        rw [threads_notifyAll, threads_setEntry, houtside] at hasleep
        cases hasleep
    · have hholders : ∀ r', ((s.setEntry r ((s.entry r).enqueue t m)).entry r').holders =
          (s.entry r').holders := holders_setEntry rfl
      refine
        { queueing := .enter r m h (threads_setThread_self ..) ?_ ?_,
          others := fun u hu => .inl (threads_setThread_of_ne _ _ hu),
          holders_other := fun r' x h' _ => by rw [entry_setThread, hholders],
          holders_waiting := fun _ => hholders,
          orderly := fun r' horderly => horderly.congr (hholders r'),
          quiet := ?_, waitingFor := fun u _ => rfl,
          spared := fun u _ hd => hd, doomed := fun u _ hd => .inl hd, slept := ?_,
          woke := fun r' m' target hwaking => absurd hwaking (hwoke r' m' target) }
      · exact Bool.eq_false_iff.mpr hwanting
      · intro r'
        rw [entry_setThread, entry_setEntry]
        split <;> rfl
      · intro u r' m' _ _
        refine ⟨hholders r', ?_⟩
        rw [entry_setThread, entry_setEntry]
        split
        · rename_i hr
          rw [hr]
          exact List.prefix_append ..
        · exact List.prefix_rfl
      · intro r' m' hasleep
        rw [threads_setThread_self] at hasleep
        cases hasleep

/-- What a round may have done before it takes its thread off the queue. -/
structure Leaving (s : LockSystem) (t : Nat) (r : String) (s₀ : LockSystem) : Prop where
  threads : s₀.threads = s.threads
  entry : ∀ r', r' ≠ r → s₀.entry r' = s.entry r'
  waiters : (s₀.entry r).waiters = (s.entry r).waiters
  holders : ∀ x h, x ≠ t → ((x, h) ∈ (s₀.entry r).holders ↔ (x, h) ∈ (s.entry r).holders)
  orderly : (s.entry r).Orderly → (s₀.entry r).Orderly
  waitingFor : ∀ u, u ≠ t → s₀.waitingFor.lookup u = s.waitingFor.lookup u
  spared : ∀ u, u ≠ t → s₀.doomed.lookup u = none → s.doomed.lookup u = none
  doomed : ∀ u, u ≠ t → s₀.doomed.lookup u ≠ none →
    s.doomed.lookup u ≠ none ∨ s.waitingFor.lookup u = none

theorem leave_effect {s₀ : LockSystem} {outcome : Outcome} (h : s.threads t = .checking r m)
    (h₀ : Leaving s t r s₀)
    (hends : outcome = .ok () ∧ (s.entry r).grantable t m = true ∨
      (∃ cycle, outcome = .error (.deadlock t cycle)) ∨
      ∃ message, outcome = .error (.lockTimeout message)) :
    Effect s t (s₀.leave t r m outcome) := by
  have hthread : (s₀.leave t r m outcome).threads t = .leaving outcome :=
    threads_setThread_self ..
  have hentry : ∀ r', (s₀.leave t r m outcome).entry r' =
      if r' = r then (s₀.entry r).dequeue t m else s.entry r' := by
    intro r'
    unfold leave
    rw [entry_setThread, entry_notifyAll, entry_setEntry]
    split
    · rfl
    · rename_i hr
      exact h₀.entry r' hr
  have hasleep : ∀ u r' m', (s₀.leave t r m outcome).threads u = .asleep r' m' → r' ≠ r := by
    rintro u r' m' hu rfl
    by_cases hut : u = t
    · rw [hut, hthread] at hu
      cases hu
    · unfold leave at hu
      rw [threads_setThread_of_ne _ _ hut] at hu
      exact notified_ne_asleep _ _ _ hu
  refine
    { queueing := .leave r m outcome h hthread hends ?_, others := ?_, holders_other := ?_,
      holders_waiting := ?_, orderly := ?_, quiet := ?_, waitingFor := h₀.waitingFor,
      spared := h₀.spared, doomed := ?_, slept := ?_, woke := ?_ }
  · intro r'
    rw [hentry]
    split
    · rw [LockEntry.dequeue, h₀.waiters]
    · rfl
  · intro u hu
    have := others_notified (s := s₀.setEntry r ((s₀.entry r).dequeue t m)) r
      (.leaving outcome) hu
    rwa [threads_setEntry, h₀.threads] at this
  · intro r' x h' hx
    rw [hentry]
    split
    · rename_i hr
      rw [hr]
      exact h₀.holders x h' hx
    · rfl
  · intro hreq
    rw [hthread] at hreq
    exact absurd rfl hreq
  · intro r' horderly
    rw [hentry]
    split
    · rename_i hr
      exact (h₀.orderly (hr ▸ horderly)).congr rfl
    · exact horderly
  · intro u r' m' _ hu
    rw [hentry, if_neg (hasleep u r' m' hu)]
    exact ⟨rfl, List.prefix_rfl⟩
  · intro u hu hd
    rcases h₀.doomed u hu hd with hold | hnone
    · exact .inl hold
    · refine .inr fun r' m' hwait _ => ?_
      rw [hnone] at hwait
      cases hwait
  · intro r' m' hsleep
    rw [hthread] at hsleep
    cases hsleep
  · intro r' m' target hwaking
    rw [h] at hwaking
    cases hwaking

/-- A round that has entered the wait-for graph has done nothing else yet. -/
theorem Leaving.await (s : LockSystem) (t : Nat) (r : String) :
    Leaving s t r { s with waitingFor := s.waitingFor.put t r } where
  threads := rfl
  entry := fun _ _ => rfl
  waiters := rfl
  holders := fun _ _ _ => Iff.rfl
  orderly := fun horderly => horderly
  waitingFor := fun _ hu => (Dict.lookup_put ..).trans (if_neg hu)
  spared := fun _ _ hd => hd
  doomed := fun _ _ hd => .inl hd

/-- Falling through to the end of the round. -/
theorem sleep_effect {s₀ : LockSystem} {expired : Bool} (h : s.threads t = .checking r m)
    (h₀ : Leaving s t r s₀) (hentry : s₀.entry r = s.entry r)
    (hslept : Slept s t r m (s₀.setThread t (.asleep r m))) :
    Effect s t (s₀.sleep t r m expired) := by
  unfold sleep
  split
  · exact leave_effect h h₀ (.inr (.inr ⟨_, rfl⟩))
  · refine .of_thread ?_ ?_ h₀.waitingFor h₀.spared ?_ ?_ ?_ ?_
    · intro r'
      by_cases hr : r' = r
      · rw [hr]
        exact hentry
      · exact h₀.entry r' hr
    · intro u hu
      rw [threads_setThread_of_ne _ _ hu, h₀.threads]
    · intro u hu hd
      rcases h₀.doomed u hu hd with hold | hnone
      · exact .inl hold
      · refine .inr fun r' m' hwait _ => ?_
        rw [hnone] at hwait
        cases hwait
    · rw [threads_setThread_self, h]
      rfl
    · intro r' m' hsleep
      rw [threads_setThread_self] at hsleep
      cases hsleep
      exact hslept
    · intro r' m' target hwaking
      rw [h] at hwaking
      cases hwaking

/-- A step that notifies `target` and leaves its own thread in the wait loop. -/
theorem Effect.of_notify (target : String) (hentry : ∀ r, s'.entry r = s.entry r)
    (hothers : ∀ u, u ≠ t → s'.threads u = (s.threads u).notified target)
    (hawake : s'.threads t = .checking r m) (hrequest : (s.threads t).request = some (r, m))
    (hwaiting : ∀ u, u ≠ t → s'.waitingFor.lookup u = s.waitingFor.lookup u)
    (hspared : ∀ u, u ≠ t → s'.doomed.lookup u = none → s.doomed.lookup u = none)
    (hdoomed : ∀ u, u ≠ t → s'.doomed.lookup u ≠ none →
      s.doomed.lookup u ≠ none ∨ s.waitingFor.lookup u = some target)
    (hwoke : ∀ r' m' target', s.threads t = .waking r' m' target' → target' = target) :
    Effect s t s' where
  queueing := .stay (by rw [hawake, hrequest]; rfl) fun r => by rw [hentry]
  others := by
    intro u hu
    rw [hothers u hu]
    rcases notified_cases (s.threads u) target with hsame | ⟨m', hasleep, hwoken⟩
    · exact .inl hsame
    · exact .inr ⟨target, m', hasleep, hwoken⟩
  holders_other := fun r x h _ => by rw [hentry]
  holders_waiting := fun _ r => by rw [hentry]
  orderly := fun r hr => by rwa [hentry]
  quiet := fun u r m _ _ => by rw [hentry]; exact ⟨rfl, List.prefix_rfl⟩
  waitingFor := hwaiting
  spared := hspared
  doomed := by
    intro u hu hd
    rcases hdoomed u hu hd with hold | htarget
    · exact .inl hold
    · refine .inr fun r' m' hwait hasleep => ?_
      obtain rfl := Option.some.inj (hwait.symm.trans htarget)
      rw [hothers u hu] at hasleep
      exact absurd hasleep (notified_ne_asleep _ _ _)
  slept := by
    intro r' m' hasleep
    rw [hawake] at hasleep
    cases hasleep
  woke := by
    intro r' m' target' hwaking u m'' hasleep
    rw [hwoke r' m' target' hwaking] at hasleep
    by_cases hu : u = t
    · rw [hu, hawake] at hasleep
      cases hasleep
    · rw [hothers u hu] at hasleep
      exact notified_ne_asleep _ _ _ hasleep

theorem doom_effect {expired : Bool} {victim : Nat} {cycle : List (Nat × String × Nat)}
    (h : s.threads t = .checking r m) (hblocked : (s.entry r).grantable t m = false)
    (hspared : s.doomed.lookup t = none) (hvictim : victim ≠ t)
    (hfound : { s with waitingFor := s.waitingFor.put t r }.detectDeadlock t =
      some (victim, cycle)) :
    Effect s t
      ({ s with waitingFor := s.waitingFor.put t r }.doom t r m expired victim cycle) := by
  have hwaits : (s.waitingFor.put t r).lookup t = some r := (Dict.lookup_put ..).trans (if_pos rfl)
  have hother : ∀ u, u ≠ t → (s.waitingFor.put t r).lookup u = s.waitingFor.lookup u :=
    fun u hu => (Dict.lookup_put ..).trans (if_neg hu)
  have hnot : ∀ r' m' target, s.threads t ≠ .waking r' m' target := by
    intro r' m' target hwaking
    rw [h] at hwaking
    cases hwaking
  unfold doom
  split
  · rename_i c hc
    have hcondemned : s.doomed.lookup victim ≠ none := hc ▸ Option.some_ne_none c
    exact sleep_effect h (.await s t r) rfl
      ⟨h, hblocked, hwaits, hspared, rfl,
        .inr ⟨victim, cycle, hfound, hvictim, .inl ⟨hcondemned, hcondemned⟩⟩⟩
  · rename_i hnew
    have hkept : ∀ u, u ≠ t → (s.doomed.put victim cycle).lookup u = none →
        s.doomed.lookup u = none := by
      intro u _ hu
      rw [Dict.lookup_put] at hu
      split at hu
      · cases hu
      · exact hu
    have hdoomed : ∀ u, (s.doomed.put victim cycle).lookup u ≠ none →
        s.doomed.lookup u ≠ none ∨ u = victim := by
      intro u hu
      rw [Dict.lookup_put] at hu
      split at hu
      · rename_i huv
        exact .inr huv
      · exact .inl hu
    simp only
    split
    · rename_i hidle
      refine sleep_effect h { Leaving.await s t r with spared := hkept, doomed := ?_ } rfl
        ⟨h, hblocked, hwaits, ?_, rfl, .inr ⟨victim, cycle, hfound, hvictim, .inr hidle⟩⟩
      · intro u hu hd
        rcases hdoomed u hd with hold | rfl
        · exact .inl hold
        · exact .inr ((hother u hu).symm.trans hidle)
      · exact (Dict.lookup_put ..).trans ((if_neg (Ne.symm hvictim)).trans hspared)
    · rename_i target htarget
      rw [hother victim hvictim] at htarget
      split
      · rename_i hsame
        refine .of_notify r (fun _ => rfl) (fun _ _ => rfl) ?_ (by rw [h]; rfl) hother hkept ?_
          fun r' m' target' hwaking => absurd hwaking (hnot _ _ _)
        · rw [threads_notifyAll, h]
          rfl
        · intro u hu hd
          rcases hdoomed u hd with hold | rfl
          · exact .inl hold
          · exact .inr (htarget.trans (congrArg some hsame))
      · refine .of_thread (fun _ => rfl) (fun u hu => threads_setThread_of_ne _ _ hu)
          hother hkept ?_ ?_ ?_ hnot
        · intro u hu hd
          rcases hdoomed u hd with hold | rfl
          · exact .inl hold
          · refine .inr fun r' m' hwait _ => ⟨r, m, ?_⟩
            rw [Option.some.inj (hwait.symm.trans htarget)]
            exact threads_setThread_self ..
        · rw [threads_setThread_self, h]
          rfl
        · intro r' m' hasleep
          rw [threads_setThread_self] at hasleep
          cases hasleep

theorem check_effect {expired : Bool} (h : s.threads t = .checking r m) :
    Effect s t (s.check t r m expired) := by
  unfold check
  split
  · rename_i hgrantable
    refine leave_effect h ?_ (.inl ⟨rfl, hgrantable⟩)
    refine
      { threads := rfl, entry := fun r' hr => ?_, waiters := waiters_setEntry (e := (s.entry r).grant t m) rfl r,
        holders := fun x h' hx => ?_, orderly := fun horderly => ?_,
        waitingFor := fun _ _ => rfl, spared := fun _ _ hd => hd, doomed := fun _ _ hd => .inl hd }
    · rw [entry_setEntry, if_neg hr]
    · rw [entry_setEntry, if_pos rfl]
      exact Dict.mem_put_of_ne hx
    · rw [entry_setEntry, if_pos rfl]
      exact horderly.grant hgrantable
  · rename_i hblocked
    have hblocked : (s.entry r).grantable t m = false := Bool.eq_false_iff.mpr hblocked
    split
    · rename_i cycle hcycle
      refine leave_effect h ?_ (.inr (.inl ⟨cycle, rfl⟩))
      refine
        { threads := rfl, entry := fun _ _ => rfl, waiters := rfl, holders := fun _ _ _ => Iff.rfl,
          orderly := fun horderly => horderly, waitingFor := fun _ _ => rfl,
          spared := ?_, doomed := fun u hu hd => .inl ?_ }
      · intro u hu hd
        rwa [Dict.lookup_erase, if_neg hu] at hd
      · rwa [Dict.lookup_erase, if_neg hu] at hd
    · rename_i hspared
      simp only
      split
      · rename_i hnone
        exact sleep_effect h (.await s t r) rfl
          ⟨h, hblocked, (Dict.lookup_put ..).trans (if_pos rfl), hspared, rfl, .inl hnone⟩
      · rename_i victim cycle hfound
        split
        · rename_i hvictim
          exact leave_effect h (.await s t r) (.inr (.inl ⟨cycle, by rw [hvictim]⟩))
        · rename_i hvictim
          exact doom_effect h hblocked hspared hvictim hfound

theorem settle_effect (h : (s.threads t).request = none) : Effect s t (s.settle t) := by
  have hidle : ∀ r m target, s.threads t ≠ .waking r m target := by
    intro r m target hwaking
    rw [hwaking] at h
    cases h
  have hspared : ∀ u, u ≠ t → (s.settle t).doomed.lookup u = s.doomed.lookup u :=
    fun u hu => (Dict.lookup_erase ..).trans (if_neg hu)
  refine .of_thread (fun _ => rfl) (fun u hu => threads_setThread_of_ne _ _ hu)
    (fun u hu => (Dict.lookup_erase ..).trans (if_neg hu)) ?_ ?_ ?_ ?_ hidle
  · intro u hu hd
    rwa [hspared u hu] at hd
  · intro u hu hd
    rw [hspared u hu] at hd
    exact .inl hd
  · rw [h]
    exact congrArg ThreadState.request (threads_setThread_self ..)
  · intro r m hasleep
    rw [settle, threads_setThread_self] at hasleep
    cases hasleep

theorem release_effect {rest : List String} (h : s.threads t = .releasing (r :: rest)) :
    Effect s t (s.release t r rest) := by
  have hwoke : ∀ r' m' target, s.threads t ≠ .waking r' m' target := by
    intro r' m' target hwaking
    rw [h] at hwaking
    cases hwaking
  unfold release
  simp only
  split
  · refine
      { queueing := .stay ?_ (waiters_setEntry rfl), others := fun u hu => others_notified r _ hu,
        holders_other := ?_, holders_waiting := ?_, orderly := ?_, quiet := ?_,
        waitingFor := fun u _ => rfl,
          spared := fun u _ hd => hd, doomed := fun u _ hd => .inl hd, slept := ?_,
        woke := fun r' m' target hwaking => absurd hwaking (hwoke r' m' target) }
    · rw [threads_setThread_self, h]
      rfl
    · intro r' x h' hx
      rw [entry_setThread, entry_notifyAll, entry_setEntry]
      split
      · rename_i hr
        rw [hr]
        exact Dict.mem_erase.trans (and_iff_right hx)
      · rfl
    · intro hreq
      rw [threads_setThread_self] at hreq
      exact absurd rfl hreq
    · intro r' horderly
      rw [entry_setThread, entry_notifyAll, entry_setEntry]
      split
      · rename_i hr
        exact (hr ▸ horderly).drop t
      · exact horderly
    · intro u r' m' hu hasleep
      rw [threads_setThread_of_ne _ _ hu] at hasleep
      rw [entry_setThread, entry_notifyAll, entry_setEntry, if_neg]
      · exact ⟨rfl, List.prefix_rfl⟩
      · rintro rfl
        exact notified_ne_asleep _ _ _ hasleep
    · intro r' m' hasleep
      rw [threads_setThread_self] at hasleep
      cases hasleep
  · refine .of_thread (fun _ => rfl) (fun u hu => threads_setThread_of_ne _ _ hu)
      (fun _ _ => rfl) (fun _ _ hd => hd) (fun _ _ hd => .inl hd) ?_ ?_ hwoke
    · rw [threads_setThread_self, h]
      rfl
    · intro r' m' hasleep
      rw [threads_setThread_self] at hasleep
      cases hasleep

/-- The thread that takes a step. -/
def Action.actor : Action → Nat
  | .acquire t _ _ => t
  | .check t _ => t
  | .wake t => t
  | .timeout t => t
  | .settle t => t
  | .releaseAll t => t
  | .release t => t

theorem step_effect {a : Action} (h : s.step a = some s') : Effect s a.actor s' := by
  cases a with
  | acquire t r m =>
      simp only [step] at h
      split at h
      · obtain rfl := Option.some.inj h
        exact acquire_effect ‹_›
      · cases h
  | check t expired =>
      simp only [step] at h
      split at h
      · obtain rfl := Option.some.inj h
        exact check_effect ‹_›
      · cases h
  | wake t =>
      simp only [step] at h
      split at h
      · rename_i r m target hwaking
        obtain rfl := Option.some.inj h
        refine .of_notify target (fun _ => rfl)
          (fun u hu => threads_setThread_of_ne _ _ hu) (threads_setThread_self ..)
          (congrArg ThreadState.request hwaking) (fun _ _ => rfl) (fun _ _ hd => hd) (fun _ _ hd => .inl hd) ?_
        intro r' m' target' hwaking'
        rw [Action.actor, hwaking] at hwaking'
        cases hwaking'
        rfl
      · cases h
  | timeout t =>
      simp only [step] at h
      split at h
      · rename_i r m hasleep
        obtain rfl := Option.some.inj h
        refine .of_thread (fun _ => rfl) (fun u hu => threads_setThread_of_ne _ _ hu)
          (fun _ _ => rfl) (fun _ _ hd => hd) (fun _ _ hd => .inl hd) ?_ ?_ ?_
        · rw [Action.actor, threads_setThread_self, hasleep]
          rfl
        · intro r' m' hasleep'
          rw [Action.actor, threads_setThread_self] at hasleep'
          cases hasleep'
        · intro r' m' target hwaking
          rw [Action.actor, hasleep] at hwaking
          cases hwaking
      · cases h
  | settle t =>
      simp only [step] at h
      split at h
      · rename_i outcome hleaving
        obtain rfl := Option.some.inj h
        exact settle_effect (congrArg ThreadState.request hleaving)
      · cases h
  | releaseAll t =>
      simp only [step] at h
      split at h
      · rename_i houtside
        obtain rfl := Option.some.inj h
        refine .of_thread (fun _ => rfl) (fun u hu => threads_setThread_of_ne _ _ hu)
          (fun _ _ => rfl) (fun _ _ hd => hd) (fun _ _ hd => .inl hd) ?_ ?_ ?_
        · rw [Action.actor, threads_setThread_self, houtside]
          rfl
        · intro r' m' hasleep
          rw [Action.actor, threads_setThread_self] at hasleep
          cases hasleep
        · intro r' m' target hwaking
          rw [Action.actor, houtside] at hwaking
          cases hwaking
      · cases h
  | release t =>
      simp only [step] at h
      split at h
      · rename_i hreleasing
        obtain rfl := Option.some.inj h
        exact settle_effect (congrArg ThreadState.request hreleasing)
      · rename_i r rest hreleasing
        obtain rfl := Option.some.inj h
        exact release_effect hreleasing
      · cases h

/-! ## The invariant -/

/-- The queues hold the requests of the waiting threads, and a thread sleeps
only where it is blocked, known to wait, and due to be woken if condemned. -/
structure Coherent (s : LockSystem) : Prop where
  queued : ∀ t r m, (t, m) ∈ (s.entry r).waiters ↔ (s.threads t).request = some (r, m)
  waiters_nodup : ∀ r, (s.entry r).waiters.Nodup
  orderly : ∀ r, (s.entry r).Orderly
  upgrade : ∀ t r m h, (t, m) ∈ (s.entry r).waiters → (t, h) ∈ (s.entry r).holders → h = .shared
  waits : ∀ t r m, s.threads t = .asleep r m → s.waitingFor.lookup t = some r
  blocked : ∀ t r m, s.threads t = .asleep r m → (s.entry r).grantable t m = false
  condemned : ∀ t r m, s.threads t = .asleep r m → s.doomed.lookup t ≠ none →
    ∃ u r' m', s.threads u = .waking r' m' r

theorem Effect.request_other (h : Effect s t s') (hu : u ≠ t) :
    (s'.threads u).request = (s.threads u).request := by
  rcases h.others u hu with hsame | ⟨r, m, hasleep, hwoken⟩
  · rw [hsame]
  · rw [hwoken, hasleep]
    rfl

theorem Effect.asleep_other (h : Effect s t s') (hu : u ≠ t)
    (hasleep : s'.threads u = .asleep r m) : s.threads u = .asleep r m := by
  rcases h.others u hu with hsame | ⟨r', m', -, hwoken⟩
  · exact hsame.symm.trans hasleep
  · rw [hwoken] at hasleep
    cases hasleep

/-- A wake in flight stays in flight while somebody sleeps there. -/
theorem Effect.waking (h : Effect s t s') (hwaking : s.threads u = .waking r m r')
    {x : Nat} (hasleep : s'.threads x = .asleep r' m') : s'.threads u = .waking r m r' := by
  by_cases hu : u = t
  · exact absurd hasleep (h.woke r m r' (hu ▸ hwaking) x m')
  · rcases h.others u hu with hsame | ⟨r'', m'', hasleep', -⟩
    · exact hsame.trans hwaking
    · rw [hwaking] at hasleep'
      cases hasleep'

/-- Two requests of one thread are the same. -/
theorem Coherent.request_unique (h : Coherent s) (h₁ : (t, m) ∈ (s.entry r).waiters)
    (h₂ : (t, m') ∈ (s.entry r').waiters) : r = r' ∧ m = m' := by
  have := ((h.queued t r m).mp h₁).symm.trans ((h.queued t r' m').mp h₂)
  exact Prod.mk.inj (Option.some.inj this)

theorem Coherent.queued_step (h : Coherent s) (he : Effect s t s') (u : Nat) (r : String)
    (m : LockMode) : (u, m) ∈ (s'.entry r).waiters ↔ (s'.threads u).request = some (r, m) := by
  cases he.queueing with
  | stay request waiters =>
      have hreq : (s'.threads u).request = (s.threads u).request := by
        by_cases hu : u = t
        · rw [hu, request]
        · exact he.request_other hu
      rw [waiters, hreq]
      exact h.queued u r m
  | enter r₀ m₀ outside inside wanting waiters =>
      rw [waiters]
      by_cases hu : u = t
      · subst hu
        have hnot : ∀ r m, (u, m) ∉ (s.entry r).waiters := by
          intro r m hmem
          have := (h.queued u r m).mp hmem
          rw [outside] at this
          cases this
        rw [inside]
        split
        · rename_i hr
          rw [hr]
          simp [hnot, ThreadState.request, eq_comm]
        · rename_i hr
          simp [hnot, ThreadState.request, Ne.symm hr]
      · rw [he.request_other hu, ← h.queued u r m]
        split
        · rename_i hr
          rw [hr]
          simp [hu]
        · rfl
  | leave r₀ m₀ outcome inside outside ends waiters =>
      rw [waiters]
      by_cases hu : u = t
      · subst hu
        rw [outside]
        refine iff_of_false ?_ nofun
        intro hmem
        have hqueued : (u, m₀) ∈ (s.entry r₀).waiters :=
          (h.queued u r₀ m₀).mpr (congrArg ThreadState.request inside)
        split at hmem
        · rename_i hr
          have hold := List.mem_of_mem_erase hmem
          obtain ⟨-, rfl⟩ := h.request_unique hold hqueued
          exact (h.waiters_nodup r₀).not_mem_erase hmem
        · rename_i hr
          exact hr (h.request_unique hmem hqueued).1
      · rw [he.request_other hu, ← h.queued u r m]
        split
        · rename_i hr
          rw [hr]
          exact List.mem_erase_of_ne fun heq => hu (congrArg Prod.fst heq)
        · rfl

theorem Coherent.step (h : Coherent s) (he : Effect s t s') : Coherent s' where
  queued := h.queued_step he
  waiters_nodup := by
    intro r
    cases he.queueing with
    | stay request waiters =>
        rw [waiters]
        exact h.waiters_nodup r
    | enter r₀ m₀ outside inside wanting waiters =>
        rw [waiters]
        split
        · rw [List.nodup_append]
          refine ⟨h.waiters_nodup r₀, List.nodup_singleton _, ?_⟩
          rintro x hx y hy rfl
          obtain rfl := List.mem_singleton.mp hy
          have := (h.queued t r₀ m₀).mp hx
          rw [outside] at this
          cases this
        · exact h.waiters_nodup r
    | leave r₀ m₀ outcome inside outside ends waiters =>
        rw [waiters]
        split
        · exact (h.waiters_nodup r₀).erase _
        · exact h.waiters_nodup r
  orderly := fun r => he.orderly r (h.orderly r)
  upgrade := by
    intro u r m held hqueued hheld
    have hreq := (h.queued_step he u r m).mp hqueued
    by_cases hu : u = t
    · subst hu
      rw [he.holders_waiting (by rw [hreq]; exact Option.some_ne_none _)] at hheld
      cases he.queueing with
      | stay request waiters =>
          rw [waiters] at hqueued
          exact h.upgrade u r m held hqueued hheld
      | enter r₀ m₀ outside inside wanting waiters =>
          rw [inside] at hreq
          cases hreq
          rw [LockEntry.sufficient, Dict.lookup_of_mem (h.orderly r).nodup hheld] at wanting
          cases held with
          | shared => rfl
          | exclusive => simp at wanting
      | leave r₀ m₀ outcome inside outside ends waiters =>
          rw [outside] at hreq
          cases hreq
    · rw [he.request_other hu] at hreq
      rw [he.holders_other r u held hu] at hheld
      exact h.upgrade u r m held ((h.queued u r m).mpr hreq) hheld
  waits := by
    intro u r m hasleep
    by_cases hu : u = t
    · exact hu ▸ (he.slept r m (hu ▸ hasleep)).waits
    · rw [he.waitingFor u hu]
      exact h.waits u r m (he.asleep_other hu hasleep)
  blocked := by
    intro u r m hasleep
    by_cases hu : u = t
    · exact hu ▸ (he.slept r m (hu ▸ hasleep)).blocked
    · obtain ⟨hholders, hwaiters⟩ := he.quiet u r m hu hasleep
      exact LockEntry.grantable_of_prefix hholders hwaiters
        (h.blocked u r m (he.asleep_other hu hasleep))
  condemned := by
    intro u r m hasleep hdoomed
    by_cases hu : u = t
    · exact absurd (hu ▸ (he.slept r m (hu ▸ hasleep)).spared) hdoomed
    · have hbefore := he.asleep_other hu hasleep
      rcases he.doomed u hu hdoomed with hold | hnew
      · obtain ⟨w, r', m', hw⟩ := h.condemned u r m hbefore hold
        exact ⟨w, r', m', he.waking hw hasleep⟩
      · obtain ⟨r', m', hw⟩ := hnew r m (h.waits u r m hbefore) hasleep
        exact ⟨t, r', m', hw⟩

theorem coherent_init : Coherent {} where
  queued := fun t r m => iff_of_false List.not_mem_nil nofun
  waiters_nodup := fun _ => List.nodup_nil
  orderly := by
    intro r
    constructor
    · exact List.nodup_nil
    · intro x y h hx
      cases hx
  upgrade := by
    intro t r m h hmem
    cases hmem
  waits := by
    intro t r m hasleep
    cases hasleep
  blocked := by
    intro t r m hasleep
    cases hasleep
  condemned := by
    intro t r m hasleep
    cases hasleep

end LockSystem

end QuillDb
