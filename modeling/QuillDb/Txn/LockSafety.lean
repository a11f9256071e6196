/-
  Txn/LockSafety.lean --- what holds of the lock table in every run.

  Source: `quilldb/txn/locks.py`.

  Holds are compatible and never weaken, grants follow the queue, a request that
  gave up is in no queue, and `release_all` leaves no hold and no record of its
  transaction.  What it does leave is the transaction's name in the cycle that
  condemned another one, which has not run since.
-/
import QuillDb.Txn.Deadlock

set_option autoImplicit false

namespace QuillDb

namespace LockSystem

open CycleSearch

variable {s s' : LockSystem} {t u : Nat} {r r' : String} {m : LockMode} {a : Action}

/-! ## The statements -/

/-- One EXCLUSIVE hold and no other, or SHARED holds only. -/
def Compatible (e : LockEntry) : Prop :=
  (∃ x, e.holders = [(x, .exclusive)]) ∨ ∀ h ∈ e.holders, h.2 = .shared

/-- A hold of `t` on `r` in mode `m` or a stronger one. -/
def HoldsAtLeast (s : LockSystem) (t : Nat) (r : String) (m : LockMode) : Prop :=
  ∃ held, (t, held) ∈ (s.entry r).holders ∧ (m = .exclusive → held = .exclusive)

/-- `t` is inside `release_all`. -/
def Releasing (s : LockSystem) (t : Nat) : Prop := ∃ rest, s.threads t = .releasing rest

/-- `t` holds nothing, is in no queue and has no record of its own. -/
structure Gone (s : LockSystem) (t : Nat) : Prop where
  holds : ∀ r h, (t, h) ∉ (s.entry r).holders
  queued : ∀ r m, (t, m) ∉ (s.entry r).waiters
  waiting : s.waitingFor.lookup t = none
  condemned : s.doomed.lookup t = none

/-- The step that ends `release_all(t)`. -/
def Released (s : LockSystem) (t : Nat) (s' : LockSystem) : Prop :=
  s.threads t = .releasing [] ∧ s.step (.release t) = some s'

/-- An edge of a recorded cycle starts or ends at `t`. -/
def Names (cycle : List (Nat × String × Nat)) (t : Nat) : Prop := ∃ e ∈ cycle, e.1 = t ∨ e.2.2 = t

/-- The step grants `t` a hold on `r`. -/
def Grants (s s' : LockSystem) (t : Nat) (r : String) : Prop :=
  ∃ h, (t, h) ∈ (s'.entry r).holders ∧ (t, h) ∉ (s.entry r).holders

/-! ## The holds of the thread that takes the step -/

theorem holders_leave (s : LockSystem) (t : Nat) (r : String) (m : LockMode) (outcome : Outcome)
    (r' : String) : ((s.leave t r m outcome).entry r').holders = (s.entry r').holders :=
  holders_setEntry (e := (s.entry r).dequeue t m) rfl r'

theorem holders_sleep (s : LockSystem) (t : Nat) (r : String) (m : LockMode) (expired : Bool)
    (r' : String) : ((s.sleep t r m expired).entry r').holders = (s.entry r').holders := by
  unfold sleep
  split
  · exact holders_leave ..
  · rfl

theorem holders_doom (s : LockSystem) (t : Nat) (r : String) (m : LockMode) (expired : Bool)
    (victim : Nat) (cycle : List (Nat × String × Nat)) (r' : String) :
    ((s.doom t r m expired victim cycle).entry r').holders = (s.entry r').holders := by
  unfold doom
  split
  · exact holders_sleep ..
  · simp only
    split
    · exact holders_sleep ..
    · split <;> rfl

/-- How a step changes the holders. -/
inductive Holding (s : LockSystem) (a : Action) (s' : LockSystem) : Prop
  | same (holders : ∀ r, (s'.entry r).holders = (s.entry r).holders)
  | granted (r : String) (m : LockMode) (free : (s.entry r).grantable a.actor m = true)
      (wanting : (s.entry r).sufficient a.actor m = false ∧ s.threads a.actor = .outside ∨
        s.threads a.actor = .checking r m)
      (holders : ∀ r', (s'.entry r').holders =
        if r' = r then (s.entry r).holders.put a.actor m else (s.entry r').holders)
  | dropped (r : String) (rest : List String) (releasing : s.threads a.actor = .releasing (r :: rest))
      (after : s'.threads a.actor = .releasing rest)
      (holders : ∀ r', (s'.entry r').holders =
        if r' = r then (s.entry r).holders.erase a.actor else (s.entry r').holders)

theorem acquire_holding (h : s.threads t = .outside) :
    Holding s (.acquire t r m) (s.acquire t r m) := by
  unfold acquire
  simp only
  split
  · exact .same fun r' => holders_setEntry rfl r'
  · rename_i hsufficient
    split
    · rename_i hgrantable
      refine .granted r m hgrantable (.inl ⟨Bool.eq_false_iff.mpr hsufficient, h⟩) fun r' => ?_
      rw [entry_notifyAll, entry_setEntry]
      split <;> rfl
    · exact .same fun r' => holders_setEntry (e := (s.entry r).enqueue t m) rfl r'

theorem check_holding {expired : Bool} (h : s.threads t = .checking r m) :
    Holding s (.check t expired) (s.check t r m expired) := by
  unfold check
  split
  · rename_i hgrantable
    refine .granted r m hgrantable (.inr h) fun r' => ?_
    rw [holders_leave, entry_setEntry]
    split <;> rfl
  · split
    · exact .same fun r' => holders_leave ..
    · simp only
      split
      · exact .same fun r' => holders_sleep ..
      · split
        · exact .same fun r' => holders_leave ..
        · exact .same fun r' => holders_doom ..

theorem release_holding {rest : List String} (h : s.threads t = .releasing (r :: rest)) :
    Holding s (.release t) (s.release t r rest) := by
  unfold release
  simp only
  split
  · refine .dropped r rest h (threads_setThread_self ..) fun r' => ?_
    rw [entry_setThread, entry_notifyAll, entry_setEntry]
    split <;> rfl
  · exact .same fun r' => rfl

theorem step_holding (h : s.step a = some s') : Holding s a s' := by
  cases a with
  | acquire t r m =>
      simp only [step] at h
      split at h
      · obtain rfl := Option.some.inj h
        exact acquire_holding ‹_›
      · cases h
  | check t expired =>
      simp only [step] at h
      split at h
      · obtain rfl := Option.some.inj h
        exact check_holding ‹_›
      · cases h
  | release t =>
      simp only [step] at h
      split at h
      · obtain rfl := Option.some.inj h
        exact .same fun r => rfl
      · obtain rfl := Option.some.inj h
        exact release_holding ‹_›
      · cases h
  | _ t =>
      simp only [step] at h
      split at h
      · obtain rfl := Option.some.inj h
        exact .same fun r => rfl
      · cases h

/-! ## Holds -/

theorem compatible_of_orderly {e : LockEntry} (h : e.Orderly) : Compatible e := by
  by_cases hex : ∃ x, (x, LockMode.exclusive) ∈ e.holders
  · obtain ⟨x, hx⟩ := hex
    refine .inl ⟨x, ?_⟩
    have hall : ∀ y ∈ e.holders, y = (x, .exclusive) := by
      intro y hy
      have hkey := h.alone x y.1 y.2 hx hy
      exact (List.inj_on_of_nodup_map h.nodup hx hy hkey).symm
    have hnodup := h.nodup.of_map
    generalize e.holders = holders at hx hall hnodup
    rcases holders with _ | ⟨y, _ | ⟨z, rest⟩⟩
    · cases hx
    · rw [hall y (List.mem_singleton_self y)]
    · have hyz := (hall y (by simp)).trans (hall z (by simp)).symm
      exact absurd (hyz ▸ List.mem_cons_self ..) (List.nodup_cons.mp hnodup).1
  · refine .inr fun y hy => ?_
    rcases hmode : y.2 with _ | _
    · rfl
    · exact absurd ⟨y.1, hmode ▸ hy⟩ hex

/-- The thread that is granted a lock held it in SHARED at most. -/
theorem shared_of_wanting (hc : Coherent s) {held : LockMode}
    (hwanting : (s.entry r).sufficient t m = false ∧ s.threads t = .outside ∨
      s.threads t = .checking r m)
    (hheld : (t, held) ∈ (s.entry r).holders) : held = .shared := by
  rcases hwanting with ⟨hsufficient, -⟩ | hchecking
  · have hlookup := Dict.lookup_of_mem (hc.orderly r).nodup hheld
    rw [LockEntry.sufficient, hlookup] at hsufficient
    cases held with
    | shared => rfl
    | exclusive => simp at hsufficient
  · exact hc.upgrade t r m held ((hc.queued t r m).mpr (congrArg ThreadState.request hchecking)) hheld

/-- A step of a thread that is not releasing keeps every hold of it. -/
theorem HoldsAtLeast.step (hc : Coherent s) (hheld : s.HoldsAtLeast t r m)
    (hbusy : ¬ s.Releasing t) (h : s.step a = some s') : s'.HoldsAtLeast t r m := by
  obtain ⟨held, hmem, hstrong⟩ := hheld
  by_cases ht : t = a.actor
  · subst ht
    cases step_holding h with
    | same holders => exact ⟨held, holders r ▸ hmem, hstrong⟩
    | granted r₀ m₀ free wanting holders =>
        by_cases hr : r = r₀
        · subst hr
          have hshared := shared_of_wanting hc wanting hmem
          refine ⟨m₀, ?_, fun hm => ?_⟩
          · rw [holders, if_pos rfl]
            exact Dict.mem_of_lookup ((Dict.lookup_put ..).trans (if_pos rfl))
          · rw [hstrong hm] at hshared
            cases hshared
        · refine ⟨held, ?_, hstrong⟩
          rw [holders, if_neg hr]
          exact hmem
    | dropped r₀ rest releasing after holders => exact absurd ⟨_, releasing⟩ hbusy
  · exact ⟨held, ((step_effect h).holders_other r t held ht).mpr hmem, hstrong⟩

/-- Where a step leaves a thread that had no request in a queue. -/
theorem unqueued_step (h : s.step a = some s') (hidle : (s.threads a.actor).request = none) :
    s'.threads a.actor = .outside ∨ (∃ r m, s'.threads a.actor = .checking r m) ∨
      (a = .releaseAll a.actor ∨ s.Releasing a.actor) ∧ s'.Releasing a.actor := by
  cases a with
  | acquire t r m =>
      simp only [LockSystem.step] at h
      split at h
      · rename_i houtside
        obtain rfl := Option.some.inj h
        rw [Action.actor, acquire]
        split
        · exact .inl (by rw [threads_setEntry, houtside])
        · split
          · exact .inl (by rw [threads_notifyAll, threads_setEntry, houtside]; rfl)
          · exact .inr (.inl ⟨r, m, threads_setThread_self ..⟩)
      · cases h
  | check t expired =>
      simp only [LockSystem.step] at h
      split at h
      · rename_i hchecking
        rw [Action.actor, hchecking] at hidle
        cases hidle
      · cases h
  | wake t =>
      simp only [LockSystem.step] at h
      split at h
      · rename_i hwaking
        rw [Action.actor, hwaking] at hidle
        cases hidle
      · cases h
  | timeout t =>
      simp only [LockSystem.step] at h
      split at h
      · rename_i hasleep
        rw [Action.actor, hasleep] at hidle
        cases hidle
      · cases h
  | settle t =>
      simp only [LockSystem.step] at h
      split at h
      · obtain rfl := Option.some.inj h
        exact .inl (threads_setThread_self ..)
      · cases h
  | releaseAll t =>
      simp only [LockSystem.step] at h
      split at h
      · obtain rfl := Option.some.inj h
        exact .inr (.inr ⟨.inl rfl, _, threads_setThread_self ..⟩)
      · cases h
  | release t =>
      simp only [LockSystem.step] at h
      split at h
      · obtain rfl := Option.some.inj h
        exact .inl (threads_setThread_self ..)
      · obtain rfl := Option.some.inj h
        exact .inr (.inr ⟨.inr ⟨_, ‹_›⟩, _, threads_setThread_self ..⟩)
      · cases h

/-- Only `release_all` enters its loop. -/
theorem Releasing.before (hreleasing : s'.Releasing t) (h : s.step a = some s') :
    a = .releaseAll t ∨ s.Releasing t := by
  obtain ⟨rest, hrest⟩ := hreleasing
  by_cases ht : t = a.actor
  · subst ht
    cases (step_effect h).queueing with
    | enter r m outside inside wanting waiters =>
        rw [inside] at hrest
        cases hrest
    | leave r m outcome inside outside ends waiters =>
        rw [outside] at hrest
        cases hrest
    | stay request waiters =>
        have hidle : (s.threads a.actor).request = none := by
          rw [← request, hrest]
          rfl
        rcases unqueued_step h hidle with houtside | ⟨r, m, hchecking⟩ | ⟨hbefore, -⟩
        · rw [houtside] at hrest
          cases hrest
        · rw [hchecking] at hrest
          cases hrest
        · exact hbefore
  · rcases (step_effect h).others t ht with hsame | ⟨r, m, -, hwoken⟩
    · exact .inr ⟨rest, hsame ▸ hrest⟩
    · rw [hrest] at hwoken
      cases hwoken

/-! ## After `release_all` -/

/-- `release_all` still has to visit every resource that its transaction holds. -/
def Remaining (s : LockSystem) : Prop :=
  ∀ t rest, s.threads t = .releasing rest → ∀ r h, (t, h) ∈ (s.entry r).holders → r ∈ rest

theorem Remaining.step (hr : Remaining s) (h : s.step a = some s') : Remaining s' := by
  intro t rest hrest r held hheld
  by_cases ht : t = a.actor
  · rcases Releasing.before ⟨rest, hrest⟩ h with rfl | ⟨rest₀, hrest₀⟩
    · simp only [LockSystem.step] at h
      split at h
      · obtain rfl := Option.some.inj h
        rw [Action.actor] at ht
        rw [threads_setThread_self] at hrest
        obtain rfl := ThreadState.releasing.inj hrest
        -- a resource with a holder has an entry
        rcases hlookup : s.locks.lookup r with _ | e
        · rw [entry_setThread, entry, hlookup] at hheld
          cases hheld
        · exact Dict.key_mem_of_lookup hlookup
      · cases h
    · subst ht
      cases a with
      | release t =>
          have hrest₀ : s.threads t = .releasing rest₀ := hrest₀
          simp only [LockSystem.step, hrest₀] at h
          rcases rest₀ with _ | ⟨r₀, rest₀⟩
          · obtain rfl := Option.some.inj h
            rw [Action.actor, settle, threads_setThread_self] at hrest
            cases hrest
          · obtain rfl := Option.some.inj h
            rw [Action.actor, release, threads_setThread_self] at hrest
            obtain rfl := ThreadState.releasing.inj hrest
            have hmem : (t, held) ∈ (s.entry r).holders ∧ r ≠ r₀ := by
              cases hlookup : (s.entry r₀).holders.lookup t with
              | none =>
                  simp only [Action.actor, release, hlookup, entry_setThread] at hheld
                  refine ⟨hheld, fun hr₀ => ?_⟩
                  obtain ⟨b, hb⟩ := Dict.lookup_isSome_of_mem (hr₀ ▸ hheld)
                  rw [hlookup] at hb
                  cases hb
              | some held₀ =>
                  simp only [Action.actor, release, hlookup, entry_setThread, entry_notifyAll,
                    entry_setEntry] at hheld
                  split at hheld
                  · exact absurd rfl (Dict.mem_erase.mp hheld).1
                  · exact ⟨hheld, ‹_›⟩
            exact List.mem_of_ne_of_mem hmem.2 (hr t _ hrest₀ r held hmem.1)
      | acquire t r m => simp [LockSystem.step, show s.threads t = _ from hrest₀] at h
      | check t expired => simp [LockSystem.step, show s.threads t = _ from hrest₀] at h
      | _ t => simp [LockSystem.step, show s.threads t = _ from hrest₀] at h
  · have he := step_effect h
    rcases he.others t ht with hsame | ⟨r₁, m₁, -, hwoken⟩
    · exact hr t rest (hsame ▸ hrest) r held ((he.holders_other r t held ht).mp hheld)
    · rw [hrest] at hwoken
      cases hwoken

theorem Run.remaining {ok : LockSystem → Action → Prop} {ended : List (Nat × Outcome)}
    (h : Run ok {} ended s) : Remaining s := by
  induction h with
  | refl =>
      intro t rest hrest
      cases hrest
  | step run meets stepped ih => exact ih.step stepped

/-! ## What a walk returns -/

/-- The edges of a detected cycle follow the records to the holders. -/
structure Detected (s : LockSystem) (t victim : Nat) (cycle : List (Nat × String × Nat)) :
    Prop where
  closed : IsCycle Follows cycle
  victim : victim ∈ cycle.map Prod.fst
  edges : ∀ e ∈ cycle, s.waitingFor.lookup e.1 = some e.2.1 ∧ (s.entry e.2.1).Holds e.2.2 ∧
    e.2.2 ≠ e.1
  nodes : IsCycle (Edge s.holdersBlocking) (cycle.map Prod.fst)
  reached : ∀ x ∈ cycle.map Prod.fst, Relation.ReflTransGen (Edge s.holdersBlocking) t x

theorem detected {victim : Nat} {cycle : List (Nat × String × Nat)}
    (h : s.detectDeadlock t = some (victim, cycle)) : Detected s t victim cycle := by
  obtain ⟨⟨c, es⟩, hfound, heq⟩ := Option.map_eq_some_iff.mp h
  obtain ⟨rfl, rfl⟩ := Prod.mk.inj heq
  obtain ⟨hcycle, hreach⟩ := search_sound hfound (List.isChain_singleton t)
  obtain ⟨hclosed, hnodes, hedges⟩ := search_edges hfound rfl
    (fun e he => by cases he) List.isChain_nil (fun e he => by cases he)
  simp only at hclosed hnodes hedges ⊢
  have hvictim : c.foldl max 0 ∈ es.map Prod.fst := by
    rw [hnodes]
    exact foldl_max_mem hcycle.ne_nil
  refine ⟨hclosed, hvictim, fun e he => ?_, hnodes.symm ▸ hcycle, fun x hx => ?_⟩
  · have hmem := hedges e he
    unfold holdersBlocking at hmem
    split at hmem
    · cases hmem
    · rename_i r hwaiting
      split at hmem
      · cases hmem
      · rename_i entry hlookup
        obtain ⟨x, hx, heq⟩ := List.mem_map.mp hmem
        obtain ⟨hx, hne⟩ := List.mem_filter.mp hx
        obtain ⟨⟨y, held⟩, hheld, rfl⟩ := List.mem_map.mp hx
        obtain ⟨hr, hy⟩ := Prod.mk.inj heq
        rw [← hr, ← hy]
        refine ⟨hwaiting, ⟨held, ?_⟩, by simpa using hne⟩
        rw [LockSystem.entry, hlookup]
        exact hheld
  · rcases hreach x (hnodes ▸ hx) with hnil | hpath
    · cases hnil
    · exact hpath

/-- A detected cycle names only transactions that are recorded as waiting. -/
theorem Detected.waiting {victim : Nat} {cycle : List (Nat × String × Nat)}
    (hd : Detected s t victim cycle) (h : Names cycle u) : s.waitingFor.lookup u ≠ none := by
  obtain ⟨e, he, rfl | rfl⟩ := h
  · rw [(hd.edges e he).1]
    exact Option.some_ne_none _
  · obtain ⟨e', he', hnext⟩ := hd.closed.successor he
    rw [show e.2.2 = e'.1 from hnext, (hd.edges e' he').1]
    exact Option.some_ne_none _

theorem Detected.names_victim {victim : Nat} {cycle : List (Nat × String × Nat)}
    (hd : Detected s t victim cycle) : Names cycle victim := by
  obtain ⟨e, he, heq⟩ := List.mem_map.mp hd.victim
  exact ⟨e, he, .inl heq⟩

theorem doomed_sleep (s : LockSystem) (t : Nat) (r : String) (m : LockMode) (expired : Bool) :
    (s.sleep t r m expired).doomed = s.doomed := by
  unfold sleep
  split <;> rfl

theorem doomed_doom {expired : Bool} {victim : Nat} {cycle c : List (Nat × String × Nat)}
    (h : (s.doom t r m expired victim cycle).doomed.lookup u = some c) :
    s.doomed.lookup u = some c ∨ u = victim ∧ c = cycle := by
  have hput : (s.doomed.put victim cycle).lookup u = some c →
      s.doomed.lookup u = some c ∨ u = victim ∧ c = cycle := by
    intro h
    rw [Dict.lookup_put] at h
    split at h
    · exact .inr ⟨‹_›, (Option.some.inj h).symm⟩
    · exact .inl h
  unfold doom at h
  split at h
  · rw [doomed_sleep] at h
    exact .inl h
  · simp only at h
    split at h
    · rw [doomed_sleep] at h
      exact hput h
    · split at h <;> exact hput h

/-- A record of a condemned transaction is the result of another one's walk. -/
theorem doomed_step {c : List (Nat × String × Nat)} (h : s.step a = some s')
    (hdoomed : s'.doomed.lookup u = some c) :
    s.doomed.lookup u = some c ∨ u ≠ a.actor ∧
      ∃ r m, s.threads a.actor = .checking r m ∧
        { s with waitingFor := s.waitingFor.put a.actor r }.detectDeadlock a.actor =
          some (u, c) := by
  have herase : ∀ t, (s.doomed.erase t).lookup u = some c → s.doomed.lookup u = some c := by
    intro t h
    rw [Dict.lookup_erase] at h
    split at h
    · cases h
    · exact h
  cases a with
  | check t expired =>
      simp only [LockSystem.step] at h
      split at h
      · rename_i r m hchecking
        obtain rfl := Option.some.inj h
        unfold check at hdoomed
        split at hdoomed
        · exact .inl hdoomed
        · split at hdoomed
          · exact .inl (herase t hdoomed)
          · simp only at hdoomed
            split at hdoomed
            · rw [doomed_sleep] at hdoomed
              exact .inl hdoomed
            · rename_i victim cycle hfound
              split at hdoomed
              · exact .inl hdoomed
              · rename_i hvictim
                rcases doomed_doom hdoomed with hold | ⟨rfl, rfl⟩
                · exact .inl hold
                · exact .inr ⟨hvictim, r, m, hchecking, hfound⟩
      · cases h
  | settle t =>
      simp only [LockSystem.step] at h
      split at h
      · obtain rfl := Option.some.inj h
        exact .inl (herase t hdoomed)
      · cases h
  | release t =>
      simp only [LockSystem.step] at h
      split at h
      · obtain rfl := Option.some.inj h
        exact .inl (herase t hdoomed)
      · obtain rfl := Option.some.inj h
        unfold release at hdoomed
        simp only at hdoomed
        split at hdoomed <;> exact .inl hdoomed
      · cases h
  | acquire t r m =>
      simp only [LockSystem.step] at h
      split at h
      · obtain rfl := Option.some.inj h
        unfold acquire at hdoomed
        simp only at hdoomed
        split at hdoomed
        · exact .inl hdoomed
        · split at hdoomed <;> exact .inl hdoomed
      · cases h
  | _ t =>
      simp only [LockSystem.step] at h
      split at h
      · obtain rfl := Option.some.inj h
        exact .inl hdoomed
      · cases h

/-- A step of another thread condemns only a transaction recorded as waiting. -/
theorem condemned_step (hu : u ≠ a.actor) (h : s.step a = some s')
    (hspared : s.doomed.lookup u = none) (hidle : s.waitingFor.lookup u = none) :
    s'.doomed.lookup u = none := by
  rcases hdoomed : s'.doomed.lookup u with _ | c
  · rfl
  · rcases doomed_step h hdoomed with hold | ⟨-, r, m, -, hfound⟩
    · rw [hspared] at hold
      cases hold
    · have hd := detected hfound
      exact absurd (((Dict.lookup_put ..).trans (if_neg hu)).trans hidle) (hd.waiting hd.names_victim)

/-- No record made while `t` is idle names it. -/
theorem named_step {c : List (Nat × String × Nat)} (hidle : s.waitingFor.lookup t = none)
    (hrequest : (s.threads t).request = none) (h : s.step a = some s')
    (hdoomed : s'.doomed.lookup u = some c) (hnames : Names c t) : s.doomed.lookup u = some c := by
  rcases doomed_step h hdoomed with hold | ⟨-, r, m, hchecking, hfound⟩
  · exact hold
  · have ht : t ≠ a.actor := by
      rintro rfl
      rw [hchecking] at hrequest
      cases hrequest
    exact absurd (((Dict.lookup_put ..).trans (if_neg ht)).trans hidle)
      ((detected hfound).waiting hnames)

/-- The end of `release_all` leaves nothing behind. -/
theorem Released.gone (hc : Coherent s) (hr : Remaining s) (h : Released s t s') :
    Gone s' t ∧ s'.threads t = .outside := by
  obtain ⟨hreleasing, hstep⟩ := h
  simp only [LockSystem.step, hreleasing] at hstep
  obtain rfl := Option.some.inj hstep
  refine ⟨⟨fun r held hheld => ?_, fun r m hqueued => ?_, ?_, ?_⟩, threads_setThread_self ..⟩
  · cases hr t [] hreleasing r held hheld
  · have := (hc.queued t r m).mp hqueued
    rw [hreleasing] at this
    cases this
  · exact (Dict.lookup_erase ..).trans (if_pos rfl)
  · exact (Dict.lookup_erase ..).trans (if_pos rfl)

/-- The end of `release_all` condemns nobody. -/
theorem Released.condemned {c : List (Nat × String × Nat)} (h : Released s t s')
    (hdoomed : s'.doomed.lookup u = some c) : s.doomed.lookup u = some c := by
  rcases doomed_step h.2 hdoomed with hold | ⟨-, r, m, hchecking, -⟩
  · exact hold
  · rw [Action.actor, h.1] at hchecking
    cases hchecking

/-- What an idle transaction does before its next request. -/
theorem idle_step (hidle : s.threads a.actor = .outside ∨ s.Releasing a.actor)
    (hno : ∀ r m, a ≠ .acquire a.actor r m) (h : s.step a = some s') :
    (∃ rest, s' = s.setThread a.actor (.releasing rest)) ∨ s' = s.settle a.actor ∨
      ∃ r rest, s' = s.release a.actor r rest := by
  rcases hidle with houtside | ⟨rest, hrest⟩
  · cases a with
    | acquire t r m => exact absurd rfl (hno r m)
    | releaseAll t =>
        simp only [LockSystem.step, show s.threads t = _ from houtside] at h
        exact .inl ⟨_, (Option.some.inj h).symm⟩
    | check t expired => simp [LockSystem.step, show s.threads t = _ from houtside] at h
    | _ t => simp [LockSystem.step, show s.threads t = _ from houtside] at h
  · cases a with
    | acquire t r m => exact absurd rfl (hno r m)
    | release t =>
        simp only [LockSystem.step, show s.threads t = _ from hrest] at h
        rcases rest with _ | ⟨r, rest⟩
        · exact .inr (.inl (Option.some.inj h).symm)
        · exact .inr (.inr ⟨r, rest, (Option.some.inj h).symm⟩)
    | check t expired => simp [LockSystem.step, show s.threads t = _ from hrest] at h
    | _ t => simp [LockSystem.step, show s.threads t = _ from hrest] at h

theorem mem_holders_release {rest : List String} {x : Nat} {held : LockMode}
    (h : (x, held) ∈ ((s.release t r rest).entry r').holders) :
    (x, held) ∈ (s.entry r').holders := by
  unfold release at h
  simp only [entry_setThread] at h
  split at h
  · rw [entry_notifyAll, entry_setEntry] at h
    split at h
    · rename_i hr
      rw [hr]
      exact (Dict.mem_erase.mp h).2
    · exact h
  · exact h

/-- Nothing is about `t`, and `t` has asked for nothing. -/
def Absent (s : LockSystem) (t : Nat) : Prop :=
  Gone s t ∧ (s.threads t = .outside ∨ s.Releasing t)

theorem Absent.request (hg : Absent s t) : (s.threads t).request = none := by
  rcases hg.2 with houtside | ⟨rest, hrest⟩
  · rw [houtside]
    rfl
  · rw [hrest]
    rfl

/-- Until its next request nothing is recorded about the transaction again. -/
theorem Absent.step (hc : Coherent s) (hg : Absent s t) (hno : ∀ r m, a ≠ .acquire t r m)
    (h : s.step a = some s') : Absent s' t := by
  have he := step_effect h
  obtain ⟨hgone, hidle⟩ := hg
  have hidle' : s'.threads t = .outside ∨ s'.Releasing t := by
    by_cases ht : t = a.actor
    · subst ht
      rcases idle_step hidle hno h with ⟨rest, rfl⟩ | rfl | ⟨r, rest, rfl⟩
      · exact .inr ⟨rest, threads_setThread_self ..⟩
      · exact .inl (threads_setThread_self ..)
      · exact .inr ⟨rest, threads_setThread_self ..⟩
    · rcases he.others t ht with hsame | ⟨r, m, hasleep, -⟩
      · exact hidle.imp hsame.trans fun ⟨rest, hrest⟩ => ⟨rest, hsame.trans hrest⟩
      · rcases hidle with hidle | ⟨rest, hidle⟩
        · rw [hasleep] at hidle
          cases hidle
        · rw [hasleep] at hidle
          cases hidle
  refine ⟨⟨fun r held hheld => ?_, fun r m hqueued => ?_, ?_, ?_⟩, hidle'⟩
  · by_cases ht : t = a.actor
    · subst ht
      rcases idle_step hidle hno h with ⟨rest, rfl⟩ | rfl | ⟨r₀, rest, rfl⟩
      · exact hgone.holds r held hheld
      · exact hgone.holds r held hheld
      · exact hgone.holds r held (mem_holders_release hheld)
    · exact hgone.holds r held ((he.holders_other r t held ht).mp hheld)
  · have := ((hc.step he).queued t r m).mp hqueued
    rcases hidle' with hidle' | ⟨rest, hidle'⟩
    · rw [hidle'] at this
      cases this
    · rw [hidle'] at this
      cases this
  · by_cases ht : t = a.actor
    · subst ht
      rcases idle_step hidle hno h with ⟨rest, rfl⟩ | rfl | ⟨r₀, rest, rfl⟩
      · exact hgone.waiting
      · exact (Dict.lookup_erase ..).trans (if_pos rfl)
      · unfold release
        simp only
        split <;> exact hgone.waiting
    · rw [he.waitingFor t ht]
      exact hgone.waiting
  · by_cases ht : t = a.actor
    · subst ht
      rcases idle_step hidle hno h with ⟨rest, rfl⟩ | rfl | ⟨r₀, rest, rfl⟩
      · exact hgone.condemned
      · exact (Dict.lookup_erase ..).trans (if_pos rfl)
      · unfold release
        simp only
        split <;> exact hgone.condemned
    · exact condemned_step ht h hgone.condemned hgone.waiting

/-! ## Grants -/

/-- A request is granted at the front of its queue, or where nobody queues. -/
theorem Grants.first (hgrant : Grants s s' t r) (h : s.step a = some s') :
    (s.entry r).waiters = [] ∨ ∃ m rest, (s.entry r).waiters = (t, m) :: rest := by
  obtain ⟨held, hafter, hbefore⟩ := hgrant
  by_cases ht : t = a.actor
  · cases step_holding h with
    | same holders => exact absurd (holders r ▸ hafter) hbefore
    | granted r₀ m free wanting holders =>
        rw [holders] at hafter
        split at hafter
        · rename_i hr
          subst hr
          have hfront := (Bool.and_eq_true_iff.mp free).1
          rcases hqueue : (s.entry r).waiters with _ | ⟨⟨x, mx⟩, rest⟩
          · exact .inl rfl
          · rw [hqueue, decide_eq_true_eq] at hfront
            exact .inr ⟨mx, rest, by rw [ht, ← hfront]⟩
        · exact absurd hafter hbefore
    | dropped r₀ rest releasing after holders =>
        rw [holders] at hafter
        split at hafter
        · rename_i hr
          subst hr
          exact absurd (Dict.mem_erase.mp hafter).2 hbefore
        · exact absurd hafter hbefore
  · exact absurd (((step_effect h).holders_other r t held ht).mp hafter) hbefore

/-! ## Every run -/

/-- A run that starts in a coherent state keeps the holds of a transaction that
does not call `release_all`. -/
theorem Run.keeps_hold {later : List (Nat × Outcome)} (hc : Coherent s) (hheld : s.HoldsAtLeast t r m)
    (hbusy : ¬ s.Releasing t) (h : Run (fun _ a => a ≠ .releaseAll t) s later s') :
    s'.HoldsAtLeast t r m ∧ Coherent s' ∧ ¬ s'.Releasing t := by
  induction h with
  | refl => exact ⟨hheld, hc, hbusy⟩
  | step run meets stepped ih =>
      obtain ⟨hheld, hc, hbusy⟩ := ih
      refine ⟨hheld.step hc hbusy stepped, hc.step (step_effect stepped), fun hreleasing => ?_⟩
      rcases hreleasing.before stepped with heq | hbefore
      · exact meets heq
      · exact hbusy hbefore

/-- The records that name an absent transaction are those that did already. -/
theorem Run.stays_absent {later : List (Nat × Outcome)} (hc : Coherent s) (hg : Absent s t)
    (h : Run (fun _ a => ∀ r m, a ≠ .acquire t r m) s later s') :
    Absent s' t ∧ Coherent s' ∧
      ∀ u c, s'.doomed.lookup u = some c → Names c t → s.doomed.lookup u = some c := by
  induction h with
  | refl => exact ⟨hg, hc, fun _ _ hdoomed _ => hdoomed⟩
  | step run meets stepped ih =>
      obtain ⟨hg, hc, hnamed⟩ := ih
      refine ⟨hg.step hc meets stepped, hc.step (step_effect stepped), fun u c hdoomed hnames => ?_⟩
      exact hnamed u c (named_step hg.1.waiting hg.request stepped hdoomed hnames) hnames

/-- The lock table in every reachable state and along every run from there. -/
theorem lock_table_safe (ended : List (Nat × Outcome)) (s : LockSystem)
    (run : Run (fun _ _ => True) {} ended s) :
    (∀ r, Compatible (s.entry r) ∧ ((s.entry r).holders.map Prod.fst).Nodup) ∧
    (∀ t r m, s.HoldsAtLeast t r m → ¬ s.Releasing t →
      ∀ later s', Run (fun _ a => a ≠ .releaseAll t) s later s' → s'.HoldsAtLeast t r m) ∧
    (∀ t s₁, Released s t s₁ → ∀ later s',
      Run (fun _ a => ∀ r m, a ≠ .acquire t r m) s₁ later s' → Gone s' t ∧
        ∀ u c, s'.doomed.lookup u = some c → Names c t → s.doomed.lookup u = some c) ∧
    (∀ t r m, (t, m) ∈ (s.entry r).waiters → (s.threads t).request = some (r, m)) ∧
    (∀ a s' t r, s.step a = some s' → Grants s s' t r →
      (s.entry r).waiters = [] ∨ ∃ m rest, (s.entry r).waiters = (t, m) :: rest) := by
  have hc := run.coherent
  refine ⟨fun r => ⟨compatible_of_orderly (hc.orderly r), (hc.orderly r).nodup⟩, ?_, ?_, ?_, ?_⟩
  · intro t r m hheld hbusy later s' hrun
    exact (hrun.keeps_hold hc hheld hbusy).1
  · intro t s₁ hreleased later s' hrun
    obtain ⟨hgone, houtside⟩ := hreleased.gone hc run.remaining
    obtain ⟨⟨hgone', -⟩, -, hnamed⟩ :=
      hrun.stays_absent (hc.step (step_effect hreleased.2)) ⟨hgone, .inl houtside⟩
    exact ⟨hgone', fun u c hdoomed hnames => hreleased.condemned (hnamed u c hdoomed hnames)⟩
  · exact fun t r m hqueued => (hc.queued t r m).mp hqueued
  · exact fun a s' t r hstep hgrant => hgrant.first hstep

/-- Transaction 1 has closed a cycle and condemned 2, which waits on 1; before 2
runs, 1 times out and releases all it holds. -/
def detectorReleased : LockSystem :=
  let s := (({} : LockSystem).acquire 1 "a" .exclusive).acquire 2 "b" .exclusive
  let s := (s.acquire 2 "a" .exclusive).check 2 "a" .exclusive false
  let s := (s.acquire 1 "b" .exclusive).check 1 "b" .exclusive false
  let s := (s.notifyAll "a").setThread 1 (.checking "b" .exclusive)
  let s := ((s.check 1 "b" .exclusive true).settle 1).setThread 1 (.releasing ["a", "b"])
  (s.release 1 "a" ["b"]).release 1 "b" []

theorem detectorReleased_run : Run (fun _ _ => True) {}
    [(1, .error (.lockTimeout "txn 1 timed out waiting for EXCLUSIVE on 'b'"))]
    detectorReleased :=
  .step (a := .release 1) (.step (a := .release 1) (.step (a := .releaseAll 1)
    (.step (a := .settle 1) (.step (a := .check 1 true) (.step (a := .wake 1)
      (.step (a := .check 1 false) (.step (a := .acquire 1 "b" .exclusive)
        (.step (a := .check 2 false) (.step (a := .acquire 2 "a" .exclusive)
          (.step (a := .acquire 2 "b" .exclusive) (.step (a := .acquire 1 "a" .exclusive)
            (.refl {}) trivial rfl) trivial rfl) trivial rfl) trivial rfl) trivial rfl)
        trivial rfl) trivial rfl) trivial rfl) trivial rfl) trivial rfl) trivial rfl) trivial rfl

/-- `release_all` leaves its transaction in the cycle that condemned another. -/
theorem released_still_named : ¬ ∀ ended s, Run (fun _ _ => True) {} ended s →
    ∀ t s', Released s t s' → ∀ u c, s'.doomed.lookup u = some c → u ≠ t ∧ ¬ Names c t := by
  intro hnone
  refine (hnone _ _ detectorReleased_run 1 (detectorReleased.settle 1) ⟨rfl, rfl⟩
    2 [(1, "b", 2), (2, "a", 1)] rfl).2 ?_
  exact ⟨(1, "b", 2), List.mem_cons_self .., .inl rfl⟩

/-- There 2 is queued still and 1 is gone. -/
theorem lock_table_safe_queued :
    Compatible (detectorReleased.entry "b") ∧
      (detectorReleased.threads 2).request = some ("a", .exclusive) ∧
      Gone (detectorReleased.settle 1) 1 := by
  have h := lock_table_safe _ _ detectorReleased_run
  exact ⟨(h.1 "b").1, h.2.2.2.1 2 "a" .exclusive (by decide),
    (h.2.2.1 1 (detectorReleased.settle 1) ⟨rfl, rfl⟩ _ _ (.refl _)).1⟩

end LockSystem

end QuillDb
