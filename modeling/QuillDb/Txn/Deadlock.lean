/-
  Txn/Deadlock.lean --- which deadlocks the lock manager detects.

  Source: `quilldb/txn/locks.py`, `docs/concurrency.md`.

  A thread that goes to sleep has walked the graph first, and every other step
  wakes whom it concerns; so a stuck set or an unwatched cycle could only be
  completed by a walk that overlooks it.
-/
import QuillDb.Txn.WaitsFor

set_option autoImplicit false

namespace QuillDb

namespace LockSystem

open CycleSearch

variable {s s' : LockSystem} {t u w x : Nat} {r r' : String} {m m' : LockMode}

/-! ## No stuck set -/

/-- A thread asleep through a step of another keeps what it waits for. -/
theorem WaitsFor.after (h : Coherent s) (he : Effect s t s') (hu : u ≠ t)
    (hsleep : s'.threads u = .asleep r m) (hx : s.WaitsFor u x) : s'.WaitsFor u x := by
  have hq := (h.queued u r m).mpr
    (congrArg ThreadState.request (he.asleep_other hu hsleep))
  obtain ⟨hholders, hwaiters⟩ := he.quiet u r m hu hsleep
  cases hx with
  | holder r' m' queued other blocks =>
      obtain ⟨rfl, rfl⟩ := h.request_unique hq queued
      refine .holder r m (hwaiters.subset hq) other ?_
      rwa [LockEntry.Blocks, hholders]
  | ahead r' m' k order =>
      obtain ⟨rfl, rfl⟩ := h.request_unique hq (mem_of_order order).2
      exact .ahead r m k (order.trans hwaiters.sublist)

/-- A set stuck after a step whose thread is not among the sleepers was stuck
before it. -/
theorem Stuck.before {D : Set Nat} (h : Coherent s) (he : Effect s t s') (hD : s'.Stuck D)
    (ht : t ∉ D) : s.Stuck D where
  nonempty := hD.nonempty
  asleep := by
    intro u hu
    obtain ⟨r, m, hsleep, hunwoken⟩ := hD.asleep u hu
    refine ⟨r, m, he.asleep_other (ne_of_mem_of_not_mem hu ht) hsleep, ?_⟩
    intro w r' m' hwaking
    exact hunwoken w r' m' (he.waking hwaking hsleep)
  closed := by
    intro u hu x hx
    obtain ⟨r, m, hsleep, -⟩ := hD.asleep u hu
    exact hD.closed u hu x (hx.after h he (ne_of_mem_of_not_mem hu ht) hsleep)

theorem Run.coherent {ok : LockSystem → Action → Prop} {ended : List (Nat × Outcome)}
    (h : Run ok {} ended s) : Coherent s := by
  induction h with
  | refl => exact coherent_init
  | step run meets stepped ih => exact ih.step (step_effect stepped)

theorem Run.upgradesClear {ok : LockSystem → Action → Prop} {ended : List (Nat × Outcome)}
    (hok : ∀ s a, ok s a → s.UpgradesFirst a) (h : Run ok {} ended s) : UpgradesClear s := by
  induction h with
  | refl =>
      intro t r m f hholds horder
      cases horder
  | step run meets stepped ih => exact ih.step run.coherent (hok _ _ meets) stepped

/-- Every cycle of the waits-for relation has a member that is awake or
condemned. -/
def Watched (s : LockSystem) : Prop :=
  ∀ c, IsCycle s.WaitsFor c →
    ∃ t ∈ c, (∀ r m, s.threads t ≠ .asleep r m) ∨ s.doomed.lookup t ≠ none

theorem WaitsFor.before (hc : Coherent s) (hc' : Coherent s') (he : Effect s t s') (hw : w ≠ t)
    (hx : x ≠ t) (hwsleep : s'.threads w = .asleep r m)
    (h : s'.WaitsFor w x) : s.WaitsFor w x := by
  have hq := (hc.queued w r m).mpr (congrArg ThreadState.request (he.asleep_other hw hwsleep))
  have hq' := (hc'.queued w r m).mpr (congrArg ThreadState.request hwsleep)
  cases h with
  | holder r₀ m₀ queued other blocks =>
      obtain ⟨rfl, rfl⟩ := hc'.request_unique hq' queued
      obtain ⟨held, hheld, hincompatible⟩ := blocks
      exact .holder r m hq other ⟨held, (he.holders_other r x held hx).mp hheld, hincompatible⟩
  | ahead r₀ m₀ k order => exact .ahead r₀ m₀ k (he.order_before hw order)

/-- A thread does not go to sleep on a cycle whose members are all asleep and
spared. -/
theorem Slept.watched {c : List Nat} (h : Coherent s') (hup : UpgradesClear s')
    (hshown : ∀ c d, IsCycle (Edge s'.holdersBlocking) c → IsCycle (Edge s'.holdersBlocking) d →
      (∀ x ∈ c, Relation.ReflTransGen (Edge s'.holdersBlocking) t x) →
      (∀ x ∈ d, Relation.ReflTransGen (Edge s'.holdersBlocking) t x) →
        s.doomed.lookup (c.foldl max 0) ≠ none → c.foldl max 0 ∈ d)
    (hslept : Slept s t r m s') (hc : IsCycle s'.WaitsFor c) (ht : t ∈ c)
    (hasleep : ∀ u ∈ c, ∃ r m, s'.threads u = .asleep r m) :
    ∃ u ∈ c, s'.doomed.lookup u ≠ none := by
  have hwaits : ∀ u ∈ c, ∃ x ∈ c, s'.WaitsFor u x := fun u hu => hc.successor hu
  obtain ⟨found, cycle, hfound, hcycle, hreach⟩ :=
    detects (S := fun u => u ∈ c) h hup hasleep hwaits ht
  obtain ⟨inside, hinside, hsubset, hreach'⟩ := exists_cycle ht
    (R := Edge s'.holdersBlocking) fun u hu => by
      obtain ⟨x, hedge, hx⟩ := exists_edge (S := fun u => u ∈ c) h hup hasleep hwaits hu
      exact ⟨x, hx, hedge⟩
  rcases hslept.unseen with hnone | ⟨victim, cycle', hfound', -, hdoomed⟩
  · rw [hfound] at hnone
    cases hnone
  · rw [hfound] at hfound'
    cases hfound'
    rcases hdoomed with ⟨hbefore, hdoomed⟩ | hidle
    · exact ⟨_, hsubset (hshown found inside hcycle hinside hreach hreach' hbefore), hdoomed⟩
    · -- on a cycle of the walk each member waits
      obtain ⟨x, -, hedge⟩ := hcycle.successor (foldl_max_mem hcycle.ne_nil)
      obtain ⟨r', hwait, -⟩ := edge_holdersBlocking.mp hedge
      rw [hwait] at hidle
      cases hidle

/-- Only a round of the wait loop goes to sleep. -/
theorem check_of_slept {a : Action} (h : s.step a = some s')
    (hawake : s.threads a.actor = .checking r m) : ∃ expired, a = .check a.actor expired := by
  cases a with
  | check t expired => exact ⟨expired, rfl⟩
  | acquire t r₀ m₀ => simp [step, show s.threads t = .checking r m from hawake] at h
  | _ t => simp [step, show s.threads t = .checking r m from hawake] at h

theorem Watched.step {a : Action} (hc : Coherent s) (hup : UpgradesClear s) (hw : Watched s)
    (hok : s.UpgradesFirst a ∧ s.NoneHidden a) (h : s.step a = some s') : Watched s' := by
  have he := step_effect h
  have hc' := hc.step he
  have hup' := hup.step hc hok.1 h
  intro c hcycle
  by_contra hnone
  have hasleep : ∀ u ∈ c, ∃ r m, s'.threads u = .asleep r m := by
    intro u hu
    by_contra hawake
    exact hnone ⟨u, hu, .inl fun r m hsleep => hawake ⟨r, m, hsleep⟩⟩
  by_cases ht : a.actor ∈ c
  · obtain ⟨r, m, hsleep⟩ := hasleep _ ht
    have hslept := he.slept r m hsleep
    obtain ⟨expired, hcheck⟩ := check_of_slept h hslept.awake
    have hshown := hok.2
    rw [hcheck] at hshown
    have hshown := hshown r m hslept.awake
    rw [← hslept.graph] at hshown
    obtain ⟨u, hu, hdoomed⟩ := hslept.watched hc' hup' hshown hcycle ht hasleep
    exact hnone ⟨u, hu, .inr hdoomed⟩
  · have hne : ∀ u ∈ c, u ≠ a.actor := fun u hu => ne_of_mem_of_not_mem hu ht
    have hbefore : IsCycle s.WaitsFor c := by
      refine hcycle.imp_of_mem fun w hw x hx hwx => ?_
      obtain ⟨r, m, hwsleep⟩ := hasleep w hw
      exact hwx.before hc hc' he (hne w hw) (hne x hx) hwsleep
    obtain ⟨u, hu, hawake | hdoomed⟩ := hw c hbefore
    · obtain ⟨r, m, hsleep⟩ := hasleep u hu
      exact hawake r m (he.asleep_other (hne u hu) hsleep)
    · exact hnone ⟨u, hu, .inr fun hspared => hdoomed (he.spared u (hne u hu) hspared)⟩

/-- A cycle still stands, or a member of it is on its way out, or out, with an
exception. -/
def Followed (c : List Nat) (s : LockSystem) (ended : List (Nat × Outcome)) : Prop :=
  IsCycle s.WaitsFor c ∨
    ∃ t ∈ c, ∃ e, ((∃ cycle, e = .deadlock t cycle) ∨ ∃ message, e = .lockTimeout message) ∧
      (s.threads t = .leaving (.error e) ∨ (t, .error e) ∈ ended)

theorem Followed.step {c : List Nat} {ended : List (Nat × Outcome)} {a : Action}
    (hc : Coherent s) (hf : Followed c s ended) (h : s.step a = some s') :
    Followed c s' (ended ++ s.ended a) := by
  have he := step_effect h
  have hc' := hc.step he
  rcases hf with hcycle | ⟨t, ht, e, hkind, hleaving | hended⟩
  · by_cases hstay : ∀ u ∈ c, (s'.threads u).request = (s.threads u).request
    · refine .inl (hcycle.imp_of_mem fun w hw x hx hwx => ?_)
      have hqueued : ∀ u ∈ c, ∀ r m, (u, m) ∈ (s.entry r).waiters →
          (u, m) ∈ (s'.entry r).waiters := by
        intro u hu r m hq
        rw [hc'.queued, hstay u hu, ← hc.queued]
        exact hq
      cases hwx with
      | holder r m queued other blocks =>
          obtain ⟨held, hheld, hincompatible⟩ := blocks
          obtain ⟨y, hy, hxy⟩ := hcycle.successor hx
          obtain ⟨rx, mx, hxq⟩ := hxy.queued
          have hreq : (s'.threads x).request ≠ none := by
            rw [(hc'.queued x rx mx).mp (hqueued x hx rx mx hxq)]
            exact Option.some_ne_none _
          exact .holder r m (hqueued w hw r m queued) other
            ⟨held, (he.holds_iff hreq).mpr hheld, hincompatible⟩
      | ahead r m k order =>
          obtain ⟨hxq, hwq⟩ := mem_of_order order
          exact .ahead r m k (he.order_after hc' (hqueued x hx r k hxq) (hqueued w hw r m hwq) order)
    · -- a member has left its queue: it was blocked, so it raised
      obtain ⟨u, hu⟩ := not_forall.mp hstay
      obtain ⟨hu, hmoved⟩ := Classical.not_imp.mp hu
      obtain ⟨y, hy, huy⟩ := hcycle.successor hu
      obtain ⟨r, m, hq⟩ := huy.queued
      have hactor : u = a.actor := by
        by_contra hne
        exact hmoved (he.request_other hne)
      subst hactor
      have hreq := (hc.queued _ r m).mp hq
      cases he.queueing with
      | stay request waiters => exact absurd request hmoved
      | enter r₀ m₀ outside inside wanting waiters =>
          rw [outside] at hreq
          cases hreq
      | leave r₀ m₀ outcome inside outside ends waiters =>
          rw [inside] at hreq
          cases hreq
          rcases ends with ⟨-, hgrantable⟩ | ⟨cycle, rfl⟩ | ⟨message, rfl⟩
          · rw [huy.blocked hc hq] at hgrantable
            cases hgrantable
          · exact .inr ⟨_, hu, _, .inl ⟨cycle, rfl⟩, .inl outside⟩
          · exact .inr ⟨_, hu, _, .inr ⟨message, rfl⟩, .inl outside⟩
  · refine .inr ⟨t, ht, e, hkind, ?_⟩
    by_cases hactor : t = a.actor
    · have hsettle : a = .settle t := by
        cases a with
        | settle t' => exact congrArg Action.settle hactor.symm
        | acquire t' r m => simp [LockSystem.step, show s.threads t' = _ from hactor ▸ hleaving] at h
        | check t' expired =>
            simp [LockSystem.step, show s.threads t' = _ from hactor ▸ hleaving] at h
        | _ t' => simp [LockSystem.step, show s.threads t' = _ from hactor ▸ hleaving] at h
      refine .inr (List.mem_append_right _ ?_)
      rw [hsettle, LockSystem.ended, hleaving]
      exact List.mem_singleton_self _
    · rcases he.others t hactor with hsame | ⟨r, m, hsleep, -⟩
      · exact .inl (hsame.trans hleaving)
      · rw [hleaving] at hsleep
        cases hsleep
  · exact .inr ⟨t, ht, e, hkind, .inr (List.mem_append_left _ hended)⟩

theorem Run.trans {ok : LockSystem → Action → Prop} {s₀ : LockSystem}
    {ended later : List (Nat × Outcome)} (h : Run ok s₀ ended s) (h' : Run ok s later s') :
    Run ok s₀ (ended ++ later) s' := by
  induction h' with
  | refl => rwa [List.append_nil]
  | step run meets stepped ih =>
      rw [← List.append_assoc]
      exact ih.step meets stepped

theorem Run.watched {ok : LockSystem → Action → Prop} {ended : List (Nat × Outcome)}
    (hok : ∀ s a, ok s a → s.UpgradesFirst a) (hshown : ∀ s a, ok s a → s.NoneHidden a)
    (h : Run ok {} ended s) : Watched s := by
  induction h with
  | refl =>
      intro c hc
      obtain ⟨t, ht⟩ := List.exists_mem_of_ne_nil c hc.ne_nil
      exact ⟨t, ht, .inl nofun⟩
  | step run meets stepped ih =>
      exact ih.step run.coherent (run.upgradesClear hok) ⟨hok _ _ meets, hshown _ _ meets⟩ stepped

/-- Transactions 1 and 2 hold a table each; 1 sleeps waiting for the table of 2,
and 2, which has written to it once more, has just asked for the table of 1. -/
def crossing : LockSystem :=
  let s := (({} : LockSystem).acquire 1 "a" .exclusive).acquire 2 "b" .exclusive
  let s := (s.acquire 1 "b" .exclusive).check 1 "b" .exclusive false
  (s.acquire 2 "b" .exclusive).acquire 2 "a" .exclusive

end LockSystem

end QuillDb
