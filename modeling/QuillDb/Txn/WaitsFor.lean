/-
  Txn/WaitsFor.lean --- who waits for whom, and the graph the walk sees.

  Source: `quilldb/txn/locks.py`, `docs/concurrency.md`.

  A waiting request waits for the holders that block it and for the requests
  queued ahead of it.  The walk of `_detect_deadlock` follows holders only.  A
  queue edge can be replaced by an edge to a holder, except where a transaction
  that already holds the resource queues for EXCLUSIVE behind the EXCLUSIVE
  request of one that does not: those two wait for each other unseen.
-/
import QuillDb.Txn.LockInvariant

set_option autoImplicit false

namespace QuillDb

/-- A holder that a request for `m` must wait for. -/
def LockEntry.Blocks (e : LockEntry) (m : LockMode) (x : Nat) : Prop :=
  ∃ held, (x, held) ∈ e.holders ∧ compatible m held = false

def LockEntry.Holds (e : LockEntry) (x : Nat) : Prop := ∃ held, (x, held) ∈ e.holders

namespace LockSystem

open CycleSearch

variable {s s' : LockSystem} {t u w x : Nat} {r r' : String} {m m' : LockMode}

/-- The waits-for relation. -/
inductive WaitsFor (s : LockSystem) (w x : Nat) : Prop
  | holder (r : String) (m : LockMode) (queued : (w, m) ∈ (s.entry r).waiters) (other : x ≠ w)
      (blocks : (s.entry r).Blocks m x)
  | ahead (r : String) (m m' : LockMode) (order : [(x, m'), (w, m)].Sublist (s.entry r).waiters)

/-- Nobody awake is about to wake the sleepers on `r`. -/
def Unwoken (s : LockSystem) (r : String) : Prop := ∀ u r' m', s.threads u ≠ .waking r' m' r

/-- Transactions asleep, not about to be woken, that wait on one another only:
nothing but a timeout frees them. -/
structure Stuck (s : LockSystem) (D : Set Nat) : Prop where
  nonempty : D.Nonempty
  asleep : ∀ t ∈ D, ∃ r m, s.threads t = .asleep r m ∧ s.Unwoken r
  closed : ∀ t ∈ D, ∀ x, s.WaitsFor t x → x ∈ D

/-- A transaction does not upgrade from SHARED to EXCLUSIVE on a resource while
one that does not hold it waits there for EXCLUSIVE. -/
def UpgradesFirst (s : LockSystem) : Action → Prop
  | .acquire t r .exclusive =>
      (s.entry r).Holds t → (s.entry r).sufficient t .exclusive = false →
        ∀ f, (f, .exclusive) ∈ (s.entry r).waiters → (s.entry r).Holds f
  | _ => True

/-- A cycle whose youngest member is condemned already hides no other from the
transaction about to walk: each cycle the graph reaches has that member. -/
def NoneHidden (s : LockSystem) : Action → Prop
  | .check t _ => ∀ r m, s.threads t = .checking r m →
      let R := Edge { s with waitingFor := s.waitingFor.put t r }.holdersBlocking
      ∀ c d, IsCycle R c → IsCycle R d → (∀ x ∈ c, Relation.ReflTransGen R t x) →
        (∀ x ∈ d, Relation.ReflTransGen R t x) → s.doomed.lookup (c.foldl max 0) ≠ none →
          c.foldl max 0 ∈ d
  | _ => True

theorem edge_holdersBlocking : Edge s.holdersBlocking t x ↔
    ∃ r, s.waitingFor.lookup t = some r ∧ (s.entry r).Holds x ∧ x ≠ t := by
  unfold Edge holdersBlocking entry LockEntry.Holds
  cases hw : s.waitingFor.lookup t with
  | none => simp
  | some r =>
      cases hl : s.locks.lookup r with
      | none => simp [hl]
      | some e => simp [hl]

theorem mem_of_order {α : Type} {a b : α} {l : List α} (h : [a, b].Sublist l) :
    a ∈ l ∧ b ∈ l :=
  ⟨h.subset (List.mem_cons_self ..), h.subset (List.mem_cons_of_mem _ (List.mem_singleton_self _))⟩

/-- In a list without repetition, what precedes an element is before it. -/
theorem mem_before_of_order {α : Type} {a b : α} {l after : List α}
    (hl : (l ++ b :: after).Nodup) (h : [a, b].Sublist (l ++ b :: after)) : a ∈ l := by
  induction l with
  | nil =>
      have hb := (List.nodup_cons.mp hl).1
      cases h with
      | cons _ h => exact absurd (mem_of_order h).2 hb
      | cons_cons _ h => exact absurd (List.singleton_sublist.mp h) hb
  | cons z l ih =>
      cases h with
      | cons _ h => exact List.mem_cons_of_mem _ (ih (List.nodup_cons.mp hl).2 h)
      | cons_cons _ h => exact List.mem_cons_self ..

theorem WaitsFor.queued (hw : s.WaitsFor w x) : ∃ r m, (w, m) ∈ (s.entry r).waiters := by
  cases hw with
  | holder r m queued other blocks => exact ⟨r, m, queued⟩
  | ahead r m m' order => exact ⟨r, m, (mem_of_order order).2⟩

/-- A request that waits for somebody is not granted. -/
theorem WaitsFor.blocked (h : Coherent s) (hw : s.WaitsFor w x)
    (hq : (w, m) ∈ (s.entry r).waiters) : (s.entry r).grantable w m = false := by
  rw [LockEntry.grantable, Bool.and_eq_false_iff]
  cases hw with
  | holder r' m' queued other blocks =>
      obtain ⟨rfl, rfl⟩ := h.request_unique queued hq
      obtain ⟨held, hheld, hincompatible⟩ := blocks
      refine .inr (List.all_eq_false.mpr ⟨_, hheld, ?_⟩)
      simp [other, hincompatible]
  | ahead r' m' m'' order =>
      obtain ⟨rfl, rfl⟩ := h.request_unique (mem_of_order order).2 hq
      refine .inl ?_
      have hnodup := h.waiters_nodup r'
      cases hl : (s.entry r').waiters with
      | nil =>
          rw [hl] at order
          cases order
      | cons z l =>
          obtain ⟨z, k⟩ := z
          refine decide_eq_false fun hz => ?_
          obtain rfl : z = w := hz
          obtain ⟨-, rfl⟩ := h.request_unique (r := r') (hl ▸ List.mem_cons_self ..) hq
          rw [hl] at order hnodup
          cases mem_before_of_order (l := []) hnodup order

/-- The head of a queue that is not granted waits for a holder. -/
theorem head_blocked {e : LockEntry} {f : Nat} {k : LockMode} {l : List (Nat × LockMode)}
    (hl : e.waiters = (f, k) :: l) (hblocked : e.grantable f k = false) :
    ∃ y, y ≠ f ∧ e.Blocks k y := by
  rw [LockEntry.grantable, hl] at hblocked
  simp only [decide_true, Bool.true_and] at hblocked
  obtain ⟨⟨y, held⟩, hmem, hy⟩ := List.all_eq_false.mp hblocked
  simp only [Bool.not_eq_true, Bool.or_eq_false_iff, decide_eq_false_iff_not] at hy
  exact ⟨y, hy.1, held, hmem, hy.2⟩

/-- A queue edge to the head of the queue. -/
theorem waitsFor_head {f : Nat} {k : LockMode} {l : List (Nat × LockMode)}
    (hl : (s.entry r).waiters = (f, k) :: l) (hq : (t, m) ∈ (s.entry r).waiters) :
    t = f ∧ m = k ∨ s.WaitsFor t f := by
  rcases List.mem_cons.mp (hl ▸ hq) with hhead | htail
  · exact .inl (Prod.mk.inj hhead)
  · refine .inr (.ahead r m k ?_)
    rw [hl]
    exact List.Sublist.cons_cons _ (List.singleton_sublist.mpr htail)

/-- A sleeping thread waits for somebody. -/
theorem Coherent.waitsFor (h : Coherent s) (hasleep : s.threads t = .asleep r m) :
    ∃ x, s.WaitsFor t x := by
  have hq := (h.queued t r m).mpr (congrArg ThreadState.request hasleep)
  cases hl : (s.entry r).waiters with
  | nil =>
      rw [hl] at hq
      cases hq
  | cons z l =>
      obtain ⟨f, k⟩ := z
      rcases waitsFor_head hl hq with ⟨rfl, rfl⟩ | hahead
      · obtain ⟨y, hy, hblocks⟩ := head_blocked hl (h.blocked t r m hasleep)
        exact ⟨y, .holder r m hq hy hblocks⟩
      · exact ⟨f, hahead⟩

/-- No request for EXCLUSIVE of a transaction that does not hold the resource is
queued ahead of the upgrade of one that does. -/
def UpgradesClear (s : LockSystem) : Prop :=
  ∀ t r m f, (s.entry r).Holds t → [(f, .exclusive), (t, m)].Sublist (s.entry r).waiters →
    (s.entry r).Holds f

/-- In a set of sleepers each of which waits for a member, each has an edge of
the walk to a member. -/
theorem exists_edge (h : Coherent s) (hup : UpgradesClear s) {S : Set Nat}
    (hasleep : ∀ t ∈ S, ∃ r m, s.threads t = .asleep r m)
    (hS : ∀ t ∈ S, ∃ x ∈ S, s.WaitsFor t x) (ht : t ∈ S) :
    ∃ x, Edge s.holdersBlocking t x ∧ x ∈ S := by
  classical
  obtain ⟨r, m, hsleep⟩ := hasleep t ht
  have hq := (h.queued t r m).mpr (congrArg ThreadState.request hsleep)
  have hwait := h.waits t r m hsleep
  -- the first member of the set in the queue of `r` waits for a holder
  obtain ⟨⟨f, k⟩, hfirst⟩ := Option.isSome_iff_exists.mp
    (List.find?_isSome (p := fun z => decide (z.1 ∈ S)).mpr ⟨(t, m), hq, decide_eq_true ht⟩)
  obtain ⟨hmember, before, after, hl, hbefore⟩ := List.find?_eq_some_iff_append.mp hfirst
  have hf : f ∈ S := of_decide_eq_true hmember
  have hbefore : ∀ z ∈ before, z.1 ∉ S := by simpa using hbefore
  have hnodup := h.waiters_nodup r
  have hfq : (f, k) ∈ (s.entry r).waiters := by
    rw [hl]
    simp
  obtain ⟨x, hx, hfx⟩ := hS f hf
  cases hfx with
  | ahead r' k' j order =>
      obtain ⟨rfl, rfl⟩ := h.request_unique (mem_of_order order).2 hfq
      rw [hl] at order hnodup
      exact absurd hx (hbefore _ (mem_before_of_order hnodup order))
  | holder r' k' queued other blocks =>
      obtain ⟨rfl, rfl⟩ := h.request_unique queued hfq
      obtain ⟨held, hheld, hincompatible⟩ := blocks
      by_cases hxt : x = t
      · -- `t` itself blocks `f`: it is upgrading behind `f`, which holds `r'` too
        subst hxt
        obtain rfl := h.upgrade x r' m held hq hheld
        have hk : k' = .exclusive := by
          cases k' with
          | shared => cases hincompatible
          | exclusive => rfl
        have horder : [(f, .exclusive), (x, m)].Sublist (s.entry r').waiters := by
          rw [hl, ← hk]
          refine List.Sublist.trans ?_ (List.sublist_append_right ..)
          refine List.Sublist.cons_cons _ (List.singleton_sublist.mpr ?_)
          rw [hl] at hq
          rcases List.mem_append.mp hq with hmem | hmem
          · exact absurd ht (hbefore _ hmem)
          · rcases List.mem_cons.mp hmem with hhead | htail
            · exact absurd (congrArg Prod.fst hhead) other
            · exact htail
        have hholds := hup x r' m f ⟨_, hheld⟩ horder
        exact ⟨f, edge_holdersBlocking.mpr ⟨r', hwait, hholds, Ne.symm other⟩, hf⟩
      · exact ⟨x, edge_holdersBlocking.mpr ⟨r', hwait, ⟨held, hheld⟩, hxt⟩, hx⟩

/-- The walk finds a cycle when it starts in such a set. -/
theorem detects (h : Coherent s) (hup : UpgradesClear s) {S : Set Nat}
    (hasleep : ∀ t ∈ S, ∃ r m, s.threads t = .asleep r m)
    (hS : ∀ t ∈ S, ∃ x ∈ S, s.WaitsFor t x) (ht : t ∈ S) :
    ∃ c cycle, s.detectDeadlock t = some (c.foldl max 0, cycle) ∧
      IsCycle (Edge s.holdersBlocking) c ∧
      ∀ x ∈ c, Relation.ReflTransGen (Edge s.holdersBlocking) t x := by
  have hfound : search s.holdersBlocking (s.waitingFor.length + 1) [] [] t ≠ none := by
    refine search_complete (S := fun a => a ∈ S) (K := s.waitingFor.map Prod.fst) ?_
      (fun a ha => exists_edge h hup hasleep hS ha) List.nodup_nil (List.nil_subset _) ?_ ht
    · intro a ha
      unfold holdersBlocking at ha
      split at ha
      · exact absurd rfl ha
      · rename_i hr
        exact Dict.key_mem_of_lookup hr
    · rw [List.length_map, List.length_nil, Nat.add_zero]
      exact Nat.lt_succ_self _
  obtain ⟨⟨c, cycle⟩, hc⟩ := Option.ne_none_iff_exists'.mp hfound
  obtain ⟨hcycle, hreach⟩ := search_sound hc (List.isChain_singleton t)
  refine ⟨c, cycle, ?_, hcycle, fun x hx => ?_⟩
  · rw [detectDeadlock, hc]
    rfl
  · rcases hreach x hx with hnil | hpath
    · cases hnil
    · exact hpath

/-- The youngest of a cycle is on it. -/
theorem foldl_max_mem {c : List Nat} (hc : c ≠ []) : c.foldl max 0 ∈ c := by
  have hfold : ∀ (l : List Nat) (a : Nat), l.foldl max a = a ∨ l.foldl max a ∈ l := by
    intro l
    induction l with
    | nil => exact fun a => .inl rfl
    | cons b l ih =>
        intro a
        rw [List.foldl_cons]
        rcases ih (max a b) with heq | hmem
        · rw [heq]
          rcases Nat.le_total a b with hab | hab
          · rw [Nat.max_eq_right hab]
            exact .inr (List.mem_cons_self ..)
          · exact .inl (Nat.max_eq_left hab)
        · exact .inr (List.mem_cons_of_mem _ hmem)
  cases c with
  | nil => exact absurd rfl hc
  | cons a l =>
      rw [List.foldl_cons, Nat.zero_max]
      rcases hfold l a with heq | hmem
      · rw [heq]
        exact List.mem_cons_self ..
      · exact List.mem_cons_of_mem _ hmem

/-! ## Steps -/

/-- What a waiting thread holds does not change under it. -/
theorem Effect.holds_iff (he : Effect s t s') {held : LockMode}
    (hx : (s'.threads x).request ≠ none) :
    (x, held) ∈ (s'.entry r).holders ↔ (x, held) ∈ (s.entry r).holders := by
  by_cases hxt : x = t
  · rw [he.holders_waiting (hxt ▸ hx)]
  · exact he.holders_other r x held hxt

theorem order_append_single {α : Type} {a b z : α} {l : List α}
    (h : [a, b].Sublist (l ++ [z])) (hb : b ≠ z) : [a, b].Sublist l := by
  obtain ⟨l₁, l₂, hab, h₁, h₂⟩ := List.sublist_append_iff.mp h
  cases l₂ with
  | nil =>
      rw [List.append_nil] at hab
      exact hab ▸ h₁
  | cons y l₂ =>
      have hlast : b ∈ y :: l₂ := by
        have := congrArg List.getLast? hab
        rw [List.getLast?_append_of_ne_nil _ (List.cons_ne_nil _ _)] at this
        exact List.mem_of_getLast? this.symm
      exact absurd (List.mem_singleton.mp (h₂.subset hlast)) hb

/-- The order of two requests after a step is their order before it. -/
theorem Effect.order_before (he : Effect s t s') {z : Nat × LockMode} (hw : w ≠ t)
    (h : [z, (w, m)].Sublist (s'.entry r).waiters) : [z, (w, m)].Sublist (s.entry r).waiters := by
  cases he.queueing with
  | stay request waiters => exact waiters r ▸ h
  | enter r₀ m₀ outside inside wanting waiters =>
      rw [waiters] at h
      split at h
      · rename_i hr
        rw [hr]
        exact order_append_single h fun heq => hw (congrArg Prod.fst heq)
      · exact h
  | leave r₀ m₀ outcome inside outside ends waiters =>
      rw [waiters] at h
      split at h
      · rename_i hr
        rw [hr]
        exact h.trans List.erase_sublist
      · exact h

/-- Two requests that stay queued keep their order. -/
theorem Effect.order_after (hc' : Coherent s') (he : Effect s t s') {z y : Nat × LockMode}
    (hz : z ∈ (s'.entry r).waiters) (hy : y ∈ (s'.entry r).waiters)
    (h : [z, y].Sublist (s.entry r).waiters) : [z, y].Sublist (s'.entry r).waiters := by
  cases he.queueing with
  | stay request waiters => exact (waiters r).symm ▸ h
  | enter r₀ m₀ outside inside wanting waiters =>
      rw [waiters]
      split
      · rename_i hr
        exact (hr ▸ h).trans (List.sublist_append_left ..)
      · exact h
  | leave r₀ m₀ outcome inside outside ends waiters =>
      have hne : ∀ y ∈ (s'.entry r).waiters, y ≠ (t, m₀) := by
        rintro y hy rfl
        have := (hc'.queued t r m₀).mp hy
        rw [outside] at this
        cases this
      rw [waiters]
      split
      · rename_i hr
        have hkeep : [z, y].erase (t, m₀) = [z, y] := by
          refine List.erase_of_not_mem ?_
          simp [(hne z hz).symm, (hne y hy).symm]
        rw [← hkeep]
        exact (hr ▸ h).erase _
      · exact h

/-- Only a call of `acquire` enters a queue. -/
theorem acquire_of_enter {a : Action} (h : s.step a = some s')
    (houtside : s.threads a.actor = .outside) (hinside : s'.threads a.actor = .checking r m) :
    a = .acquire a.actor r m := by
  cases a with
  | acquire t r₀ m₀ =>
      have houtside : s.threads t = .outside := houtside
      have hinside : s'.threads t = .checking r m := hinside
      simp only [step, houtside, Option.some.injEq] at h
      subst h
      unfold acquire at hinside
      simp only at hinside
      split at hinside
      · rw [threads_setEntry, houtside] at hinside
        cases hinside
      · split at hinside
        · rw [threads_notifyAll, threads_setEntry, houtside] at hinside
          cases hinside
        · rw [threads_setThread_self] at hinside
          cases hinside
          rfl
  | releaseAll t =>
      have houtside : s.threads t = .outside := houtside
      have hinside : s'.threads t = .checking r m := hinside
      simp only [step, houtside, Option.some.injEq] at h
      subst h
      rw [threads_setThread_self] at hinside
      cases hinside
  | _ t => simp [step, show s.threads t = .outside from houtside] at h

theorem UpgradesClear.step {a : Action} (hc : Coherent s) (hup : UpgradesClear s)
    (hok : s.UpgradesFirst a) (h : s.step a = some s') : UpgradesClear s' := by
  have he := step_effect h
  have hc' := hc.step he
  rintro u r m f ⟨held, hheld⟩ horder
  obtain ⟨hfq, huq⟩ := mem_of_order horder
  have hf : (s'.threads f).request ≠ none := by
    rw [(hc'.queued f r .exclusive).mp hfq]
    exact Option.some_ne_none _
  have hu : (s'.threads u).request ≠ none := by
    rw [(hc'.queued u r m).mp huq]
    exact Option.some_ne_none _
  have hheld := (he.holds_iff hu).mp hheld
  have hbefore : (s.entry r).Holds f := by
    by_cases hactor : u = a.actor
    · subst hactor
      cases hq : he.queueing with
      | stay request waiters => exact hup _ r m f ⟨held, hheld⟩ (waiters r ▸ horder)
      | enter r₀ m₀ outside inside wanting waiters =>
          have hreq := (hc'.queued _ r m).mp huq
          rw [inside] at hreq
          cases hreq
          -- what it holds is SHARED, so it asks for EXCLUSIVE
          have hm : m = .exclusive := by
            rw [LockEntry.sufficient, Dict.lookup_of_mem (hc.orderly r).nodup hheld] at wanting
            cases m <;> cases held <;> simp_all
          have hacquire := acquire_of_enter h outside inside
          rw [hacquire, hm] at hok
          refine hok ⟨held, hheld⟩ (hm ▸ wanting) f ?_
          rw [waiters, if_pos rfl] at hfq
          rcases List.mem_append.mp hfq with hold | hnew
          · exact hold
          · have hnodup := hc'.waiters_nodup r
            rw [waiters, if_pos rfl] at horder hnodup
            exact mem_before_of_order hnodup horder
      | leave r₀ m₀ outcome inside outside ends waiters =>
          rw [outside] at hu
          exact absurd rfl hu
    · exact hup u r m f ⟨held, hheld⟩ (he.order_before hactor horder)
  obtain ⟨held', hheld'⟩ := hbefore
  exact ⟨held', (he.holds_iff hf).mpr hheld'⟩

end LockSystem

end QuillDb
