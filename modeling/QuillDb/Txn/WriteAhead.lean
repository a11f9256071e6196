/-
  Txn/WriteAhead.lean --- no page is written before its original is in a valid journal.

  Source: `Transaction.will_modify` and `commit` of `quilldb/txn/transaction.py`,
  `quilldb/storage/bufferpool.py`, `commit_barrier` of `quilldb/txn/journal.py`.

  The dirty flags decide what is evicted and flushed, but not what is journalled: the
  invariant is about the bytes in the cache alone, so that an `unpin(dirty=True)` of a
  page nobody wrote does no harm.  What `will_modify` and the barrier do has nothing to
  do with the cache, and what is known of them holds whatever is cached.
-/
import QuillDb.Txn.Crash
import QuillDb.Txn.BufferPool

set_option autoImplicit false

namespace QuillDb

open Prog Machine

namespace WriteAhead

/-! ## Programs that do not look at the cache -/

/-- The cache plays no part in what a program does. -/
def IgnoresCache {α : Type} (m : MachineM α) : Prop :=
  ∀ (s : Machine) (c : Cache), m { s with cache := c } = ((m s).1, { (m s).2 with cache := c })

namespace IgnoresCache

variable {α β : Type} {m : MachineM α}

protected theorem pure (a : α) : IgnoresCache (pure a) := fun _ _ => rfl

protected theorem raise (e : DbError) : IgnoresCache (raise e : MachineM α) := fun _ _ => rfl

protected theorem onStorage (m : PagerM α) : IgnoresCache (onStorage m) := fun _ _ => rfl

protected theorem updateTxn (f : Transaction → Transaction) : IgnoresCache (updateTxn f) := fun _ _ => rfl

protected theorem bind {f : α → MachineM β} (hm : IgnoresCache m) (hf : ∀ a, IgnoresCache (f a)) :
    IgnoresCache (m >>= f) := by
  intro s c
  rw [bind_apply, bind_apply, hm]
  rcases m s with ⟨e | a, s'⟩
  · rfl
  · exact hf a s' c

/-- Reading the state for something else than the cache. -/
protected theorem state_bind {f : Machine → MachineM β} (hf : ∀ s c, f { s with cache := c } = f s)
    (h : ∀ s, IgnoresCache (f s)) : IgnoresCache (state >>= f) := by
  intro s c
  rw [bind_of_ok (state_apply _), bind_of_ok (state_apply s), hf]
  exact h s s c

protected theorem ite {p : Prop} [Decidable p] {n : MachineM α} (hm : IgnoresCache m) (hn : IgnoresCache n) :
    IgnoresCache (if p then m else n) := by
  split
  · exact hm
  · exact hn

/-- The cache stays as it is. -/
theorem cache_eq (h : IgnoresCache m) (s : Machine) : (m s).2.cache = s.cache :=
  congrArg (fun r => Machine.cache r.2) (h s s.cache)

/-- What is known of an empty cache is known of any. -/
theorem post (h : IgnoresCache m) {s : Machine} {Q : α → Machine → Prop} {E : DbError → Machine → Prop}
    (hpost : Post m { s with cache := [] } Q E) :
    Post m s (fun a s' => s'.cache = s.cache ∧ Q a { s' with cache := [] })
      fun e s' => s'.cache = s.cache ∧ E e { s' with cache := [] } := by
  have hcache := h.cache_eq s
  unfold Post at hpost ⊢
  rw [h] at hpost
  rcases hrun : m s with ⟨e | a, s'⟩
  · rw [hrun] at hpost hcache
    exact ⟨hcache, hpost⟩
  · rw [hrun] at hpost hcache
    exact ⟨hcache, hpost⟩

end IgnoresCache

/-- Running several one after another. -/
protected theorem IgnoresCache.seq {ms : List (MachineM Unit)} (h : ∀ m ∈ ms, IgnoresCache m) :
    IgnoresCache (seq ms) := by
  induction ms with
  | nil => exact .pure ()
  | cons m ms ih => exact (h m (List.mem_cons_self ..)).bind fun _ => ih fun n hn => h n (List.mem_cons_of_mem _ hn)

theorem willModify_ignoresCache (id : Nat) : IgnoresCache (willModify id) := by
  have hpromote : IgnoresCache promote := by
    refine IgnoresCache.state_bind (fun _ _ => rfl) fun s => ?_
    split
    · exact .pure ()
    · exact (IgnoresCache.updateTxn _).bind fun _ => (IgnoresCache.onStorage _).bind fun _ => .updateTxn _
  have hrecord : ∀ p, IgnoresCache (recordOriginal id p) := by
    refine fun p => IgnoresCache.state_bind (fun _ _ => rfl) fun s => ?_
    split
    · exact (IgnoresCache.onStorage _).bind fun _ => .updateTxn _
    · exact .raise _
  refine IgnoresCache.state_bind (fun _ _ => rfl) fun s => .ite (.pure ()) (.ite (.updateTxn _) ?_)
  exact hpromote.bind fun _ => (IgnoresCache.onStorage _).bind fun p => (hrecord p).bind fun _ => .updateTxn _

/-- `commit_barrier`. -/
def commitBarrier : List CommitStep := [.syncJournal, .syncDirectory, .writeValidity, .syncValidity]

theorem openJournal_ignoresCache : IgnoresCache openJournal := by
  refine IgnoresCache.state_bind (fun _ _ => rfl) fun s => ?_
  split
  · exact .pure _
  · exact .raise _
  · exact .raise _

theorem commitBarrier_ignoresCache : ∀ step ∈ commitBarrier, IgnoresCache step.run := by
  intro step hstep
  simp only [commitBarrier, List.mem_cons, List.not_mem_nil, or_false] at hstep
  rcases hstep with rfl | rfl | rfl | rfl
  · exact openJournal_ignoresCache.bind fun _ => .onStorage _
  · exact IgnoresCache.onStorage JournalFile.fsyncDirectory
  · exact openJournal_ignoresCache.bind fun _ => .onStorage _
  · exact IgnoresCache.onStorage JournalFile.fsync

/-! ## The operations of a transaction -/

/-- `unpin(page_id, dirty)`. -/
def unpin (id : Nat) (dirty : Bool) : MachineM Unit := do
  Machine.unpin id
  if dirty then updateCache fun c => c.modify id fun f => { f with dirty := true } else pure ()

/-- Writing into the `bytearray` of a pinned page. -/
def write (id : Nat) (page : Page) : MachineM Unit := do
  let s ← state
  match s.cache.lookup id with
  | none => pure ()
  | some entry =>
      if 0 < entry.pinCount then updateCache fun c => c.modify id fun f => { f with data := page }
      else pure ()

inductive Call where
  | getPage (id : Nat)
  | getPageForWrite (id : Nat)
  | write (id : Nat) (page : Page)
  | unpin (id : Nat) (dirty : Bool)
  | evict
  | allocatePage
  | freePage (id : Nat)

/-- The machine, and the pages `get_page_for_write` has returned: only these are written. -/
structure Session where
  machine : Machine
  granted : List Nat

/-- `get_page_for_write` grants the page when it returns. -/
def Session.grant (t : Session) (id : Nat) : Session :=
  match Machine.getPageForWrite id t.machine with
  | (.ok _, s) => ⟨s, id :: t.granted⟩
  | (.error _, s) => ⟨s, t.granted⟩

def Call.exec : Call → Session → Session
  | .getPage id, t => { t with machine := (Machine.getPage id).exec t.machine }
  | .getPageForWrite id, t => t.grant id
  | .write id page, t =>
      if id ∈ t.granted then { t with machine := (WriteAhead.write id page).exec t.machine } else t
  | .unpin id dirty, t => { t with machine := (WriteAhead.unpin id dirty).exec t.machine }
  | .evict, t => { t with machine := Machine.evictOne.exec t.machine }
  | .allocatePage, t => { t with machine := Machine.allocatePage.exec t.machine }
  | .freePage id, t => { t with machine := (Machine.freePage id).exec t.machine }

/-- The machine after a run, which goes on after an operation that raised. -/
def run (calls : List Call) (s : Machine) : Machine :=
  (calls.foldl (fun t call => Call.exec call t) (Session.mk s [])).machine

/-! ## The invariant -/

variable {b : Snapshot} {s s' : Machine} {id : Nat}

/-- The bytes of a cached page are those of the file, or the page is journalled or new. -/
def Accounted (b : Snapshot) (journalled : List Nat) (id : Nat) (f : Frame) : Prop :=
  f.data = b.file.page id ∨ id ∈ journalled ∨ b.pageCount < id

/-- A transaction before its barrier, whatever is dirty. -/
structure Ahead (b : Snapshot) (s : Machine) : Prop where
  base : InTxn b { s with cache := [] }
  nodup : s.txn.journalled.Nodup
  cache : ∀ id f, s.cache.lookup id = some f → Accounted b s.txn.journalled id f

theorem Ahead.with_cache (h : Ahead b s) {c : Cache}
    (hc : ∀ id f, c.lookup id = some f → Accounted b s.txn.journalled id f) : Ahead b { s with cache := c } :=
  ⟨h.base, h.nodup, hc⟩

theorem Ahead.erase (h : Ahead b s) (id : Nat) : Ahead b { s with cache := s.cache.erase id } := by
  refine h.with_cache fun k f hf => ?_
  rw [Dict.lookup_erase] at hf
  split at hf
  · cases hf
  · exact h.cache k f hf

theorem Ahead.modify (h : Ahead b s) {g : Frame → Frame}
    (hg : ∀ f, s.cache.lookup id = some f → Accounted b s.txn.journalled id (g f)) :
    Ahead b { s with cache := s.cache.modify id g } := by
  refine h.with_cache fun k f hf => ?_
  rw [Dict.lookup_modify] at hf
  split at hf
  · rename_i heq
    subst heq
    obtain ⟨f', hf', rfl⟩ := Option.map_eq_some_iff.mp hf
    exact hg f' hf'
  · exact h.cache k f hf

/-- Neither pins nor dirty flags count. -/
theorem Ahead.flag (h : Ahead b s) {g : Frame → Frame} (hg : ∀ f, (g f).data = f.data) :
    Ahead b { s with cache := s.cache.modify id g } := by
  refine h.modify fun f hf => ?_
  unfold Accounted
  rw [hg]
  exact h.cache id f hf

theorem Ahead.file_eq (h : Ahead b s) : s.file = b.file := h.base.file_eq

theorem Ahead.unpin (id : Nat) : Keeps (Ahead b) (Machine.unpin id) := by
  refine Triple.state_bind fun s h => ?_
  cases s.cache.lookup id with
  | none => exact Triple.raise fun s' hs' => hs' ▸ h
  | some entry =>
      refine Triple.ite (fun _ => Triple.raise fun s' hs' => hs' ▸ h) fun _ => Triple.update fun s' hs' => ?_
      subst hs'
      exact h.flag fun _ => rfl

theorem unpin_ahead (id : Nat) (dirty : Bool) : Keeps (Ahead b) (unpin id dirty) := by
  refine (Ahead.unpin id).bind fun _ => ?_
  split
  · exact Triple.update fun s h => h.flag fun _ => rfl
  · exact Triple.pure fun s h => h

theorem write_ahead (h : Ahead b s) (hmem : id ∈ s.txn.journalled) (page : Page) :
    Ahead b ((write id page).exec s) := by
  unfold Prog.exec write
  rw [bind_of_ok (state_apply s)]
  cases s.cache.lookup id with
  | none => exact h
  | some entry =>
      dsimp only
      split
      · exact h.modify fun _ _ => .inr (.inl hmem)
      · exact h

theorem evictOne_ahead : Keeps (Ahead b) Machine.evictOne := by
  intro s h
  rcases evictOne_cases s with ⟨id, hrun⟩ | hrun | ⟨e, hrun⟩
  · rw [hrun]
    exact h.erase id
  · rw [hrun]
    exact h
  · rw [hrun]
    exact h

/-- Fetching a page does not touch the journal. -/
theorem getPage_ahead (h : Ahead b s) (id : Nat) :
    Post (Machine.getPage id) s (fun _ s' => Ahead b s' ∧ s'.txn = s.txn) fun _ s' => Ahead b s' := by
  unfold Machine.getPage BufferPool.getPage
  simp only [post_bind, post_state]
  cases hf : s.cache.lookup id with
  | some entry =>
      refine ⟨h.with_cache fun k f hk => ?_, rfl⟩
      rw [Dict.lookup_moveToEnd] at hk
      split at hk
      · rename_i heq
        obtain rfl := Option.some.inj hk
        rw [heq]
        exact h.cache id entry hf
      · exact h.cache k f hk
  | none =>
      have hroom : Post makeRoom s
          (fun _ s' => Ahead b s' ∧ s'.txn = s.txn ∧ s'.cache.lookup id = none) fun _ s' => Ahead b s' := by
        rcases makeRoom_cases s with ⟨k, hrun⟩ | hrun | ⟨e, hrun⟩
        · refine Post.of_eq hrun ⟨h.erase k, rfl, ?_⟩
          show (s.cache.erase k).lookup id = none
          rw [Dict.lookup_erase, hf, ite_self]
        · exact Post.of_eq hrun ⟨h, rfl, hf⟩
        · unfold Post
          rw [hrun]
          exact h
      refine hroom.bind (fun _ s₁ hmade => ?_) fun _ _ he => he
      obtain ⟨h₁, htxn, hmiss⟩ := hmade
      by_cases hrange : id < 1 ∨ s₁.storage.header.pageCount < id
      · have hrun : onStorage (Pager.readPage id) s₁ = (.error (.pageOutOfRange ""), s₁) := by
          simp only [onStorage, Pager.readPage, bind_apply, state_apply]
          rw [if_pos hrange]
          rfl
        unfold Post
        rw [bind_of_error hrun]
        exact h₁
      · have hrun : onStorage (Pager.readPage id) s₁ = (.ok (s₁.file.page id), s₁) := by
          simp only [onStorage, Pager.readPage, bind_apply, state_apply]
          rw [if_neg hrange]
          rfl
        rw [post_bind]
        refine Post.of_eq hrun ⟨h₁.with_cache fun k f hk => ?_, htxn⟩
        rw [BufferPool.lookup_append_entry hmiss] at hk
        split at hk
        · rename_i heq
          obtain rfl := Option.some.inj hk
          rw [heq, h₁.file_eq]
          exact .inl rfl
        · exact h₁.cache k f hk

/-! ## Journalling -/

/-- A page is journalled at most once. -/
def Journals (id : Nat) (s s' : Machine) : Prop :=
  s'.txn.journalled = s.txn.journalled ∨
    id ∉ s.txn.journalled ∧ s'.txn.journalled = s.txn.journalled ++ [id]

/-- The list of the journalled pages stays as it is. -/
def SameJournalled (s s' : Machine) : Prop := s'.txn.journalled = s.txn.journalled

instance : Progress SameJournalled where
  refl _ := rfl
  trans h h' := Eq.trans h' h

theorem willModify_journals (id : Nat) (s : Machine) :
    Post (willModify id) s (fun _ s' => Journals id s s') fun _ s' => Journals id s s' := by
  have hmoves : ∀ {α : Type} {m : MachineM α} (s : Machine), Moves SameJournalled m →
      Post m s (fun _ s' => SameJournalled s s') fun _ s' => SameJournalled s s' := by
    intro α m s hm
    have hsame := hm s
    unfold Post
    rcases hrun : m s with ⟨e | a, s'⟩
    · rwa [hrun] at hsame
    · rwa [hrun] at hsame
  have hstorage : ∀ {α : Type} (m : PagerM α), Moves SameJournalled (onStorage m) := fun _ _ => rfl
  have hpromote : Moves SameJournalled promote := by
    refine Moves.state.bind fun s => ?_
    split
    · exact Moves.pure ()
    · have hset : ∀ j, Moves SameJournalled (updateTxn fun t => { t with journal := j }) := fun _ _ => rfl
      exact (hset _).bind fun _ => (hstorage _).bind fun _ => hset _
  have hrecord : ∀ p, Moves SameJournalled (recordOriginal id p) := by
    refine fun p => Moves.state.bind fun s => ?_
    split
    · exact (hstorage _).bind fun _ => Moves.update fun _ => rfl
    · exact Moves.raise _
  unfold willModify
  simp only [post_bind, post_state]
  split
  · exact .inl rfl
  · rename_i hmem
    split
    · exact .inr ⟨hmem, rfl⟩
    · refine (hmoves s hpromote).bind (fun _ s₁ h₁ => ?_) fun _ _ he => .inl he
      refine (hmoves s₁ (hstorage _)).bind (fun p s₂ h₂ => ?_) fun _ _ he => .inl (Eq.trans he h₁)
      refine (hmoves s₂ (hrecord p)).bind (fun _ s₃ h₃ => ?_) fun _ _ he =>
        .inl (Eq.trans he (Eq.trans h₂ h₁))
      refine .inr ⟨hmem, ?_⟩
      show s₃.txn.journalled ++ [id] = _
      rw [Eq.trans h₃ (Eq.trans h₂ h₁)]

theorem Journals.ahead (hj : Journals id s s') (h : Ahead b s) (hbase : InTxn b { s' with cache := [] })
    (hcache : s'.cache = s.cache) : Ahead b s' := by
  have hsub : ∀ k ∈ s.txn.journalled, k ∈ s'.txn.journalled := by
    rcases hj with hsame | ⟨-, hadded⟩
    · rw [hsame]
      exact fun _ hk => hk
    · rw [hadded]
      exact fun _ hk => List.mem_append_left _ hk
  refine ⟨hbase, ?_, fun k f hf => ?_⟩
  · rcases hj with hsame | ⟨hnew, hadded⟩
    · rw [hsame]
      exact h.nodup
    · rw [hadded]
      exact h.nodup.append (List.nodup_singleton id) (List.disjoint_singleton.mpr hnew)
  · rw [hcache] at hf
    exact (h.cache k f hf).imp_right fun hold => hold.imp_left (hsub k)

theorem willModify_ahead (h : Ahead b s) (id : Nat) :
    Post (willModify id) s (fun _ s' => Ahead b s' ∧ id ∈ s'.txn.journalled) fun _ s' => Ahead b s' := by
  have hspec : Post (willModify id) { s with cache := [] } _ _ :=
    willModify_spec (b := b) (c := []) (d := s.header) id _ ⟨h.base, rfl, rfl⟩
  refine (((willModify_ignoresCache id).post hspec).and (willModify_journals id s)).mono ?_ ?_
  · rintro _ s' ⟨⟨hcache, hbase, -, -, hmem⟩, hj⟩
    exact ⟨hj.ahead h hbase hcache, hmem⟩
  · rintro _ s' ⟨⟨hcache, hbase, -, -⟩, hj⟩
    exact hj.ahead h hbase hcache

theorem getPageForWrite_ahead (h : Ahead b s) (id : Nat) :
    Post (Machine.getPageForWrite id) s (fun _ s' => Ahead b s' ∧ id ∈ s'.txn.journalled)
      fun _ s' => Ahead b s' := by
  unfold Machine.getPageForWrite BufferPool.getPageForWrite
  refine (willModify_ahead h id).bind (fun _ s₁ hnoted => ?_) fun _ _ he => he
  obtain ⟨h₁, hmem⟩ := hnoted
  refine (getPage_ahead h₁ id).bind (fun page s₂ hgot => ?_) fun _ _ he => he
  obtain ⟨h₂, htxn⟩ := hgot
  refine ⟨h₂.flag fun _ => rfl, ?_⟩
  show id ∈ s₂.txn.journalled
  rwa [htxn]

theorem getPageForWrite_keeps (id : Nat) : Keeps (Ahead b) (Machine.getPageForWrite id) := fun _ h =>
  (getPageForWrite_ahead h id).mono (fun _ _ hs => hs.1) fun _ _ hs => hs

/-! ## The other operations -/

/-- What was obtained for writing may be written. -/
theorem mutate_ahead (h : Ahead b s) (hmem : id ∈ s.txn.journalled) (page : Page) :
    Post (Machine.mutate id page) s (fun _ s' => Ahead b s') fun _ s' => Ahead b s' := by
  unfold Machine.mutate
  simp only [post_bind, post_state]
  cases s.cache.lookup id with
  | none => exact h
  | some entry =>
      dsimp only
      split
      · exact h.modify fun _ _ => .inr (.inl hmem)
      · exact h

theorem discard_keeps (id : Nat) : Keeps (Ahead b) (Machine.discard id) := by
  refine Triple.state_bind fun s h => ?_
  cases s.cache.lookup id with
  | none => exact Triple.pure fun s' hs' => hs' ▸ h
  | some entry =>
      exact Triple.ite (fun _ => Triple.raise fun s' hs' => hs' ▸ h) fun _ =>
        Triple.update fun s' hs' => hs' ▸ h.erase id

theorem setHeader_keeps {f : FileHeader → FileHeader}
    (hf : ∀ h h' : FileHeader, h.SameFrame h' → h.SameFrame (f h'))
    (hcount : ∀ h : FileHeader, h.pageCount ≤ (f h).pageCount) : Keeps (Ahead b) (setHeader f) := fun _ h =>
  ⟨h.base.with_header (hf _ _ h.base.frame) (hcount _), h.nodup, h.cache⟩

theorem allocatePage_ahead : Keeps (Ahead b) Machine.allocatePage := by
  refine Triple.state_bind fun s h => Triple.ite (fun _ => Keeps.of_eq ?_ h) fun _ => ?_
  · refine (getPageForWrite_keeps _).bind fun page => Keeps.bind (setHeader_keeps ?_ fun _ => le_rfl) fun _ =>
      (Ahead.unpin _).bind fun _ => Triple.pure fun _ hs => hs
    rintro h h' ⟨pc, tr, ct, ck, rfl⟩
    exact ⟨pc, _, _, ck, rfl⟩
  · intro s' hs'
    subst hs'
    obtain ⟨pc, tr, ct, ck, hframe⟩ := h.base.frame
    have hgrown : Ahead b { s' with storage := { s'.storage with
        header := { s'.header with pageCount := s'.header.pageCount + 1 } } } :=
      ⟨h.base.with_header ⟨_, tr, ct, ck, by rw [show s'.header = _ from hframe]⟩ (Nat.le_succ _),
        h.nodup, h.cache⟩
    refine hgrown.with_cache fun k f hk => ?_
    rw [Dict.lookup_put] at hk
    split at hk
    · rename_i heq
      rw [heq]
      exact .inr (.inr (Nat.lt_succ_of_le h.base.count_le))
    · exact h.cache k f hk

theorem freePage_ahead (id : Nat) : Keeps (Ahead b) (Machine.freePage id) := by
  refine Triple.state_bind fun s h => Triple.ite (fun _ => Triple.raise fun _ hs => hs ▸ h) fun _ =>
    Triple.ite (fun _ => Triple.raise fun _ hs => hs ▸ h) fun _ => Keeps.of_eq ?_ h
  refine (discard_keeps id).bind fun _ s₁ h₁ => ?_
  refine (getPageForWrite_ahead h₁ id).bind (fun _ s₂ hgot => ?_) fun _ _ he => he
  obtain ⟨h₂, hmem⟩ := hgot
  rw [post_bind, post_lift]
  refine ⟨fun _ _ => ?_, fun _ _ => h₂⟩
  refine (mutate_ahead h₂ hmem _).bind (fun _ s₃ h₃ => ?_) fun _ _ he => he
  refine Post.bind (Ahead.unpin id s₃ h₃) (fun _ s₄ h₄ => ?_) fun _ _ he => he
  have hlink : Keeps (Ahead b) (setHeader fun h =>
      { h with freelistTrunk := id, freelistCount := h.freelistCount + 1 }) := by
    refine setHeader_keeps ?_ fun _ => le_rfl
    rintro h h' ⟨pc, tr, ct, ck, rfl⟩
    exact ⟨pc, _, _, ck, rfl⟩
  exact hlink s₄ h₄

/-! ## Runs -/

/-- A journalled page stays journalled. -/
def Grows (s s' : Machine) : Prop := s.txn.journalled ⊆ s'.txn.journalled

instance : Progress Grows where
  refl _ := List.Subset.refl _
  trans := List.Subset.trans

theorem Grows.of_storage {α : Type} (m : PagerM α) : Moves Grows (onStorage m) := fun _ => List.Subset.refl _

theorem Grows.of_cache (f : Cache → Cache) : Moves Grows (updateCache f) := fun _ => List.Subset.refl _

theorem evictOne_grows : Moves Grows Machine.evictOne := by
  refine Moves.state.bind fun s => ?_
  split
  · exact .of_cache _
  · exact Moves.ite (Moves.pure ()) (Moves.raise _)

theorem getPage_grows (id : Nat) : Moves Grows (Machine.getPage id) := by
  refine Moves.state.bind fun s => ?_
  split
  · exact (Grows.of_cache _).bind fun _ => Moves.pure _
  · have hroom : Moves Grows makeRoom := Moves.state.bind fun _ => Moves.ite evictOne_grows (Moves.pure ())
    exact hroom.bind fun _ => (Grows.of_storage _).bind fun _ => (Grows.of_cache _).bind fun _ => Moves.pure _

theorem getPageForWrite_grows (id : Nat) : Moves Grows (Machine.getPageForWrite id) := by
  have hmodify : Moves Grows (willModify id) := fun s => by
    have hj := willModify_journals id s
    have hsub : ∀ s', Journals id s s' → Grows s s' := by
      rintro s' (hsame | ⟨-, hadded⟩)
      · exact fun k hk => hsame ▸ hk
      · exact fun k hk => hadded ▸ List.mem_append_left _ hk
    unfold Post at hj
    rcases hrun : willModify id s with ⟨e | a, s'⟩
    · exact hsub s' (by rwa [hrun] at hj)
    · exact hsub s' (by rwa [hrun] at hj)
  exact hmodify.bind fun _ => (getPage_grows id).bind fun _ => (Grows.of_cache _).bind fun _ => Moves.pure _

theorem machineUnpin_grows (id : Nat) : Moves Grows (Machine.unpin id) := by
  refine Moves.state.bind fun s => ?_
  split
  · exact Moves.raise _
  · exact Moves.ite (Moves.raise _) (Grows.of_cache _)

theorem Call.exec_grows (call : Call) (t : Session) : Grows t.machine (call.exec t).machine := by
  cases call with
  | getPage id => exact getPage_grows id t.machine
  | getPageForWrite id =>
      have hgrows := getPageForWrite_grows id t.machine
      show Grows t.machine (t.grant id).machine
      unfold Session.grant
      rcases hrun : Machine.getPageForWrite id t.machine with ⟨e | a, s'⟩
      · rwa [hrun] at hgrows
      · rwa [hrun] at hgrows
  | write id page =>
      have hwrite : Moves Grows (WriteAhead.write id page) := by
        refine Moves.state.bind fun s => ?_
        split
        · exact Moves.pure ()
        · exact Moves.ite (Grows.of_cache _) (Moves.pure ())
      show Grows t.machine (if id ∈ t.granted then _ else t).machine
      split
      · exact hwrite t.machine
      · exact List.Subset.refl _
  | unpin id dirty =>
      have hunpin : Moves Grows (WriteAhead.unpin id dirty) :=
        (machineUnpin_grows id).bind fun _ => Moves.ite (Grows.of_cache _) (Moves.pure ())
      exact hunpin t.machine
  | evict => exact evictOne_grows t.machine
  | allocatePage =>
      have halloc : Moves Grows Machine.allocatePage := by
        refine Moves.state.bind fun s => Moves.ite ?_ ?_
        · exact (getPageForWrite_grows _).bind fun _ => (Grows.of_storage _).bind fun _ =>
            (machineUnpin_grows _).bind fun _ => Moves.pure _
        · exact (Grows.of_storage _).bind fun _ => (Grows.of_cache _).bind fun _ => Moves.pure _
      exact halloc t.machine
  | freePage id =>
      have hdiscard : Moves Grows (Machine.discard id) := by
        refine Moves.state.bind fun s => ?_
        split
        · exact Moves.pure ()
        · exact Moves.ite (Moves.raise _) (Grows.of_cache _)
      have hmutate : ∀ page, Moves Grows (Machine.mutate id page) := by
        refine fun page => Moves.state.bind fun s => ?_
        split
        · exact Moves.pure ()
        · exact Moves.ite (Grows.of_cache _) (Moves.pure ())
      have hfree : Moves Grows (Machine.freePage id) :=
        Moves.state.bind fun s => Moves.ite (Moves.raise _) <| Moves.ite (Moves.raise _) <|
          hdiscard.bind fun _ => (getPageForWrite_grows id).bind fun _ => (Moves.lift _).bind fun _ =>
            (hmutate _).bind fun _ => (machineUnpin_grows id).bind fun _ => Grows.of_storage _
      exact hfree t.machine

/-- What was obtained for writing is journalled. -/
structure Session.Ahead (b : Snapshot) (t : Session) : Prop where
  machine : WriteAhead.Ahead b t.machine
  granted : ∀ id ∈ t.granted, id ∈ t.machine.txn.journalled

theorem Call.exec_ahead {t : Session} (h : t.Ahead b) (call : Call) : (call.exec t).Ahead b := by
  have hgrows := call.exec_grows t
  have hold : ∀ id ∈ t.granted, id ∈ (call.exec t).machine.txn.journalled :=
    fun id hid => hgrows (h.granted id hid)
  cases call with
  | getPage id =>
      have hkeeps : Keeps (WriteAhead.Ahead b) (Machine.getPage id) := fun s hs =>
        (getPage_ahead hs id).mono (fun _ _ hs => hs.1) fun _ _ hs => hs
      exact ⟨hkeeps.exec h.machine, hold⟩
  | getPageForWrite id =>
      have hspec := getPageForWrite_ahead h.machine id
      show (t.grant id).Ahead b
      unfold Post at hspec
      have hgrant : Call.exec (.getPageForWrite id) t = t.grant id := rfl
      rw [hgrant] at hold
      unfold Session.grant at hold ⊢
      rcases hrun : Machine.getPageForWrite id t.machine with ⟨e | a, s'⟩
      · rw [hrun] at hspec hold
        exact ⟨hspec, hold⟩
      · rw [hrun] at hspec hold
        exact ⟨hspec.1, List.forall_mem_cons.mpr ⟨hspec.2, hold⟩⟩
  | write id page =>
      by_cases hid : id ∈ t.granted
      · have hexec : Call.exec (.write id page) t = { t with machine := (WriteAhead.write id page).exec t.machine } :=
          if_pos hid
        rw [hexec] at hold ⊢
        exact ⟨write_ahead h.machine (h.granted id hid) page, hold⟩
      · rw [show Call.exec (.write id page) t = t from if_neg hid]
        exact h
  | unpin id dirty => exact ⟨(unpin_ahead id dirty).exec h.machine, hold⟩
  | evict => exact ⟨evictOne_ahead.exec h.machine, hold⟩
  | allocatePage => exact ⟨allocatePage_ahead.exec h.machine, hold⟩
  | freePage id => exact ⟨(freePage_ahead id).exec h.machine, hold⟩

theorem run_ahead (h : Ahead b s) (calls : List Call) : Ahead b (run calls s) := by
  have hfold : ∀ t : Session, t.Ahead b → (calls.foldl (fun t call => Call.exec call t) t).Ahead b := by
    induction calls with
    | nil => exact fun t ht => ht
    | cons call calls ih => exact fun t ht => ih _ (call.exec_ahead ht)
  exact (hfold ⟨s, []⟩ ⟨h, List.forall_mem_nil _⟩).machine

/-! ## The start and the barrier -/

/-- Commit writes page 1 like any other page. -/
theorem stampHeader_ahead : Keeps (Ahead b) stampHeader := fun s h => by
  refine (getPageForWrite_ahead h _).bind (fun page s₁ hgot => ?_) fun _ _ he => he
  have hstamp : Triple (· = s₁) (stampPage page) (fun _ => Ahead b) (fun _ => Ahead b) := by
    refine Triple.state_bind fun s₂ heq => Triple.lift_bind (fun bytes _ s₃ heq' => ?_) fun _ s₃ _ heq' => ?_
    · rw [heq', heq]
      exact mutate_ahead hgot.1 hgot.2 _
    · rw [heq', heq]
      exact hgot.1
  exact Triple.finally_ hstamp (fun _ => Ahead.unpin _) (fun _ => Ahead.unpin _) s₁ rfl

/-- No cached page is dirty, and the transaction has just become the writer. -/
structure Begins (s : Machine) : Prop where
  pending : s.storage.disk.pending = []
  no_journal_file : s.storage.journal = none
  count_lt : s.header.pageCount < 2 ^ 32
  clean : ∀ id f, s.cache.lookup id = some f → f.dirty = false ∧ f.data = s.file.page id
  fresh : s.txn = ⟨none, [], s.header.pageCount, false⟩

theorem Begins.ahead (h : Begins s) : Ahead s.snapshot s := by
  refine ⟨?_, ?_, fun id f hf => .inl (h.clean id f hf).2⟩
  · exact {
      disk := Disk.eq_of_synced h.pending
      before := by rw [h.fresh]; rfl
      barrier := by rw [h.fresh]
      count_le := le_rfl
      count_lt := h.count_lt
      frame := FileHeader.SameFrame.refl _
      ids := by
        rw [h.fresh]
        intro id hid
        cases hid
      cache := by
        intro id f hf
        cases hf
      journal := by
        unfold JournalState
        rw [h.fresh]
        refine ⟨h.no_journal_file, fun id hid => ?_⟩
        cases hid }
  · rw [h.fresh]
    exact List.nodup_nil

/-- The barrier writes to the journal alone. -/
theorem commitBarrier_keeps (d : Disk) (t : Transaction) :
    ∀ step ∈ commitBarrier, Keeps (fun s => s.storage.disk = d ∧ s.txn = t) step.run := by
  have hopen : Keeps (fun s => s.storage.disk = d ∧ s.txn = t) openJournal := by
    refine Triple.state_bind fun s hs => ?_
    split
    · exact Triple.pure fun s' hs' => hs' ▸ hs
    · exact Triple.raise fun s' hs' => hs' ▸ hs
    · exact Triple.raise fun s' hs' => hs' ▸ hs
  intro step hstep
  simp only [commitBarrier, List.mem_cons, List.not_mem_nil, or_false] at hstep
  rcases hstep with rfl | rfl | rfl | rfl
  · exact hopen.bind fun _ => Triple.update fun _ hs => hs
  · exact Triple.update fun _ hs => hs
  · refine hopen.bind fun h s hs => ?_
    unfold JournalFile.writeValidity onStorage
    rw [bind_apply, lift_apply]
    cases toBytes4 h.nrec with
    | ok bytes => exact hs
    | error e => exact hs
  · exact Triple.update fun _ hs => hs

theorem barrier_keeps (d : Disk) (t : Transaction) (k : Nat) :
    Keeps (fun s => s.storage.disk = d ∧ s.txn = t) (seq ((commitBarrier.take k).map CommitStep.run)) := by
  refine Keeps.seq fun m hm => ?_
  obtain ⟨step, hstep, rfl⟩ := List.mem_map.mp hm
  exact commitBarrier_keeps d t step (List.mem_of_mem_take hstep)

/-- With a journal the barrier makes it valid, or raises. -/
theorem barrier_seals {nonce : Nat} (h : Sealing b nonce .body s) :
    Post (seq (commitBarrier.map CommitStep.run)) s (fun _ s' => Sealing b nonce .valid s') fun _ _ => True := by
  obtain ⟨s₁, hrun₁, h₁, -⟩ := h.syncJournal
  obtain ⟨s₂, hrun₂, h₂, -⟩ := h₁.syncDirectory
  refine Post.of_run_eq (seq_cons_of_ok hrun₁) (Post.of_run_eq (seq_cons_of_ok hrun₂) ?_)
  by_cases hcount : (b.originals s₂.txn.journalled).length < 2 ^ 32
  · obtain ⟨s₃, hrun₃, h₃, -⟩ := h₂.writeValidity hcount
    obtain ⟨s₄, hrun₄, h₄, -⟩ := h₃.syncValidity
    exact Post.of_run_eq (seq_cons_of_ok hrun₃) (Post.of_run_eq (seq_cons_of_ok hrun₄) h₄)
  · obtain ⟨e, hrun₃⟩ := h₂.writeValidity_overflow hcount
    exact Post.of_run_eq (show _ = (raise e : MachineM Unit) s₂ from bind_of_error hrun₃) True.intro

/-- The journal file so far, which is not valid yet. -/
def Recorded (s : Machine) (n : Nat) (records : List (Nat × Page)) : Prop :=
  match s.txn.journal with
  | none => s.storage.journal = none ∧ records = []
  | some h => ∃ f, s.storage.journal = some f ∧ f.content = Journal.layout (zeros 8) 0 h.nonce n records

/-- The journal on disk is valid and holds these records.  A transaction without a
journal has no barrier to pass and no records. -/
def Sealed (s : Machine) (n : Nat) (records : List (Nat × Page)) : Prop :=
  match s.txn.journal with
  | none => s.storage.journal = none ∧ records = []
  | some h => ∃ f, s.storage.journal = some f ∧ f.AtStage .valid h.nonce n records

/-- What recovery needs of the records: the pages that existed before and whose cached
bytes differ from the file have one each, with what was committed. -/
structure Covers (s₀ s : Machine) (records : List (Nat × Page)) : Prop where
  once : (records.map Prod.fst).Nodup
  original : ∀ r ∈ records, 1 ≤ r.1 ∧ r.1 ≤ s₀.header.pageCount ∧ r.2 = s₀.file.page r.1
  covered : ∀ id f, s.cache.lookup id = some f → id ≤ s₀.header.pageCount → f.data ≠ s.file.page id →
    id ∈ records.map Prod.fst

variable {s₀ : Machine}

theorem Ahead.covers (h : Ahead s₀.snapshot s) (hcache : s'.cache = s.cache) (hfile : s'.file = s.file) :
    Covers s₀ s' (s₀.snapshot.originals s.txn.journalled) := by
  have hfst : (s₀.snapshot.originals s.txn.journalled).map Prod.fst =
      s.txn.journalled.filter fun id => id ≤ s₀.snapshot.pageCount := by
    unfold Snapshot.originals
    rw [List.map_map]
    exact List.map_id _
  refine ⟨?_, fun r hr => ?_, fun id f hf hle hne => ?_⟩
  · rw [hfst]
    exact h.nodup.filter _
  · obtain ⟨hmem, hle, hpage⟩ := Snapshot.mem_originals.mp hr
    exact ⟨h.base.ids _ hmem, hle, hpage⟩
  · rw [hcache] at hf
    rw [hfile, h.file_eq] at hne
    rw [hfst, List.mem_filter, decide_eq_true_eq]
    rcases h.cache id f hf with hsame | hmem | hnew
    · exact absurd hsame hne
    · exact ⟨hmem, hle⟩
    · exact absurd hle (not_le.mpr hnew)

/-- Without a journal nothing that existed before was journalled. -/
theorem Ahead.originals_eq_nil (h : Ahead b s) (hj : s.txn.journal = none) :
    s.storage.journal = none ∧ b.originals s.txn.journalled = [] := by
  have hstate := h.base.journal
  unfold JournalState at hstate
  rw [show Transaction.journal _ = _ from hj] at hstate
  exact ⟨hstate.1, Snapshot.originals_eq_nil hstate.2⟩

theorem Ahead.recorded (h : Ahead b s) : Recorded s b.pageCount (b.originals s.txn.journalled) := by
  unfold Recorded
  cases hj : s.txn.journal with
  | none => exact h.originals_eq_nil hj
  | some hnd =>
      have hstate := h.base.journal
      unfold JournalState at hstate
      rw [show Transaction.journal _ = _ from hj] at hstate
      obtain ⟨f, hf, hinv⟩ := hstate
      exact ⟨f, hf, hinv.content_eq⟩

theorem commitPlan_take {k : Nat} (hk : k ≤ commitBarrier.length) (s : Machine) :
    (commitPlan s).take k = commitBarrier.take k := by
  have hplan : commitPlan s = commitBarrier ++
      (.passBarrier :: ((s.cache.map fun e => CommitStep.flush e.1) ++ [.syncDatabase, .deleteJournal])) := rfl
  rw [hplan, List.take_append_of_le_length hk]

/-- Nothing is written to the file up to the end of the barrier. -/
theorem commitUpTo_disk (h : Ahead b s) {k : Nat} (hk : k ≤ commitBarrier.length) :
    ((commitUpTo k).exec s).storage.disk = ⟨b.file, []⟩ := by
  have hkeeps : Post (commitUpTo k) s (fun _ s' => s'.storage.disk = ⟨b.file, []⟩)
      fun _ s' => s'.storage.disk = ⟨b.file, []⟩ := by
    unfold commitUpTo
    simp only [post_bind, post_state]
    cases s.txn.journal with
    | none => exact h.base.disk
    | some hnd =>
        refine Post.bind (stampHeader_ahead s h) (fun _ s₁ h₁ => ?_) fun _ _ he => he.base.disk
        unfold commitSteps
        rw [post_bind, post_state, commitPlan_take hk]
        refine Post.mono (barrier_keeps _ s₁.txn k s₁ ⟨rfl, rfl⟩) (fun _ s' hs => ?_) fun _ s' hs => ?_
        · exact hs.1.trans h₁.base.disk
        · exact hs.1.trans h₁.base.disk
  unfold Prog.exec
  unfold Post at hkeeps
  split at hkeeps
  · rename_i hrun
    rw [hrun]
    exact hkeeps
  · rename_i hrun
    rw [hrun]
    exact hkeeps

theorem Ahead.sealed_of_commit (h : Ahead s₀.snapshot s)
    (hrun : commitUpTo commitBarrier.length s = (.ok (), s')) :
    ∃ records, Sealed s' s₀.header.pageCount records ∧ Covers s₀ s' records := by
  unfold commitUpTo at hrun
  rw [bind_of_ok (state_apply s)] at hrun
  cases hj : s.txn.journal with
  | none =>
      rw [hj] at hrun
      obtain rfl := (Prod.mk.inj hrun).2
      refine ⟨_, ?_, h.covers rfl rfl⟩
      unfold Sealed
      rw [hj]
      exact h.originals_eq_nil hj
  | some hnd =>
      rw [hj] at hrun
      obtain ⟨_, s₁, hstamp, hbarrier⟩ := exists_of_bind_ok hrun
      have h₁ : Ahead s₀.snapshot s₁ := stampHeader_ahead.ok h hstamp
      unfold commitSteps at hbarrier
      rw [bind_of_ok (state_apply s₁), commitPlan_take le_rfl, List.take_length] at hbarrier
      have hkept : s'.storage.disk = s₁.storage.disk ∧ s'.txn = s₁.txn := by
        have hkeeps := barrier_keeps s₁.storage.disk s₁.txn commitBarrier.length
        rw [List.take_length] at hkeeps
        exact hkeeps.ok ⟨rfl, rfl⟩ hbarrier
      have hfile : s'.file = s₁.file := congrArg Disk.file hkept.1
      cases hj₁ : s₁.txn.journal with
      | none =>
          have hraises : openJournal s₁ = (.error (.assertionError "called before begin()"), s₁) := by
            unfold openJournal
            rw [bind_of_ok (state_apply s₁), hj₁]
            rfl
          have hsync : CommitStep.syncJournal.run s₁ = (.error (.assertionError "called before begin()"), s₁) :=
            bind_of_error hraises
          rw [show seq (commitBarrier.map CommitStep.run) s₁ = _ from bind_of_error hsync] at hbarrier
          cases (Prod.mk.inj hbarrier).1
      | some hnd₁ =>
          have hignores : IgnoresCache (seq (commitBarrier.map CommitStep.run)) := by
            refine .seq fun m hm => ?_
            obtain ⟨step, hstep, rfl⟩ := List.mem_map.mp hm
            exact commitBarrier_ignoresCache step hstep
          have hseals := hignores.post (barrier_seals (h₁.base.sealing hj₁))
          obtain ⟨hcache, hvalid⟩ := hseals.ok hbarrier
          obtain ⟨f, hf, hstage⟩ := hvalid.journal
          refine ⟨_, ?_, h₁.covers hcache hfile⟩
          unfold Sealed
          rw [hkept.2, hj₁]
          refine ⟨f, hf, ?_⟩
          rw [← hkept.2]
          exact hstage

/-! ## Write-ahead -/

/-- No operation of a transaction writes to the database file, and neither does commit
up to the end of `commit_barrier`.  The journal covers every page that differs from the
file, and is valid once the barrier returns. -/
theorem write_ahead_no_steal (h : Begins s₀) (calls : List Call) :
    ((run calls s₀).storage.disk = s₀.storage.disk ∧
        ∃ records, Recorded (run calls s₀) s₀.header.pageCount records ∧
          Covers s₀ (run calls s₀) records) ∧
      (∀ k, k ≤ commitBarrier.length →
        ((commitUpTo k).exec (run calls s₀)).storage.disk = s₀.storage.disk) ∧
      ∀ s, commitUpTo commitBarrier.length (run calls s₀) = (.ok (), s) →
        ∃ records, Sealed s s₀.header.pageCount records ∧ Covers s₀ s records := by
  have hahead := run_ahead h.ahead calls
  have hdisk : s₀.storage.disk = ⟨s₀.snapshot.file, []⟩ := Disk.eq_of_synced h.pending
  refine ⟨⟨?_, _, hahead.recorded, hahead.covers rfl rfl⟩, fun k hk => ?_, fun s hrun => ?_⟩
  · rw [hdisk]
    exact hahead.base.disk
  · rw [hdisk]
    exact commitUpTo_disk hahead hk
  · exact hahead.sealed_of_commit hrun

theorem Begins.of_committed (h : Committed s) : Begins s :=
  ⟨h.pending, h.no_journal_file, h.sound.count_lt,
    fun id f hf => ⟨(h.cache id f hf).1, (h.cache id f hf).2.1⟩, h.fresh⟩

/-- Page 1 is rewritten, a page is grown, written, freed and taken again. -/
def rewriting : List Call :=
  [.getPageForWrite 1, .write 1 Page.zero, .unpin 1 true, .getPage 1, .unpin 1 true, .allocatePage,
    .getPageForWrite 2, .write 2 (freePageImage 1), .unpin 2 false, .evict, .freePage 2, .allocatePage]

theorem write_ahead_no_steal_rewriting :
    ((run rewriting (Machine.create 1 7)).storage.disk = (Machine.create 1 7).storage.disk ∧
        ∃ records, Recorded (run rewriting (Machine.create 1 7)) (Machine.create 1 7).header.pageCount records ∧
          Covers (Machine.create 1 7) (run rewriting (Machine.create 1 7)) records) ∧
      (∀ k, k ≤ commitBarrier.length →
        ((commitUpTo k).exec (run rewriting (Machine.create 1 7))).storage.disk =
          (Machine.create 1 7).storage.disk) ∧
      ∀ s, commitUpTo commitBarrier.length (run rewriting (Machine.create 1 7)) = (.ok (), s) →
        ∃ records, Sealed s (Machine.create 1 7).header.pageCount records ∧
          Covers (Machine.create 1 7) s records :=
  write_ahead_no_steal (.of_committed (create_committed 1 7)) rewriting

end WriteAhead

end QuillDb
