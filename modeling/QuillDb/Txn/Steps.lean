/-
  Txn/Steps.lean --- every pool operation keeps the invariant.
-/
import QuillDb.Txn.Invariant

set_option autoImplicit false

namespace QuillDb

open Prog Machine

variable {b : Snapshot} {s : Machine}

/-! ## The journal file -/

namespace Journal

theorem Write.apply_zero_head {f : Bytes} {w : Write} (hf : f.getD 0 0 = 0) (hw : w.Quiet) :
    (w.apply f).getD 0 0 = 0 := by
  unfold Write.apply
  rcases Nat.eq_zero_or_pos w.off with h0 | hpos
  · have hz := hw h0
    rw [h0]
    cases hd : w.data with
    | nil => simpa [zeros] using hf
    | cons x xs => simpa [zeros, hd] using hz
  · obtain ⟨k, hk⟩ := Nat.exists_eq_succ_of_ne_zero hpos.ne'
    cases f with
    | nil => simp [hk, zeros, List.replicate_succ]
    | cons x xs => simpa [hk] using hf

theorem File.Quiet.write {f : File} (hf : f.Quiet) {w : Write} (hw : w.Quiet) :
    (f.write w).Quiet where
  synced := hf.synced
  pending := by
    intro w' hw'
    rcases List.mem_append.mp hw' with h | h
    · exact hf.pending w' h
    · rw [List.mem_singleton.mp h]
      exact hw

theorem File.quiet_create : File.create.Quiet :=
  ⟨rfl, fun _ hw => by simp [File.create] at hw⟩

/-- Appending at the end of the file. -/
theorem apply_append (f data : Bytes) : Write.apply f ⟨f.length, data⟩ = f ++ data := by
  simp [Write.apply, zeros, List.drop_eq_nil_of_le]

theorem layout_append_record (mark : Bytes) (nrec nonce n id : Nat) (page : Page)
    (records : List (Nat × Page)) :
    layout mark nrec nonce n records ++ record nonce id page =
      layout mark nrec nonce n (records ++ [(id, page)]) := by
  simp [layout, List.append_assoc]

theorem layout_length_pos (mark : Bytes) (nrec nonce n : Nat) (records : List (Nat × Page)) :
    (layout mark nrec nonce n records).length ≠ 0 := by
  simp only [layout, validity, List.length_append, u32_length]
  omega

end Journal

/-! ## Journalling -/

/-- `promote` succeeds and leaves a begun journal. -/
theorem promote_spec (h : InTxn b s) :
    ∃ s', promote s = (.ok (), s') ∧ InTxn b s' ∧ s'.cache = s.cache ∧ s'.header = s.header ∧
      s'.txn.journalled = s.txn.journalled ∧ s'.txn.journal ≠ none := by
  have hj := h.journal
  unfold JournalState at hj
  cases hjn : s.txn.journal with
  | some hd =>
      refine ⟨s, ?_, h, rfl, rfl, rfl, by rw [hjn]; exact Option.some_ne_none _⟩
      unfold promote
      rw [bind_of_ok (state_apply s), hjn]
      rfl
  | none =>
      rw [hjn] at hj
      obtain ⟨hfile, hnew⟩ := hj
      have hrun : promote s = (.ok (), { s with
          storage := { s.storage with
            journal := some (Journal.File.create.write
              ⟨0, Journal.initialHeader s.entropy.toNat s.txn.pageCountBefore⟩) }
          txn := { s.txn with journal := some ⟨s.entropy.toNat, 0, .opened⟩ } }) := by
        have hfits : toBytes4 s.txn.pageCountBefore = .ok (u32 s.txn.pageCountBefore) :=
          toBytes4_of_lt (h.before ▸ h.count_lt)
        unfold promote
        rw [bind_of_ok (state_apply s), hjn]
        simp [bind_apply, updateTxn, onStorage, JournalFile.begin_, hfile, hfits]
      refine ⟨_, hrun, ?_, rfl, rfl, rfl, Option.some_ne_none _⟩
      have hnil := b.originals_eq_nil hnew
      refine { h with journal := ?_ }
      refine ⟨_, rfl, ?_⟩
      constructor
      · rfl
      · exact s.entropy.toNat_lt
      · rw [hnil]; rfl
      · rfl
      · rw [hnil, Journal.File.content_write, h.before, ← Journal.initialHeader_eq_layout]
        simp [Journal.Write.apply, Journal.File.create, Journal.File.content, zeros]
      · exact Journal.File.quiet_create.write fun _ => rfl

/-- `will_modify` either records the page or leaves the invariant in place. -/
theorem willModify_spec (id : Nat) {c : Cache} {d : FileHeader} :
    Triple (fun s => InTxn b s ∧ s.cache = c ∧ s.header = d) (willModify id)
      (fun _ s => InTxn b s ∧ s.cache = c ∧ s.header = d ∧ id ∈ s.txn.journalled)
      (fun _ s => InTxn b s ∧ s.cache = c ∧ s.header = d) := by
  refine Triple.state_bind fun s ⟨h, hc, hhd⟩ => Triple.ite (fun hmem => ?_) fun hmem =>
    Triple.ite (fun hnew => ?_) fun hold => ?_
  · exact Triple.pure fun s' hs' => hs' ▸ ⟨h, hc, hhd, hmem⟩
  · refine Triple.update fun s' hs' => ?_
    subst hs'
    rw [h.before] at hnew
    refine ⟨{ h with ids := ?_, cache := ?_, journal := ?_ }, hc, hhd, by simp⟩
    · intro k hk
      rcases List.mem_append.mp hk with hk | hk
      · exact h.ids k hk
      · rw [List.mem_singleton.mp hk]; omega
    · exact h.cache.mono le_rfl fun k hk => by simp [hk]
    · have hj := h.journal
      unfold JournalState at hj ⊢
      dsimp only
      cases hjn : s'.txn.journal with
      | none =>
          rw [hjn] at hj
          refine ⟨hj.1, fun k hk => ?_⟩
          rcases List.mem_append.mp hk with hk | hk
          · exact hj.2 k hk
          · rw [List.mem_singleton.mp hk]; exact hnew
      | some hnd =>
          rw [hjn] at hj
          obtain ⟨f, hf, hinv⟩ := hj
          refine ⟨f, hf, { hinv with nrec_eq := ?_, content_eq := ?_ }⟩
          · rw [b.originals_append_new hnew, hinv.nrec_eq]
          · rw [b.originals_append_new hnew, hinv.content_eq]
  · intro s' hs'
    subst hs'
    obtain ⟨s₁, hrun, h₁, hc₁, hhd₁, hj₁, hsome⟩ := promote_spec h
    rw [bind_of_ok hrun]
    have hle : id ≤ b.pageCount := by rw [← h.before]; omega
    by_cases hzero : id < 1
    · have hread : onStorage (Pager.readPage id) s₁ = (.error (.pageOutOfRange ""), s₁) := by
        simp [onStorage, Pager.readPage, bind_apply, hzero]
      rw [bind_of_error hread]
      exact ⟨h₁, hc₁.trans hc, hhd₁.trans hhd⟩
    · have hread : onStorage (Pager.readPage id) s₁ = (.ok (b.file.page id), s₁) := by
        have hcount := h₁.count_le
        have hfile := h₁.file_eq
        unfold Machine.file at hfile
        unfold Machine.header at hcount
        simp only [onStorage, Pager.readPage, bind_apply, state_apply]
        rw [if_neg (by omega), hfile]
        rfl
      rw [bind_of_ok hread]
      have hjs := h₁.journal
      unfold JournalState at hjs
      obtain ⟨⟨nonce, nrec, fs⟩, hjn⟩ := Option.ne_none_iff_exists'.mp hsome
      rw [hjn] at hjs
      obtain ⟨f, hf, hinv⟩ := hjs
      have hopen : fs = .opened := hinv.opened
      subst hopen
      have hidlt : toBytes4 id = .ok (u32 id) := toBytes4_of_lt (hle.trans_lt h.count_lt)
      have hrec : (recordOriginal id (b.file.page id) >>= fun _ => updateTxn fun t =>
            { t with journalled := t.journalled ++ [id] }) s₁ =
          (.ok (), { s₁ with
            storage := { s₁.storage with
              journal := some (f.write
                ⟨f.content.length, Journal.record nonce id (b.file.page id)⟩) }
            txn := { s₁.txn with
              journal := some ⟨nonce, nrec + 1, .opened⟩
              journalled := s₁.txn.journalled ++ [id] } }) := by
        unfold recordOriginal
        simp [bind_apply, hjn, onStorage, JournalFile.append, hidlt, hf, updateTxn]
      rw [hrec]
      refine ⟨{ h₁ with ids := ?_, cache := ?_, journal := ?_ }, hc₁.trans hc,
        hhd₁.trans hhd, by simp⟩
      · intro k hk
        rcases List.mem_append.mp hk with hk | hk
        · exact h₁.ids k hk
        · rw [List.mem_singleton.mp hk]; omega
      · exact h₁.cache.mono le_rfl fun k hk => by simp [hk]
      · refine ⟨_, rfl, ?_⟩
        constructor
        · rfl
        · exact hinv.nonce_lt
        · have := hinv.nrec_eq
          rw [b.originals_append_old hle, List.length_append, ← this]
          rfl
        · exact hinv.linked
        · rw [Journal.File.content_write, Journal.apply_append, hinv.content_eq,
            Journal.layout_append_record, b.originals_append_old hle]
        · refine hinv.quiet.write fun h0 => ?_
          exact absurd (hinv.content_eq ▸ h0) (Journal.layout_length_pos _ _ _ _ _)

/-! ## The pool -/

/-- A condition on what an operation leaves alone: the transaction and the header. -/
def Unmoved (t : Transaction) (hd : FileHeader) (s : Machine) : Prop := s.txn = t ∧ s.header = hd

variable {t : Transaction} {d : FileHeader}

/-- Eviction drops at most one entry, and raises with the cache as it was. -/
theorem evictOne_cases (s : Machine) :
    (∃ id, evictOne s = (.ok (), { s with cache := s.cache.erase id })) ∨
    evictOne s = (.ok (), s) ∨ ∃ e, evictOne s = (.error e, s) := by
  unfold evictOne
  rw [bind_of_ok (state_apply s)]
  cases s.cache.find? fun e => e.2.pinCount = 0 ∧ ¬ e.2.dirty with
  | some e => exact .inl ⟨e.1, rfl⟩
  | none =>
      dsimp only
      split
      · exact .inr (.inl rfl)
      · exact .inr (.inr ⟨_, rfl⟩)

/-- Making room evicts or does nothing. -/
theorem makeRoom_cases (s : Machine) :
    (∃ id, makeRoom s = (.ok (), { s with cache := s.cache.erase id })) ∨
    makeRoom s = (.ok (), s) ∨ ∃ e, makeRoom s = (.error e, s) := by
  unfold makeRoom BufferPool.makeRoom
  rw [bind_of_ok (state_apply s)]
  split
  · exact evictOne_cases s
  · exact .inr (.inl rfl)

theorem evictOne_spec : Keeps (fun s => InTxn b s ∧ Unmoved t d s) evictOne := by
  rintro s ⟨h, hu⟩
  rcases evictOne_cases s with ⟨id, hrun⟩ | hrun | ⟨e, hrun⟩ <;> rw [hrun]
  · exact ⟨h.with_cache (h.cache.erase id), hu⟩
  · exact ⟨h, hu⟩
  · exact ⟨h, hu⟩

/-- Making room keeps an absent page absent. -/
theorem makeRoom_spec (id : Nat) :
    Triple (fun s => InTxn b s ∧ Unmoved t d s ∧ s.cache.lookup id = none) makeRoom
      (fun _ s => InTxn b s ∧ Unmoved t d s ∧ s.cache.lookup id = none)
      (fun _ s => InTxn b s ∧ Unmoved t d s) := by
  rintro s ⟨h, hu, hnone⟩
  rcases makeRoom_cases s with ⟨k, hrun⟩ | hrun | ⟨e, hrun⟩ <;> rw [hrun]
  · refine ⟨h.with_cache (h.cache.erase k), hu, ?_⟩
    rw [Dict.lookup_erase, hnone, ite_self]
  · exact ⟨h, hu, hnone⟩
  · exact ⟨h, hu⟩

/-- `read_page` returns the page of the untouched file, or is out of range. -/
theorem readPage_spec (id : Nat) {c : Cache} :
    Triple (fun s => InTxn b s ∧ Unmoved t d s ∧ s.cache = c) (onStorage (Pager.readPage id))
      (fun page s => InTxn b s ∧ Unmoved t d s ∧ s.cache = c ∧ page = b.file.page id ∧
        1 ≤ id ∧ id ≤ s.header.pageCount)
      (fun _ s => InTxn b s ∧ Unmoved t d s) := by
  rintro s ⟨h, hu, hc⟩
  have hfile := h.file_eq
  unfold Machine.file at hfile
  by_cases hrange : id < 1 ∨ s.storage.header.pageCount < id
  · have hrun : onStorage (Pager.readPage id) s = (.error (.pageOutOfRange ""), s) := by
      simp only [onStorage, Pager.readPage, bind_apply, state_apply]
      rw [if_pos hrange]
      rfl
    rw [hrun]
    exact ⟨h, hu⟩
  · have hrun : onStorage (Pager.readPage id) s = (.ok (b.file.page id), s) := by
      simp only [onStorage, Pager.readPage, bind_apply, state_apply]
      rw [if_neg hrange, hfile]
      rfl
    rw [hrun]
    refine ⟨h, hu, hc, rfl, ?_⟩
    unfold Machine.header
    omega

/-- The frame `get_page` leaves: pinned, and holding the page it returned. -/
def Pinned (id : Nat) (page : Page) (s : Machine) : Prop :=
  ∃ f, s.cache.lookup id = some f ∧ 0 < f.pinCount ∧ f.data = page

theorem getPage_spec (id : Nat) :
    Triple (fun s => InTxn b s ∧ Unmoved t d s) (Machine.getPage id)
      (fun page s => InTxn b s ∧ Unmoved t d s ∧ Pinned id page s)
      (fun _ s => InTxn b s ∧ Unmoved t d s) := by
  refine Triple.state_bind fun s ⟨h, hu⟩ => ?_
  cases hf : s.cache.lookup id with
  | some entry =>
      refine Triple.bind (Q := fun _ s => InTxn b s ∧ Unmoved t d s ∧ Pinned id entry.data s)
        (Triple.update fun s' hs' => ?_) fun _ => Triple.pure fun s' hs' => hs'
      subst hs'
      refine ⟨h.with_cache (h.cache.moveToEnd hf rfl rfl), hu,
        { entry with pinCount := entry.pinCount + 1 }, ?_, Nat.succ_pos _, rfl⟩
      rw [Dict.lookup_moveToEnd, if_pos rfl]
  | none =>
      refine Triple.bind ((makeRoom_spec (b := b) (t := t) (d := d) id).conseq
        (fun s' hs' => hs' ▸ ⟨h, hu, hf⟩) (fun _ _ hs => hs) fun _ _ hs => hs) fun _ => ?_
      rintro s₁ ⟨h₁, hu₁, hnone⟩
      refine Triple.bind (readPage_spec (b := b) (t := t) (d := d) (c := s₁.cache) id)
        (fun page => ?_) s₁ ⟨h₁, hu₁, rfl⟩
      refine Triple.bind (Q := fun _ s => InTxn b s ∧ Unmoved t d s ∧ Pinned id page s)
        (Triple.update fun s₂ ⟨h₂, hu₂, hc, hp, hr⟩ => ?_) fun _ => Triple.pure fun s hs => hs
      subst hp
      refine ⟨h₂.with_cache (h₂.cache.append hr), hu₂, ⟨b.file.page id, 1, false⟩, ?_,
        Nat.one_pos, rfl⟩
      rw [Dict.lookup_append_single, hc, hnone, if_pos rfl]
      rfl

/-- A page obtained for writing is pinned, dirty and journalled or new. -/
theorem getPageForWrite_spec (id : Nat) :
    Triple (fun s => InTxn b s ∧ s.header = d) (Machine.getPageForWrite id)
      (fun page s => InTxn b s ∧ s.header = d ∧ id ∈ s.txn.journalled ∧
        ∃ f, s.cache.lookup id = some f ∧ 0 < f.pinCount ∧ f.dirty = true ∧ f.data = page)
      (fun _ s => InTxn b s ∧ s.header = d) := by
  rintro s ⟨h, hhd⟩
  refine Triple.bind ((willModify_spec (b := b) (c := s.cache) (d := d) id).conseq
    (fun _ hs => hs) (fun _ _ hs => hs) fun _ _ hs => ⟨hs.1, hs.2.2⟩) (fun _ => ?_) s ⟨h, rfl, hhd⟩
  rintro s₁ ⟨h₁, -, hhd₁, hmem⟩
  refine Triple.bind ((getPage_spec (b := b) (t := s₁.txn) (d := d) id).conseq
    (fun _ hs => hs) (fun _ _ hs => hs) fun _ _ hs => ⟨hs.1, hs.2.2⟩) (fun page => ?_)
    s₁ ⟨h₁, rfl, hhd₁⟩
  refine Triple.bind (Q := fun _ s => InTxn b s ∧ s.header = d ∧ id ∈ s.txn.journalled ∧
    ∃ f, s.cache.lookup id = some f ∧ 0 < f.pinCount ∧ f.dirty = true ∧ f.data = page)
    (Triple.update fun s₂ ⟨h₂, hu₂, f, hf, hpin, hdata⟩ => ?_) fun _ => Triple.pure fun s hs => hs
  have hmem₂ : id ∈ s₂.txn.journalled := hu₂.1 ▸ hmem
  refine ⟨h₂.with_cache (h₂.cache.modify fun g _ => ⟨nofun, fun _ => .inl hmem₂⟩),
    hu₂.2, hmem₂, { f with dirty := true }, ?_, hpin, rfl, hdata⟩
  rw [Dict.lookup_modify, if_pos rfl, hf]
  rfl

theorem unpin_spec (id : Nat) : Keeps (fun s => InTxn b s ∧ Unmoved t d s) (Machine.unpin id) := by
  refine Triple.state_bind fun s ⟨h, hu⟩ => ?_
  cases hf : s.cache.lookup id with
  | none => exact Triple.raise fun s' hs' => hs' ▸ ⟨h, hu⟩
  | some entry =>
      refine Triple.ite (fun _ => Triple.raise fun s' hs' => hs' ▸ ⟨h, hu⟩) fun _ =>
        Triple.update fun s' hs' => hs' ▸ ⟨h.with_cache (h.cache.modify fun f hf => ?_), hu⟩
      obtain ⟨-, -, hclean, hdirty⟩ := h.cache id f hf
      exact ⟨hclean, hdirty⟩

theorem mutate_spec (id : Nat) (page : Page) :
    Keeps (fun s => InTxn b s ∧ Unmoved t d s) (Machine.mutate id page) := by
  refine Triple.state_bind fun s ⟨h, hu⟩ => ?_
  cases hf : s.cache.lookup id with
  | none => exact Triple.pure fun s' hs' => hs' ▸ ⟨h, hu⟩
  | some entry =>
      refine Triple.ite (fun hpin => ?_) fun _ => Triple.pure fun s' hs' => hs' ▸ ⟨h, hu⟩
      refine Triple.update fun s' hs' => hs' ▸ ⟨h.with_cache (h.cache.modify fun f hf' => ?_), hu⟩
      obtain rfl := Option.some.inj (hf.symm.trans hf')
      obtain ⟨-, -, -, hdirty⟩ := h.cache id entry hf
      exact ⟨fun hclean => by simp [hpin.2] at hclean, hdirty⟩

theorem discard_spec (id : Nat) :
    Keeps (fun s => InTxn b s ∧ Unmoved t d s) (Machine.discard id) := by
  refine Triple.state_bind fun s ⟨h, hu⟩ => ?_
  cases hf : s.cache.lookup id with
  | none => exact Triple.pure fun s' hs' => hs' ▸ ⟨h, hu⟩
  | some entry =>
      exact Triple.ite (fun _ => Triple.raise fun s' hs' => hs' ▸ ⟨h, hu⟩) fun _ =>
        Triple.update fun s' hs' => hs' ▸ ⟨h.with_cache (h.cache.erase id), hu⟩

/-- A header change that keeps the invariant. -/
theorem setHeader_spec {f : FileHeader → FileHeader}
    (hf : ∀ h h' : FileHeader, h.SameFrame h' → h.SameFrame (f h'))
    (hcount : ∀ h : FileHeader, h.pageCount ≤ (f h).pageCount) :
    Keeps (InTxn b) (setHeader f) :=
  fun _ h => h.with_header (hf _ _ h.frame) (hcount _)

/-- What keeps the invariant whatever the transaction and the header are. -/
theorem Keeps.forget {α : Type} {m : MachineM α}
    (h : ∀ t d, Keeps (fun s => InTxn b s ∧ Unmoved t d s) m) : Keeps (InTxn b) m :=
  fun s hs => ((h s.txn s.header).conseq (fun _ h => h) (fun _ _ h => h.1) (fun _ _ h => h.1))
    s ⟨hs, rfl, rfl⟩

theorem getPageForWrite_keeps (id : Nat) : Keeps (InTxn b) (Machine.getPageForWrite id) :=
  fun s hs => ((getPageForWrite_spec (d := s.header) id).conseq (fun _ h => h)
    (fun _ _ h => h.1) (fun _ _ h => h.1)) s ⟨hs, rfl⟩

theorem allocatePage_keeps : Keeps (InTxn b) Machine.allocatePage := by
  refine Triple.state_bind fun s h => Triple.ite (fun _ => ?_) fun _ => ?_
  · refine Keeps.of_eq ?_ h
    refine (getPageForWrite_keeps _).bind fun page => Keeps.bind (setHeader_spec ?_ fun _ => le_rfl)
      fun _ => (Keeps.forget fun t d => unpin_spec _).bind fun _ => Triple.pure fun _ hs => hs
    rintro h h' ⟨pc, tr, ct, ck, rfl⟩
    exact ⟨pc, _, _, ck, rfl⟩
  · intro s' hs'
    subst hs'
    have hcount := h.count_le
    obtain ⟨pc, tr, ct, ck, hframe⟩ := h.frame
    have hgrown := h.with_header
      (show b.header.SameFrame { s'.header with pageCount := s'.header.pageCount + 1 } from
        ⟨_, tr, ct, ck, by rw [hframe]⟩) (Nat.le_succ _)
    exact hgrown.with_cache (hgrown.cache.put_new ⟨Nat.succ_pos _, le_rfl⟩
      (Nat.lt_succ_of_le hcount))

theorem freePage_keeps (id : Nat) : Keeps (InTxn b) (Machine.freePage id) := by
  refine Triple.state_bind fun s h => Triple.ite (fun _ => Triple.raise fun _ hs => hs ▸ h)
    fun _ => Triple.ite (fun _ => Triple.raise fun _ hs => hs ▸ h) fun _ => ?_
  refine Keeps.of_eq ?_ h
  refine (Keeps.forget fun t d => discard_spec id).bind fun _ =>
    (getPageForWrite_keeps id).bind fun _ =>
    Triple.lift_bind (fun _ _ => ?_) (fun _ _ _ hs => hs)
  refine (Keeps.forget fun t d => mutate_spec id _).bind fun _ =>
    (Keeps.forget fun t d => unpin_spec id).bind fun _ => setHeader_spec ?_ fun _ => le_rfl
  rintro h h' ⟨pc, tr, ct, ck, rfl⟩
  exact ⟨pc, _, _, ck, rfl⟩

/-- Every operation keeps the invariant, whether it returns or raises. -/
theorem Op.run_keeps (op : Op) : Keeps (InTxn b) op.run := by
  cases op with
  | getPage id =>
      exact Keeps.bind (Keeps.forget fun t d => (getPage_spec id).conseq (fun _ h => h)
        (fun _ _ h => ⟨h.1, h.2.1⟩) fun _ _ h => h) fun _ => Triple.pure fun _ hs => hs
  | getPageForWrite id =>
      exact (getPageForWrite_keeps id).bind fun _ => Triple.pure fun _ hs => hs
  | mutate id page => exact Keeps.forget fun t d => mutate_spec id page
  | unpin id => exact Keeps.forget fun t d => unpin_spec id
  | evict => exact Keeps.forget fun t d => evictOne_spec
  | allocatePage => exact allocatePage_keeps.bind fun _ => Triple.pure fun _ hs => hs
  | freePage id => exact freePage_keeps id
  | bumpSchemaCookie =>
      refine fun s h => h.with_header ?_ le_rfl
      obtain ⟨pc, tr, ct, ck, hframe⟩ := h.frame
      exact ⟨pc, tr, ct, _, by rw [show s.storage.header = s.header from rfl, hframe]⟩

/-- The invariant holds after every run of pool operations. -/
theorem inTxn_runOps (h : InTxn b s) (ops : List Op) : InTxn b (runOps ops s) := by
  induction ops generalizing s with
  | nil => exact h
  | cons op ops ih => exact ih ((Op.run_keeps op).exec h)

end QuillDb
