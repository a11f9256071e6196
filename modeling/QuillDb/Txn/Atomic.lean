/-
  Txn/Atomic.lean --- atomicity of a transaction over every crash point.

  The states commit passes through are good in the sense of `CrashOk`: whatever a
  crash leaves, recovery finds the database from before, or, once the journal was
  unlinked, the file already is the database from after.
-/
import QuillDb.Txn.Crash

set_option autoImplicit false

namespace QuillDb

open Prog Machine

variable {b : Snapshot} {nonce : Nat} {s s₁ : Machine}

/-! ## The header on disk -/

/-- Page 1 carries the header from before, or the valid one commit stamped. -/
def HeaderOk (b : Snapshot) (h : FileHeader) (f : DbFile) : Prop :=
  f.headerBytes = b.file.headerBytes ∨ h.Valid ∧ f.headerBytes = h.layout

theorem headerBytes_eq_page {f : DbFile} (hf : 1 ≤ f.length) :
    f.headerBytes = (f.page schemaRootPage).bytes.take fileHeaderSize := by
  cases f with
  | nil => simp at hf
  | cons p f => rfl

/-- An operation that writes page 1 with the stamped header only. -/
def FileOp.KeepsHeader (h : FileHeader) (op : FileOp) : Prop :=
  ∀ p, op = .write schemaRootPage p → p.bytes.take fileHeaderSize = h.layout

theorem HeaderOk.apply {h : FileHeader} {journalled : List Nat} {f : DbFile}
    (hok : HeaderOk b h f) (hb : b.Sound) (hh : h.Valid) (hintact : Intact b journalled f)
    {op : FileOp}
    (hharm : op.Harmless b.pageCount journalled) (hop : op.KeepsHeader h) :
    HeaderOk b h (op.apply f) := by
  have hone : 1 ≤ schemaRootPage := le_rfl
  have hlen : 1 ≤ f.length := hb.one_le.trans hintact.length_le
  have hlen' : 1 ≤ (op.apply f).length := hb.one_le.trans (hintact.apply hharm).length_le
  unfold HeaderOk at hok ⊢
  rw [headerBytes_eq_page hlen] at hok
  rw [headerBytes_eq_page hlen']
  cases op with
  | write id p =>
      rw [FileOp.apply]
      by_cases hid : schemaRootPage = id
      · subst hid
        rw [DbFile.page_pwrite_self f hone]
        exact .inr ⟨hh, hop p rfl⟩
      · rw [DbFile.page_pwrite_ne f hharm.1 hone hid]
        exact hok
  | truncate k =>
      obtain rfl : k = b.pageCount := hharm
      rw [FileOp.apply, DbFile.page_resize f hone hb.one_le]
      exact hok

/-- The header on disk is one of the two in every crash image. -/
theorem HeaderOk.crashImage {h : FileHeader} {journalled : List Nat} {d : Disk} {f : DbFile}
    (hok : HeaderOk b h d.synced) (hb : b.Sound) (hh : h.Valid)
    (hintact : Intact b journalled d.synced)
    (hharm : ∀ op ∈ d.pending, op.Harmless b.pageCount journalled)
    (hkeep : ∀ op ∈ d.pending, op.KeepsHeader h) (hf : d.CrashImage f) : HeaderOk b h f :=
  (hf.induction (fun g => HeaderOk b h g ∧ Intact b journalled g) ⟨hok, hintact⟩
    fun op hop _ hg => ⟨hg.1.apply hb hh hg.2 (hharm op hop) (hkeep op hop),
      hg.2.apply (hharm op hop)⟩).1

/-! ## What a crash during commit may leave -/

/-- The journal is gone and the file is the database of `s₁`. -/
structure Survivor.CommittedAs (s₁ : Machine) (sv : Survivor) : Prop where
  no_journal : sv.journal = none
  page_eq : ∀ id, 1 ≤ id → id ≤ s₁.header.pageCount → sv.file.page id = s₁.page id
  header_eq : sv.file.headerBytes = s₁.header.layout
  header_valid : s₁.header.Valid

/-- Every crash image can be undone, or the journal was unlinked and the file is the
new database. -/
def CrashOk (b : Snapshot) (s₁ : Machine) (st : Storage) : Prop :=
  ∀ sv, st.CrashImage sv →
    (sv.Undoable b ∨ (∃ f, st.journal = some f ∧ f.unlinked = true) ∧ sv.CommittedAs s₁) ∧
      HeaderOk b s₁.header sv.file ∧ b.pageCount ≤ sv.file.length

theorem InTxn.crashOk (h : InTxn b s) (hb : b.Sound) (s₁ : Machine) :
    CrashOk b s₁ s.storage := fun _ hcrash =>
  have ⟨hundo, hfile⟩ := h.undoable hcrash
  ⟨.inl hundo, .inl (by rw [hfile]), by rw [hfile]; exact hb.length_le⟩

theorem Sealing.crashOk {stage : Stage} (h : Sealing b nonce stage s) (hb : b.Sound)
    (hcount : stage = .marked ∨ stage = .valid → (b.originals s.txn.journalled).length < 2 ^ 32)
    (hpos : 0 < (b.originals s.txn.journalled).length) (s₁ : Machine) :
    CrashOk b s₁ s.storage := fun _ hcrash =>
  have ⟨hundo, hfile⟩ := h.undoable hb hcount hpos hcrash
  ⟨.inl hundo, .inl (by rw [hfile]), by rw [hfile]; exact hb.length_le⟩

/-! ## From the barrier on -/

/-- The machine while pages are written: it still shows the database of `s₁`. -/
structure Writing (b : Snapshot) (nonce : Nat) (s₁ s : Machine) : Prop
    extends Flushing b nonce s where
  header_eq : s.header = s₁.header
  page_eq : ∀ k, 1 ≤ k → s.page k = s₁.page k
  cached : ∀ k f, s.cache.lookup k = some f → k ∈ s₁.cache.map Prod.fst
  header_valid : s₁.header.Valid
  stamped : Stamped s₁.header s
  pending_header : ∀ op ∈ s.storage.disk.pending, op.KeepsHeader s₁.header
  synced_header : HeaderOk b s₁.header s.storage.disk.synced

namespace Writing

/-- The journal is in force for every crash. -/
theorem crash (h : Writing b nonce s₁ s) (hpos : 0 < (b.originals s.txn.journalled).length)
    {sv : Survivor} {st : Storage} (hdisk : st.disk = s.storage.disk)
    (hcrash : st.CrashImage sv) {f : Journal.File} (hjournal : st.journal = some f)
    (hsynced : f.synced = Journal.layout journalMagic (b.originals s.txn.journalled).length nonce
      b.pageCount (b.originals s.txn.journalled))
    (hpending : f.pending = []) :
    (∀ j, sv.journal = some j → sv.Undoable b) ∧ Intact b s.txn.journalled sv.file := by
  obtain ⟨hfile, hj⟩ := hcrash
  rw [hdisk] at hfile
  rw [hjournal] at hj
  have hintact := h.synced_intact.crashImage h.pending_harmless hfile
  refine ⟨fun j hsv => ?_, hintact⟩
  rw [hsv] at hj
  obtain rfl : j = f.synced := hj.eq_synced hpending
  exact .hot nonce s.txn.journalled _ hsv
    (hsynced ▸ h.toCore.replayable h.count_records hpos) hintact

theorem crashOk (h : Writing b nonce s₁ s) (hb : b.Sound)
    (hpos : 0 < (b.originals s.txn.journalled).length) : CrashOk b s₁ s.storage := by
  intro sv hcrash
  obtain ⟨f, hf, hlink, hsynced, hpending, hname⟩ := h.journal
  obtain ⟨hundo, hintact⟩ := h.crash hpos rfl hcrash hf hsynced hpending
  refine ⟨.inl ?_, h.synced_header.crashImage hb h.header_valid h.synced_intact h.pending_harmless
    h.pending_header hcrash.1, hintact.length_le⟩
  cases hsv : sv.journal with
  | some j => exact hundo j hsv
  | none =>
      have hj := hcrash.2
      rw [hf, hsv] at hj
      simp [Journal.File.CrashImage, hname, hlink] at hj

/-- The page a dirty frame writes keeps the header if it is page 1. -/
theorem write_keepsHeader (h : Writing b nonce s₁ s) {id : Nat} {entry : Frame}
    (hf : s.cache.lookup id = some entry) :
    (FileOp.write id entry.data).KeepsHeader s₁.header := by
  rintro p ⟨⟩
  obtain ⟨f, hf', htake⟩ := h.stamped
  obtain rfl := Option.some.inj (hf.symm.trans hf')
  exact htake

/-- Flushing one page: the file catches up, what the pool shows does not change. -/
theorem flushPage (h : Writing b nonce s₁ s) (id : Nat) :
    ∃ s', Machine.flushPage id s = (.ok (), s') ∧ Writing b nonce s₁ s' ∧ s'.txn = s.txn ∧
      (∀ f, s'.cache.lookup id = some f → f.dirty = false) ∧
      ∀ k, (∀ f, s.cache.lookup k = some f → f.dirty = false) →
        ∀ f, s'.cache.lookup k = some f → f.dirty = false := by
  rcases h.toFlushing.flushPage_cases id with ⟨hrun, hclean⟩ | ⟨entry, hf, hd, hrun⟩
  · exact ⟨s, hrun, h, rfl, hclean, fun _ hk => hk⟩
  · obtain ⟨s', hrun', hflush, hhd, hpages, hclean, hkeep⟩ := h.toFlushing.flushPage id
    rw [hrun] at hrun'
    obtain rfl := (Prod.mk.inj hrun').2
    refine ⟨_, hrun, ?_, rfl, hclean, fun k hk f hkf => ?_⟩
    · refine { hflush with
        header_eq := h.header_eq
        page_eq := fun k hk => (hpages k hk).trans (h.page_eq k hk)
        cached := fun k f hk => ?_
        header_valid := h.header_valid
        stamped := ?_
        pending_header := fun op hop => ?_
        synced_header := h.synced_header }
      · rw [Dict.lookup_modify] at hk
        split at hk
        · obtain ⟨g, hg, -⟩ := Option.map_eq_some_iff.mp hk
          exact h.cached k g hg
        · exact h.cached k f hk
      · obtain ⟨g, hg, htake⟩ := h.stamped
        unfold Stamped
        dsimp only
        rw [Dict.lookup_modify, hg]
        split
        · exact ⟨_, rfl, htake⟩
        · exact ⟨g, rfl, htake⟩
      · rcases List.mem_append.mp hop with hop | hop
        · exact h.pending_header op hop
        · rw [List.mem_singleton.mp hop]
          exact h.write_keepsHeader hf
    · rw [Dict.lookup_modify] at hkf
      split at hkf
      · obtain ⟨g, -, rfl⟩ := Option.map_eq_some_iff.mp hkf
        rfl
      · exact hk f hkf

/-- Flushing a list of pages leaves all of them clean. -/
theorem flushAll (h : Writing b nonce s₁ s) (ids : List Nat) :
    ∃ s', seq (ids.map fun id => (CommitStep.flush id).run) s = (.ok (), s') ∧
      Writing b nonce s₁ s' ∧ s'.txn = s.txn ∧
      (∀ id ∈ ids, ∀ f, s'.cache.lookup id = some f → f.dirty = false) ∧
      ∀ k, (∀ f, s.cache.lookup k = some f → f.dirty = false) →
        ∀ f, s'.cache.lookup k = some f → f.dirty = false := by
  induction ids generalizing s with
  | nil => exact ⟨s, rfl, h, rfl, nofun, fun _ hk => hk⟩
  | cons id ids ih =>
      obtain ⟨s', hrun, hw, htxn, hclean, hkeep⟩ := h.flushPage id
      obtain ⟨s'', hrun', hw', htxn', hclean', hkeep'⟩ := ih hw
      refine ⟨s'', ?_, hw', htxn'.trans htxn, fun k hk => ?_, fun k hk => hkeep' k (hkeep k hk)⟩
      · rw [List.map_cons, seq_cons_of_ok (show (CommitStep.flush id).run s = _ from hrun)]
        exact hrun'
      · rcases List.mem_cons.mp hk with rfl | hk
        · exact hkeep' k hclean
        · exact hclean' k hk

/-- When every cached page is clean the file is the database. -/
theorem file_page (h : Writing b nonce s₁ s)
    (hclean : ∀ id ∈ s₁.cache.map Prod.fst, ∀ f, s.cache.lookup id = some f → f.dirty = false)
    {id : Nat} (hid : 1 ≤ id) : s.file.page id = s₁.page id := by
  rw [← h.page_eq id hid]
  unfold Machine.page
  cases hf : s.cache.lookup id with
  | none => rfl
  | some f =>
      obtain ⟨-, -, hdata, -⟩ := h.cache id f hf
      exact (hdata (hclean id (h.cached id f hf) f hf)).symm

end Writing

/-- The header fields that were stamped make a valid header. -/
theorem StampDone.header_valid {d : FileHeader} (h : StampDone b d s) (hb : b.Sound) : d.Valid := by
  have hframe := h.inv.frame
  rw [h.header_eq] at hframe
  obtain ⟨pc, tr, ct, ck, hframe⟩ := hframe
  refine ⟨h.fits, ?_, ?_⟩
  · have hpos := hb.one_le
    have hle := h.inv.count_le
    rw [h.header_eq] at hle
    omega
  · rw [hframe]
    exact hb.valid.supported

theorem StampDone.records_pos {d : FileHeader} (h : StampDone b d s) (hb : b.Sound) :
    0 < (b.originals s.txn.journalled).length :=
  List.length_pos_of_mem (a := (schemaRootPage, b.file.page schemaRootPage))
    (Snapshot.mem_originals.mpr ⟨h.mem, hb.one_le, rfl⟩)

/-! ## Commit -/

/-- Past the barrier nothing has been written yet. -/
theorem Flushing.writing (h : Flushing b nonce s) (hcache : s.cache = s₁.cache)
    (hhd : s.header = s₁.header) (hfile : s.file = s₁.file)
    (hdisk : s.storage.disk = ⟨b.file, []⟩) (hvalid : s₁.header.Valid)
    (hstamped : Stamped s₁.header s₁) : Writing b nonce s₁ s :=
  { h with
    header_eq := hhd
    page_eq := fun k _ => by unfold Machine.page; rw [hcache, hfile]
    cached := fun k f hk => Dict.key_mem_of_lookup (hcache ▸ hk)
    header_valid := hvalid
    stamped := by unfold Stamped at hstamped ⊢; rwa [hcache]
    pending_header := fun op hop => by rw [hdisk] at hop; cases hop
    synced_header := by rw [hdisk]; exact .inl rfl }

/-- The journal is unlinked and the file synced: it holds all that the pool shows, which
is what it shows in `s₁`. -/
structure Finished (s₁ s : Machine) : Prop where
  pending : s.storage.disk.pending = []
  unlinked : ∃ f, s.storage.journal = some f ∧ f.unlinked = true
  header_valid : s₁.header.Valid
  header_synced : s.file.headerBytes = s₁.header.layout
  cache : ∀ id f, s.cache.lookup id = some f →
    f.dirty = false ∧ f.data = s.file.page id ∧ 1 ≤ id ∧ id ≤ s.header.pageCount
  page_eq : ∀ id, 1 ≤ id → s.page id = s₁.page id

/-- A point where commit may be cut: crashes are good, the header is that of `s₁`, a
rollback finds what it needs, and once the journal is closed commit is done. -/
structure CutOk (b : Snapshot) (s₁ s : Machine) : Prop where
  crashOk : CrashOk b s₁ s.storage
  header_eq : s.header = s₁.header
  rollback : RollbackState b s
  finished : ∀ hnd, s.txn.journal = some hnd → hnd.file = .closed → Finished s₁ s

theorem CutOk.of_ready (hcrash : CrashOk b s₁ s.storage) (hhd : s.header = s₁.header)
    (h : Ready b nonce s) : CutOk b s₁ s := by
  refine ⟨hcrash, hhd, .ready nonce h, fun hnd hj hclosed => ?_⟩
  obtain rfl := Option.some.inj (h.handle.symm.trans hj)
  cases hclosed

theorem InTxn.cutOk (h : InTxn b s) (hb : b.Sound) (hhd : s.header = s₁.header) : CutOk b s₁ s := by
  refine ⟨h.crashOk hb _, hhd, h.rollbackState hb, fun hnd hj hclosed => ?_⟩
  have hstate := h.journal
  unfold JournalState at hstate
  rw [hj] at hstate
  obtain ⟨f, -, hinv⟩ := hstate
  rw [hinv.opened] at hclosed
  cases hclosed

/-- The last two steps: the database is synced, and the journal unlinked. -/
theorem Writing.finish (h : Writing b nonce s₁ s) (hb : b.Sound)
    (hpos : 0 < (b.originals s.txn.journalled).length)
    (hclean : ∀ id ∈ s₁.cache.map Prod.fst, ∀ f, s.cache.lookup id = some f → f.dirty = false) :
    Along (CutOk b s₁)
      [CommitStep.syncDatabase.run, CommitStep.deleteJournal.run] s := by
  let s₂ : Machine := { s with storage := { s.storage with disk := s.storage.disk.sync } }
  let s₃ : Machine := { s₂ with
    storage := { s₂.storage with journal := s₂.storage.journal.map Journal.File.unlink }
    txn := { s₂.txn with journal := some ⟨nonce, (b.originals s.txn.journalled).length, .closed⟩ } }
  have hintact := h.synced_intact.file h.pending_harmless
  have hok := h.synced_header.crashImage hb h.header_valid h.synced_intact h.pending_harmless h.pending_header
    s.storage.disk.crashImage_file
  have hw₂ : Writing b nonce s₁ s₂ := { h with
    synced_intact := hintact
    pending_harmless := nofun
    pending_header := nofun
    synced_header := hok }
  have hrun₂ : CommitStep.syncDatabase.run s = (.ok (), s₂) := rfl
  have hrun₃ : CommitStep.deleteJournal.run s₂ = (.ok (), s₃) :=
    (bind_of_ok hw₂.toCore.openJournal).trans rfl
  obtain ⟨f, hf, hlink, hsynced, hpending, hname⟩ := h.journal
  have hf₃ : s₃.storage.journal = some f.unlink := by
    show s.storage.journal.map _ = _
    rw [hf]
    rfl
  have hall : ∀ id g, s.cache.lookup id = some g → g.dirty = false :=
    fun id g hg => hclean id (h.cached id g hg) g hg
  -- page 1 carries the header, and the file has it
  have hheader : s.file.headerBytes = s₁.header.layout := by
    have hone : 1 ≤ schemaRootPage := le_rfl
    obtain ⟨g, hg, htake⟩ := h.stamped
    have hpage : s.page schemaRootPage = g.data := by
      unfold Machine.page
      rw [hg]
    have hlen : 1 ≤ s.file.length := hb.one_le.trans hintact.length_le
    rw [headerBytes_eq_page hlen, h.file_page hclean hone, ← h.page_eq _ hone, hpage]
    exact htake
  have hfinished : Finished s₁ s₃ := by
    refine ⟨rfl, ⟨f.unlink, hf₃, rfl⟩, h.header_valid, hheader, fun id g hg => ?_, h.page_eq⟩
    obtain ⟨hlo, hhi, hdata, -⟩ := h.cache id g hg
    exact ⟨hall id g hg, hdata (hall id g hg), hlo, hhi⟩
  refine .cons (.of_ready (h.crashOk hb hpos) h.header_eq h.toFlushing.ready) hrun₂
    (.cons (.of_ready (hw₂.crashOk hb hpos) h.header_eq hw₂.toFlushing.ready) hrun₃
      ⟨?_, h.header_eq, .closed _ rfl rfl, fun _ _ _ => hfinished⟩)
  intro sv hcrash
  have hcrash₂ := hw₂.crash hpos (show s₃.storage.disk = s₂.storage.disk from rfl) hcrash hf₃
    hsynced hpending
  have hfile : sv.file = s.file := hcrash.1.eq_synced rfl
  refine ⟨?_, by rw [hfile]; exact hok, hcrash₂.2.length_le⟩
  cases hsv : sv.journal with
  | some j => exact .inl (hcrash₂.1 j hsv)
  | none =>
      refine .inr ⟨⟨f.unlink, hf₃, rfl⟩, hsv, fun id hid hle => ?_, ?_, h.header_valid⟩
      · rw [hfile]
        exact h.file_page hclean hid
      · rw [hfile]
        exact hheader

/-- Commit is good wherever it is cut. -/
theorem StampDone.commit_along (h : StampDone b s₁.header s₁) (hb : b.Sound) :
    Along (CutOk b s₁) ((commitPlan s₁).map CommitStep.run) s₁ := by
  have hpos := h.records_pos hb
  obtain ⟨nonce, hbody⟩ := h.sealing hb
  obtain ⟨s₂, hrun₂, hsync, hc₂, hh₂, hf₂⟩ := hbody.syncJournal
  obtain ⟨s₃, hrun₃, hnamed, hc₃, hh₃, hf₃⟩ := hsync.syncDirectory
  have hj₂ : s₂.txn = s₁.txn := by
    rw [CommitStep.run, bind_of_ok hbody.toCore.openJournal] at hrun₂
    obtain rfl := (Prod.mk.inj hrun₂).2
    rfl
  have hj₃ : s₃.txn = s₂.txn := by
    obtain rfl := (Prod.mk.inj hrun₃).2
    rfl
  have hplan : (commitPlan s₁).map CommitStep.run =
      CommitStep.syncJournal.run :: CommitStep.syncDirectory.run :: CommitStep.writeValidity.run ::
      CommitStep.syncValidity.run :: CommitStep.passBarrier.run ::
      (((s₁.cache.map Prod.fst).map fun id => (CommitStep.flush id).run) ++
        [CommitStep.syncDatabase.run, CommitStep.deleteJournal.run]) := by
    simp [commitPlan, Function.comp_def]
  have hrec₂ : b.originals s₂.txn.journalled = b.originals s₁.txn.journalled := by rw [hj₂]
  have hrec₃ : b.originals s₃.txn.journalled = b.originals s₁.txn.journalled := by rw [hj₃, hj₂]
  rw [hplan]
  refine .cons (.of_ready (hbody.crashOk hb (by simp) hpos s₁) rfl (hbody.ready hb (by simp))) hrun₂ ?_
  refine .cons (.of_ready (hsync.crashOk hb (by simp) (hrec₂ ▸ hpos) s₁) hh₂
    (hsync.ready hb (by simp))) hrun₃ ?_
  have hok₃ : CutOk b s₁ s₃ :=
    .of_ready (hnamed.crashOk hb (by simp) (hrec₃ ▸ hpos) s₁) (by rw [hh₃, hh₂])
      (hnamed.ready hb (by simp))
  by_cases hcount : (b.originals s₃.txn.journalled).length < 2 ^ 32
  · obtain ⟨s₄, hrun₄, hmarked, hc₄, hh₄, hf₄, hj₄⟩ := hnamed.writeValidity hcount
    have hcount₄ : (b.originals s₄.txn.journalled).length < 2 ^ 32 := hj₄ ▸ hcount
    obtain ⟨s₅, hrun₅, hvalid, hc₅, hh₅, hf₅, hj₅⟩ := hmarked.syncValidity
    have hcount₅ : (b.originals s₅.txn.journalled).length < 2 ^ 32 := hj₅ ▸ hcount₄
    obtain ⟨s₆, hrun₆, hflush, hc₆, hh₆, hf₆, hd₆⟩ := hvalid.passBarrier hb.length_le hcount₅
    have hj₆ : s₆.txn.journalled = s₅.txn.journalled := by
      obtain rfl := (Prod.mk.inj hrun₆).2
      rfl
    have hpos₄ : 0 < (b.originals s₄.txn.journalled).length := by rw [hj₄, hrec₃]; exact hpos
    have hpos₅ : 0 < (b.originals s₅.txn.journalled).length := by rw [hj₅]; exact hpos₄
    have hpos₆ : 0 < (b.originals s₆.txn.journalled).length := by rw [hj₆]; exact hpos₅
    refine .cons hok₃ hrun₄ ?_
    refine .cons (.of_ready (hmarked.crashOk hb (fun _ => hcount₄) hpos₄ s₁) (by rw [hh₄, hh₃, hh₂])
      (hmarked.ready hb fun _ => hcount₄)) hrun₅ ?_
    refine .cons (.of_ready (hvalid.crashOk hb (fun _ => hcount₅) hpos₅ s₁)
      (by rw [hh₅, hh₄, hh₃, hh₂]) (hvalid.ready hb fun _ => hcount₅)) hrun₆ ?_
    have hwriting : Writing b nonce s₁ s₆ := hflush.writing
      (by rw [hc₆, hc₅, hc₄, hc₃, hc₂]) (by rw [hh₆, hh₅, hh₄, hh₃, hh₂])
      (by rw [hf₆, hf₅, hf₄, hf₃, hf₂]) hd₆ (h.header_valid hb) h.stamped
    have hkeeps : ∀ m ∈ (s₁.cache.map Prod.fst).map fun id => (CommitStep.flush id).run,
        Keeps (fun s => Writing b nonce s₁ s ∧ s.txn = s₆.txn) m := by
      intro m hm
      obtain ⟨id, -, rfl⟩ := List.mem_map.mp hm
      rintro s ⟨hw, ht⟩
      obtain ⟨s', hrun, hw', ht', -⟩ := hw.flushPage id
      rw [show (CommitStep.flush id).run s = _ from hrun]
      exact ⟨hw', ht'.trans ht⟩
    refine Along.append hkeeps (fun s hs => ?_) ⟨hwriting, rfl⟩ fun s' _ hrun => ?_
    · exact .of_ready (hs.1.crashOk hb (by rw [hs.2]; exact hpos₆)) hs.1.header_eq
        hs.1.toFlushing.ready
    · obtain ⟨s'', hrun'', hw'', ht'', hclean, -⟩ := hwriting.flushAll (s₁.cache.map Prod.fst)
      rw [hrun''] at hrun
      obtain rfl := (Prod.mk.inj hrun).2
      exact hw''.finish hb (by rw [ht'']; exact hpos₆) hclean
  · obtain ⟨e, hrun₄⟩ := hnamed.writeValidity_overflow hcount
    refine ⟨hok₃, ?_⟩
    rw [hrun₄]
    exact hok₃

/-! ## Crash points -/

/-- Where a crash interrupts a transaction: after some of its operations, or in
commit, after some of its steps.  An operation issues no fsync, so a crash inside
one leaves nothing that a crash right after it cannot leave. -/
def crashPoint (ops : List Op) (cut : Option Nat) (s₀ : Machine) : Machine :=
  match cut with
  | none => runOps ops s₀
  | some k => (commitUpTo k).exec (runOps ops s₀)

/-- The database the transaction commits: what the pool shows once page 1 carries
the header. -/
def committedDatabase (ops : List Op) (s₀ : Machine) : DbFile :=
  (stampHeader.exec (runOps ops s₀)).database

/-- What a cut commit did, by how stamping ended. -/
theorem commitUpTo_exec (k : Nat) (s : Machine) :
    (commitUpTo k).exec s = match s.txn.journal, stampHeader s with
      | none, _ => s
      | some _, (.ok _, s₁) => (seq (((commitPlan s₁).map CommitStep.run).take k)).exec s₁
      | some _, (.error _, s₁) => s₁ := by
  unfold commitUpTo Prog.exec
  rw [bind_of_ok (state_apply s)]
  cases s.txn.journal with
  | none => rfl
  | some hnd =>
      dsimp only
      rw [bind_apply]
      rcases stampHeader s with ⟨e | _, s₁⟩
      · rfl
      · dsimp only
        unfold commitSteps
        rw [bind_of_ok (state_apply s₁), List.map_take]

/-- Every crash point is good for the state commit stamps. -/
theorem crashPoint_ok {s₀ : Machine} (h : Committed s₀) (ops : List Op) (cut : Option Nat) :
    CutOk s₀.snapshot (stampHeader.exec (runOps ops s₀)) (crashPoint ops cut s₀) := by
  have hin : InTxn s₀.snapshot (runOps ops s₀) := inTxn_runOps h.inTxn ops
  have hb := h.sound
  have hhd := stampHeader_header hin
  cases cut with
  | none => exact hin.cutOk hb hhd.symm
  | some k =>
      unfold crashPoint
      dsimp only
      rw [commitUpTo_exec]
      have hspec := stampHeader_spec (b := s₀.snapshot) (d := (runOps ops s₀).header)
        (runOps ops s₀) ⟨hin, rfl⟩
      unfold Prog.exec at hhd ⊢
      cases (runOps ops s₀).txn.journal with
      | none => exact hin.cutOk hb hhd.symm
      | some hnd =>
          rcases hrun : stampHeader (runOps ops s₀) with ⟨e | _, s₁⟩ <;> rw [hrun] at hspec hhd
          · exact hspec.1.cutOk hb rfl
          · have hdone : StampDone s₀.snapshot s₁.header s₁ := by
              rw [hspec.header_eq]
              exact hspec
            exact (hdone.commit_along hb).take k

/-! ## Atomicity -/

/-- A committed database survives further crashes as it is. -/
theorem Survivor.CommittedAs.crashedRecoveries {sv sv' : Survivor} (h : sv.CommittedAs s₁)
    (hrec : CrashedRecoveries sv sv') : sv'.CommittedAs s₁ := by
  induction hrec with
  | none => exact h
  | crash k _ hopen hcrash ih =>
      obtain ⟨hdisk, hjournal⟩ := Survivor.reopen_eq hopen
      rw [ih.no_journal] at hjournal
      rw [recoverUpTo_none hjournal] at hcrash
      obtain ⟨hfile, hj⟩ := hcrash
      rw [hdisk] at hfile
      rw [hjournal] at hj
      have heq := hfile.eq_synced rfl
      exact ⟨hj, by rw [heq]; exact ih.page_eq, by rw [heq]; exact ih.header_eq, ih.header_valid⟩

/-- A file that opens under a valid header holds the pages it claims. -/
theorem openFile_of_layout {f : DbFile} {d : FileHeader} (hd : d.Valid)
    (hf : f.headerBytes = d.layout) :
    Pager.openFile f = if f.length < d.pageCount then
      .error (.corruptDatabase "header claims more pages than the file holds") else .ok d := by
  have hparse := FileHeader.fromBytes_layout hd []
  rw [List.append_nil] at hparse
  unfold Pager.openFile
  rw [hf, hparse]

theorem Survivor.CommittedAs.file_eq {sv : Survivor} {st : Storage} (h : sv.CommittedAs s₁)
    (hopen : sv.reopen = .ok st) : sv.file.take s₁.database.length = s₁.database := by
  have hlen : s₁.header.pageCount ≤ sv.file.length := by
    unfold Survivor.reopen at hopen
    rw [openFile_of_layout h.header_valid h.header_eq] at hopen
    split at hopen
    · cases hopen
    · rename_i hok
      split at hok
      · cases hok
      · omega
  have hcount : s₁.database.length = s₁.header.pageCount := by simp [Machine.database]
  refine List.ext_getElem ?_ fun i hi hi' => ?_
  · rw [List.length_take, hcount]
    exact min_eq_left hlen
  · rw [hcount] at hi'
    have hpage := h.page_eq (i + 1) (by omega) (by omega)
    simp only [Machine.database, List.getElem_take, List.getElem_map, List.getElem_range]
    rw [← hpage, DbFile.page, Nat.add_sub_cancel, List.getD_eq_getElem _ _ (hi'.trans_le hlen)]

/-- The file after recovery, from what any crash of a transaction left and after any
number of crashed recoveries, is the database from before the transaction, or, when
the journal had been unlinked, the database the transaction committed. -/
theorem crash_recovery_atomic {s₀ : Machine} (h : Committed s₀) (ops : List Op)
    (cut : Option Nat) {sv sv' : Survivor} {st : Storage}
    (hcrash : (crashPoint ops cut s₀).storage.CrashImage sv) (hrec : CrashedRecoveries sv sv')
    (hopen : sv'.reopen = .ok st) :
    ∃ r st', recoverIfNeeded st = (.ok r, st') ∧
      ((st'.disk.file = s₀.file ∨ st'.disk.file = s₀.database) ∨
        (∃ f, (crashPoint ops cut s₀).storage.journal = some f ∧ f.unlinked = true) ∧
          st'.disk.file.take (committedDatabase ops s₀).length = committedDatabase ops s₀) := by
  have hb := h.sound
  have hok := (crashPoint_ok h ops cut).crashOk
  obtain ⟨hundo | ⟨hunlinked, hcommitted⟩, -⟩ := hok sv hcrash
  · obtain ⟨r, st', hrun, hrestored⟩ := ((hrec.undoable hb hundo).recover hb hopen).1
    refine ⟨r, st', hrun, .inl ?_⟩
    rw [h.database_eq]
    exact hrestored
  · -- nothing is left to recover: the file is what it was when the journal went
    have hsv' := hcommitted.crashedRecoveries hrec
    obtain ⟨hdisk, hjournal⟩ := Survivor.reopen_eq hopen
    rw [hsv'.no_journal] at hjournal
    refine ⟨false, st, recoverIfNeeded_none hjournal, .inr ⟨hunlinked, ?_⟩⟩
    rw [hdisk]
    exact hsv'.file_eq hopen

/-! ## The next transaction -/

/-- The next transaction becomes the writer.  By then the unlink of the journal is on disk. -/
def Machine.next (s : Machine) : Machine :=
  { s with
    storage := { s.storage with journal := s.storage.journal.filter fun f => ¬ f.unlinked }
    txn := ⟨none, [], s.header.pageCount, false⟩ }

theorem deleteJournal_closes {s' : Machine} (h : CommitStep.deleteJournal.run s = (.ok (), s')) :
    ∃ hnd, s'.txn.journal = some hnd ∧ hnd.file = .closed := by
  obtain ⟨hnd, s₁, -, h⟩ := exists_of_bind_ok h
  obtain ⟨_, s₂, hclose, hdelete⟩ := exists_of_bind_ok h
  obtain rfl := (Prod.mk.inj hclose).2
  obtain rfl := (Prod.mk.inj hdelete).2
  exact ⟨_, rfl, rfl⟩

theorem commitPlan_last (s : Machine) :
    ∃ steps : List CommitStep, commitPlan s = steps ++ [.deleteJournal] := by
  refine ⟨[.syncJournal, .syncDirectory, .writeValidity, .syncValidity, .passBarrier] ++
    (s.cache.map fun e => .flush e.1) ++ [.syncDatabase], ?_⟩
  simp [commitPlan]

/-- A commit that returns has done all of its steps. -/
theorem commit_finished {s₀ s : Machine} (h : Committed s₀) (ops : List Op)
    (hjournal : (runOps ops s₀).txn.journal ≠ none) (hrun : commit (runOps ops s₀) = (.ok (), s)) :
    Finished (stampHeader.exec (runOps ops s₀)) s ∧
      s.header = (stampHeader.exec (runOps ops s₀)).header := by
  have hin : InTxn s₀.snapshot (runOps ops s₀) := inTxn_runOps h.inTxn ops
  unfold commit at hrun
  rw [bind_of_ok (state_apply _)] at hrun
  obtain ⟨hnd, hj⟩ := Option.ne_none_iff_exists'.mp hjournal
  rw [hj] at hrun
  obtain ⟨_, s₁, hstamp, hrun⟩ := exists_of_bind_ok hrun
  rw [bind_of_ok (state_apply s₁)] at hrun
  have hexec : stampHeader.exec (runOps ops s₀) = s₁ := by
    rw [Prog.exec, hstamp]
  have hspec := stampHeader_spec (b := s₀.snapshot) (d := (runOps ops s₀).header) (runOps ops s₀) ⟨hin, rfl⟩
  rw [hstamp] at hspec
  have hdone : StampDone s₀.snapshot s₁.header s₁ := by
    rw [hspec.header_eq]
    exact hspec
  have hcut := (hdone.commit_along h.sound).take ((commitPlan s₁).map CommitStep.run).length
  rw [List.take_length, Prog.exec, hrun] at hcut
  obtain ⟨steps, hplan⟩ := commitPlan_last s₁
  rw [hplan, List.map_append, List.map_singleton] at hrun
  obtain ⟨s₂, hlast⟩ := exists_of_seq_concat_ok hrun
  obtain ⟨hnd', hj', hclosed⟩ := deleteJournal_closes hlast
  rw [hexec]
  exact ⟨hcut.finished hnd' hj' hclosed, hcut.header_eq⟩

/-- After a commit the next transaction starts from the database that it committed, if
the file has all the pages that the header counts. -/
theorem Committed.after_commit {s₀ s : Machine} (h : Committed s₀) (ops : List Op)
    (hjournal : (runOps ops s₀).txn.journal ≠ none) (hrun : commit (runOps ops s₀) = (.ok (), s))
    (hlength : s.header.pageCount ≤ s.file.length) :
    Committed s.next ∧ s.next.database = committedDatabase ops s₀ := by
  obtain ⟨hfinished, hhd⟩ := commit_finished h ops hjournal hrun
  obtain ⟨f, hf, hunlinked⟩ := hfinished.unlinked
  refine ⟨?_, ?_⟩
  · exact {
      pending := hfinished.pending
      no_journal_file := by simp [Machine.next, hf, hunlinked]
      header_valid := by
        rw [show s.next.header = s.header from rfl, hhd]
        exact hfinished.header_valid
      header_synced := by
        have hparse := FileHeader.fromBytes_layout hfinished.header_valid []
        rw [List.append_nil, ← hfinished.header_synced, ← hhd] at hparse
        exact hparse
      length_le := hlength
      cache := hfinished.cache
      fresh := rfl }
  · unfold committedDatabase Machine.database
    rw [show s.next.header = s.header from rfl, hhd]
    refine List.map_congr_left fun i _ => ?_
    exact hfinished.page_eq (i + 1) (Nat.succ_pos i)

/-- A transaction that changes page 1 and grows the file by a page. -/
def growingOps : List Op := [.getPageForWrite 1, .unpin 1, .allocatePage]

/-- Its commit, cut once both pages were written and before the database fsync. -/
@[irreducible] def growingCut : Machine := crashPoint growingOps (some 7) (Machine.create 128 7)

/-- What a crash there leaves when the first `n` page writes are lost. -/
def growingSurvivor (n : Nat) : Survivor :=
  ⟨(growingCut.storage.disk.pending.drop n).foldl FileOp.apply growingCut.storage.disk.synced,
    growingCut.storage.journal.map Journal.File.synced⟩

theorem growingSurvivor_crash (n : Nat) : growingCut.storage.CrashImage (growingSurvivor n) :=
  growingCut.storage.crashImage_of_subperm (List.drop_sublist n _).subperm

/-- A crash with both pages on disk and the journal in force. -/
theorem crash_recovery_atomic_growing :
    ∃ st r st', (growingSurvivor 0).reopen = .ok st ∧ recoverIfNeeded st = (.ok r, st') ∧
      ((st'.disk.file = (Machine.create 128 7).file ∨
          st'.disk.file = (Machine.create 128 7).database) ∨
        (∃ f, (crashPoint growingOps (some 7) (Machine.create 128 7)).storage.journal = some f ∧
          f.unlinked = true) ∧
          st'.disk.file.take (committedDatabase growingOps (Machine.create 128 7)).length =
            committedDatabase growingOps (Machine.create 128 7)) := by
  have hcrash := growingSurvivor_crash 0
  have hopens : (Pager.openFile (growingSurvivor 0).file).isOk = true := by decide +kernel
  obtain ⟨st, hst⟩ := (Survivor.reopen_iff _).mpr hopens
  unfold growingCut at hcrash
  obtain ⟨r, st', hrun, hcase⟩ :=
    crash_recovery_atomic (create_committed 128 7) growingOps (some 7) hcrash (.none _) hst
  exact ⟨st, r, st', hst, hrun, hcase⟩

/-! ## Reopening -/

/-- `open_database` succeeds on what a crash left exactly when page 1 still carries
the old header or the file already has every page the new one claims. -/
theorem open_succeeds_iff {s₀ : Machine} (h : Committed s₀) (ops : List Op)
    (cut : Option Nat) {sv : Survivor}
    (hcrash : (crashPoint ops cut s₀).storage.CrashImage sv) :
    (∃ st, openDatabase sv = .ok st) ↔
      sv.file.headerBytes = s₀.file.headerBytes ∨
        (crashPoint ops cut s₀).header.pageCount ≤ sv.file.length := by
  have hb := h.sound
  obtain ⟨hok, hhd, -⟩ := crashPoint_ok h ops cut
  obtain ⟨hcase, hheader, hlen⟩ := hok sv hcrash
  rw [hhd]
  -- opening is all that can fail: recovery returns from whatever was opened
  have hopen_iff : (∃ st, openDatabase sv = .ok st) ↔ ∃ st, sv.reopen = .ok st := by
    refine ⟨reopen_of_openDatabase, ?_⟩
    rintro ⟨st, hst⟩
    unfold openDatabase
    rw [hst]
    rcases hcase with hundo | ⟨-, hcommitted⟩
    · obtain ⟨r, st', hrun, -⟩ := (hundo.recover hb hst).1
      exact ⟨st', by dsimp only; rw [hrun]⟩
    · obtain ⟨-, hjournal⟩ := Survivor.reopen_eq hst
      rw [hcommitted.no_journal] at hjournal
      exact ⟨st, by dsimp only; rw [recoverIfNeeded_none hjournal]⟩
  rw [hopen_iff]
  unfold Survivor.reopen
  rcases hheader with hold | ⟨hvalid, hnew⟩
  · refine iff_of_true ?_ (.inl hold)
    have hfrom : FileHeader.fromBytes sv.file.headerBytes = .ok s₀.header := by
      rw [hold]
      exact hb.from_file
    have hopen : Pager.openFile sv.file = .ok s₀.header := by
      unfold Pager.openFile
      rw [hfrom]
      exact if_neg (not_lt.mpr hlen)
    rw [hopen]
    exact ⟨_, rfl⟩
  · rw [openFile_of_layout hvalid hnew]
    by_cases hshort : sv.file.length < (stampHeader.exec (runOps ops s₀)).header.pageCount
    · rw [if_pos hshort]
      refine iff_of_false (by simp) (not_or.mpr ⟨fun hold => ?_, not_le.mpr hshort⟩)
      -- the two headers differ, since the old one claims no more than the file holds
      have hparse := FileHeader.fromBytes_layout hvalid []
      rw [List.append_nil, ← hnew, hold] at hparse
      have heq := Except.ok.inj (hb.from_file.symm.trans hparse)
      have hle : s₀.header.pageCount ≤ sv.file.length := hlen
      rw [show s₀.header = _ from heq] at hle
      omega
    · rw [if_neg hshort]
      exact iff_of_true ⟨_, rfl⟩ (.inr (not_lt.mp hshort))

/-- Page 1 reached the disk, the page it counts did not: the file does not open. -/
theorem open_fails_when_page1_first :
    (crashPoint growingOps (some 7) (Machine.create 128 7)).storage.CrashImage
        (growingSurvivor 1) ∧
      ¬ ∃ st, openDatabase (growingSurvivor 1) = .ok st := by
  have hcrash := growingSurvivor_crash 1
  unfold growingCut at hcrash
  refine ⟨hcrash, fun hopen => ?_⟩
  have hfails : (Pager.openFile (growingSurvivor 1).file).isOk = false := by decide +kernel
  rw [(Survivor.reopen_iff _).mp (reopen_of_openDatabase hopen)] at hfails
  cases hfails

/-- With every page of the same commit on disk both sides hold. -/
theorem open_succeeds_when_all_pages :
    (∃ st, openDatabase (growingSurvivor 0) = .ok st) ↔
      (growingSurvivor 0).file.headerBytes = (Machine.create 128 7).file.headerBytes ∨
        (crashPoint growingOps (some 7) (Machine.create 128 7)).header.pageCount ≤
          (growingSurvivor 0).file.length := by
  have hcrash := growingSurvivor_crash 0
  unfold growingCut at hcrash
  exact open_succeeds_iff (create_committed 128 7) growingOps (some 7) hcrash

end QuillDb
