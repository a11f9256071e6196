/-
  Txn/Barrier.lean --- what holds between the steps of commit.

  `Sealing` describes the machine while the journal is being made valid, stage
  by stage; `Flushing` describes it from the barrier on.  Either way every page
  that is not journalled is the original, in the file and in every crash image.
-/
import QuillDb.Txn.Commit

set_option autoImplicit false

namespace QuillDb

open Prog Machine

/-! ## Files that differ from the original in journalled pages only -/

/-- Every page that existed before and is not journalled is the original. -/
structure Intact (b : Snapshot) (journalled : List Nat) (f : DbFile) : Prop where
  length_le : b.pageCount ≤ f.length
  page_eq : ∀ id, 1 ≤ id → id ≤ b.pageCount → id ∉ journalled → f.page id = b.file.page id

/-- An operation that touches journalled or new pages only. -/
def FileOp.Harmless (n : Nat) (journalled : List Nat) : FileOp → Prop
  | .write id _ => 1 ≤ id ∧ (id ∈ journalled ∨ n < id)
  | .truncate k => k = n

section Intact

variable {b : Snapshot} {journalled : List Nat} {f : DbFile}

theorem Intact.apply (h : Intact b journalled f) {op : FileOp}
    (hop : op.Harmless b.pageCount journalled) : Intact b journalled (op.apply f) := by
  cases op with
  | write id p =>
      obtain ⟨hid, hwhere⟩ := hop
      constructor
      · rw [FileOp.apply, DbFile.length_pwrite]
        exact h.length_le.trans (le_max_left _ _)
      · intro k hk hkn hknot
        have hne : k ≠ id := by
          rintro rfl
          rcases hwhere with hmem | hgt
          · exact hknot hmem
          · omega
        rw [FileOp.apply, DbFile.page_pwrite_ne f hid hk hne]
        exact h.page_eq k hk hkn hknot
  | truncate k =>
      obtain rfl : k = b.pageCount := hop
      constructor
      · rw [FileOp.apply, DbFile.length_resize]
      · intro k hk hkn hknot
        rw [FileOp.apply, DbFile.page_resize f hk hkn]
        exact h.page_eq k hk hkn hknot

/-- The file the process reads, and every crash image, stay intact. -/
theorem Intact.file {d : Disk} (h : Intact b journalled d.synced)
    (hpending : ∀ op ∈ d.pending, op.Harmless b.pageCount journalled) :
    Intact b journalled d.file :=
  d.crashImage_file.induction (Intact b journalled) h fun op hop _ hg => hg.apply (hpending op hop)

theorem Intact.crashImage {d : Disk} (h : Intact b journalled d.synced)
    (hpending : ∀ op ∈ d.pending, op.Harmless b.pageCount journalled) {g : DbFile}
    (hg : d.CrashImage g) : Intact b journalled g :=
  hg.induction (Intact b journalled) h fun op hop _ hg => hg.apply (hpending op hop)

/-- Nothing has been written yet. -/
theorem Intact.refl (hlen : b.pageCount ≤ b.file.length) (journalled : List Nat) :
    Intact b journalled b.file :=
  ⟨hlen, fun _ _ _ _ => rfl⟩

end Intact

/-! ## The stages of the journal file -/

/-- How far `commit_barrier` has come. -/
inductive Stage where
  | body
  | bodySynced
  | named
  | marked
  | valid

/-- What the journal file is at each stage. -/
def Journal.File.AtStage (stage : Stage) (nonce n : Nat) (records : List (Nat × Page))
    (f : Journal.File) : Prop :=
  let blank := Journal.layout (zeros 8) 0 nonce n records
  let valid := Journal.layout journalMagic records.length nonce n records
  f.unlinked = false ∧
    match stage with
    | .body => f.Quiet ∧ f.content = blank
    | .bodySynced => f.synced = blank ∧ f.pending = []
    | .named => f.synced = blank ∧ f.pending = [] ∧ f.nameSynced = true
    | .marked => f.synced = blank ∧
        f.pending = [⟨0, Journal.validity journalMagic records.length⟩] ∧ f.nameSynced = true
    | .valid => f.synced = valid ∧ f.pending = [] ∧ f.nameSynced = true

/-- The 12-byte write turns the blank header into a valid one. -/
theorem Journal.validity_apply (nrec nonce n : Nat) (records : List (Nat × Page)) :
    Journal.Write.apply (Journal.layout (zeros 8) 0 nonce n records)
        ⟨0, Journal.validity journalMagic nrec⟩ =
      Journal.layout journalMagic nrec nonce n records := by
  have hlen : (Journal.validity journalMagic nrec).length = 12 := rfl
  have hblank : (Journal.validity (zeros 8) 0).length = 12 := rfl
  unfold Journal.Write.apply
  dsimp only
  rw [List.take_zero, Nat.zero_sub, zeros, List.replicate_zero, List.nil_append, List.nil_append,
    Nat.zero_add, hlen]
  unfold Journal.layout
  rw [List.drop_append, hblank, List.drop_eq_nil_of_le (le_of_eq hblank), List.nil_append,
    Nat.sub_self, List.drop_zero]

/-! ## The machine -/

/-- What holds at every point of a transaction that has a journal. -/
structure Core (b : Snapshot) (nonce : Nat) (s : Machine) : Prop where
  before : s.txn.pageCountBefore = b.pageCount
  count_le : b.pageCount ≤ s.header.pageCount
  count_lt : b.pageCount < 2 ^ 32
  frame : b.header.SameFrame s.header
  ids : ∀ id ∈ s.txn.journalled, 1 ≤ id
  cache : CacheInv b.pageCount s.header.pageCount s.file s.txn.journalled s.cache
  handle : s.txn.journal = some ⟨nonce, (b.originals s.txn.journalled).length, .opened⟩
  nonce_lt : nonce < 2 ^ 32

/-- The journal file at a stage, the database file untouched. -/
structure Sealing (b : Snapshot) (nonce : Nat) (stage : Stage) (s : Machine) : Prop
    extends Core b nonce s where
  disk : s.storage.disk = ⟨b.file, []⟩
  barrier : s.txn.barrierPassed = false
  journal : ∃ f, s.storage.journal = some f ∧
    f.AtStage stage nonce b.pageCount (b.originals s.txn.journalled)

/-- The journal is valid and the database file may be written. -/
structure Flushing (b : Snapshot) (nonce : Nat) (s : Machine) : Prop
    extends Core b nonce s where
  synced_intact : Intact b s.txn.journalled s.storage.disk.synced
  pending_harmless : ∀ op ∈ s.storage.disk.pending, op.Harmless b.pageCount s.txn.journalled
  barrier : s.txn.barrierPassed = true
  count_records : (b.originals s.txn.journalled).length < 2 ^ 32
  journal : ∃ f, s.storage.journal = some f ∧
    f.AtStage .valid nonce b.pageCount (b.originals s.txn.journalled)

variable {b : Snapshot} {nonce : Nat} {s : Machine}

theorem InTxn.sealing (h : InTxn b s) {hnd : JournalHandle} (hj : s.txn.journal = some hnd) :
    Sealing b hnd.nonce .body s := by
  have hjs := h.journal
  unfold JournalState at hjs
  rw [hj] at hjs
  obtain ⟨f, hf, hinv⟩ := hjs
  obtain ⟨nonce, nrec, fs⟩ := hnd
  have hopen := hinv.opened
  have hnrec := hinv.nrec_eq
  dsimp only at hopen hnrec
  subst hopen hnrec
  exact { before := h.before, count_le := h.count_le, count_lt := h.count_lt, frame := h.frame
          ids := h.ids, cache := h.file_eq ▸ h.cache, handle := hj, nonce_lt := hinv.nonce_lt
          disk := h.disk, barrier := h.barrier
          journal := ⟨f, hf, hinv.linked, hinv.quiet, hinv.content_eq⟩ }

theorem Core.openJournal (h : Core b nonce s) :
    Machine.openJournal s =
      (.ok ⟨nonce, (b.originals s.txn.journalled).length, .opened⟩, s) := by
  unfold Machine.openJournal
  rw [bind_of_ok (state_apply s), h.handle]
  rfl

/-- Only the journal file changed. -/
theorem Core.with_journal (h : Core b nonce s) (j : Option Journal.File) :
    Core b nonce { s with storage := { s.storage with journal := j } } :=
  { h with }

namespace Sealing

variable {stage : Stage}

/-- A step that changes the journal file only. -/
theorem step (h : Sealing b nonce stage s) {stage' : Stage}
    {g : Journal.File → Journal.File}
    (hg : ∀ f, f.AtStage stage nonce b.pageCount (b.originals s.txn.journalled) →
      (g f).AtStage stage' nonce b.pageCount (b.originals s.txn.journalled)) :
    Sealing b nonce stage'
      { s with storage := { s.storage with journal := s.storage.journal.map g } } := by
  obtain ⟨f, hf, hstage⟩ := h.journal
  exact { h.toCore.with_journal _ with
    disk := h.disk
    barrier := h.barrier
    journal := ⟨g f, by simp [hf], hg f hstage⟩ }

theorem syncJournal (h : Sealing b nonce .body s) :
    ∃ s', CommitStep.syncJournal.run s = (.ok (), s') ∧ Sealing b nonce .bodySynced s' ∧
      s'.cache = s.cache ∧ s'.header = s.header ∧ s'.file = s.file := by
  refine ⟨_, ?_, h.step (g := Journal.File.fsync) ?_, rfl, rfl, rfl⟩
  · exact (bind_of_ok h.toCore.openJournal).trans rfl
  · rintro f ⟨hlink, hquiet, hcontent⟩
    exact ⟨hlink, hcontent, rfl⟩

theorem syncDirectory (h : Sealing b nonce .bodySynced s) :
    ∃ s', CommitStep.syncDirectory.run s = (.ok (), s') ∧ Sealing b nonce .named s' ∧
      s'.cache = s.cache ∧ s'.header = s.header ∧ s'.file = s.file := by
  refine ⟨_, rfl, h.step (g := Journal.File.syncName) ?_, rfl, rfl, rfl⟩
  rintro f ⟨hlink, hsynced, hpending⟩
  exact ⟨hlink, hsynced, hpending, rfl⟩

theorem writeValidity (h : Sealing b nonce .named s)
    (hcount : (b.originals s.txn.journalled).length < 2 ^ 32) :
    ∃ s', CommitStep.writeValidity.run s = (.ok (), s') ∧ Sealing b nonce .marked s' ∧
      s'.cache = s.cache ∧ s'.header = s.header ∧ s'.file = s.file ∧
      s'.txn = s.txn := by
  refine ⟨_, ?_, h.step (g := fun f => f.write
    ⟨0, Journal.validity journalMagic (b.originals s.txn.journalled).length⟩) ?_, rfl, rfl, rfl, rfl⟩
  · rw [CommitStep.run, bind_of_ok h.toCore.openJournal]
    simp [onStorage, JournalFile.writeValidity, bind_apply, toBytes4_of_lt hcount]
  · rintro f ⟨hlink, hsynced, hpending, hname⟩
    exact ⟨hlink, hsynced, by simp [Journal.File.write, hpending], hname⟩

/-- A record count that does not fit raises before anything is written. -/
theorem writeValidity_overflow (h : Sealing b nonce .named s)
    (hcount : ¬ (b.originals s.txn.journalled).length < 2 ^ 32) :
    ∃ e, CommitStep.writeValidity.run s = (.error e, s) := by
  have hfits : toBytes4 (b.originals s.txn.journalled).length =
      .error (.overflowError "int too big to convert") := if_neg hcount
  refine ⟨.overflowError "int too big to convert", ?_⟩
  rw [CommitStep.run, bind_of_ok h.toCore.openJournal]
  simp [onStorage, JournalFile.writeValidity, bind_apply, hfits]

theorem syncValidity (h : Sealing b nonce .marked s) :
    ∃ s', CommitStep.syncValidity.run s = (.ok (), s') ∧ Sealing b nonce .valid s' ∧
      s'.cache = s.cache ∧ s'.header = s.header ∧ s'.file = s.file ∧ s'.txn = s.txn := by
  refine ⟨_, rfl, h.step (g := Journal.File.fsync) ?_, rfl, rfl, rfl, rfl⟩
  rintro f ⟨hlink, hsynced, hpending, hname⟩
  refine ⟨hlink, ?_, rfl, hname⟩
  rw [Journal.File.fsync, Journal.File.content, hpending, hsynced]
  exact Journal.validity_apply _ _ _ _

theorem passBarrier (h : Sealing b nonce .valid s) (hlen : b.pageCount ≤ b.file.length)
    (hcount : (b.originals s.txn.journalled).length < 2 ^ 32) :
    ∃ s', CommitStep.passBarrier.run s = (.ok (), s') ∧ Flushing b nonce s' ∧
      s'.cache = s.cache ∧ s'.header = s.header ∧ s'.file = s.file ∧
      s'.storage.disk = ⟨b.file, []⟩ := by
  refine ⟨_, rfl, ?_, rfl, rfl, rfl, h.disk⟩
  exact { h.toCore with
    synced_intact := h.disk ▸ Intact.refl hlen _
    pending_harmless := fun op hop => by simp [h.disk] at hop
    barrier := rfl
    count_records := hcount
    journal := h.journal }

end Sealing

/-! ## Writing the pages -/

/-- The file changed by one page write of a dirty page. -/
theorem Flushing.write (h : Flushing b nonce s) {id : Nat} {entry : Frame}
    (hf : s.cache.lookup id = some entry) (hdirty : entry.dirty = true) (p : Page) :
    Flushing b nonce { s with storage := { s.storage with
      disk := s.storage.disk.issue (.write id p) } } := by
  obtain ⟨hlo, hhi, -, hwhere⟩ := h.cache id entry hf
  refine { h with cache := ?_, pending_harmless := ?_ }
  · intro k f hk
    obtain ⟨hklo, hkhi, hclean, hkdirty⟩ := h.cache k f hk
    refine ⟨hklo, hkhi, fun hc => ?_, hkdirty⟩
    have hne : k ≠ id := by
      rintro rfl
      rw [hf] at hk
      obtain rfl := Option.some.inj hk
      rw [hdirty] at hc
      cases hc
    have hfile : Machine.file { s with storage := { s.storage with
        disk := s.storage.disk.issue (.write id p) } } = s.file.pwrite id p :=
      Disk.file_issue _ _
    rw [hfile, DbFile.page_pwrite_ne _ hlo hklo hne]
    exact hclean hc
  · intro op hop
    rcases List.mem_append.mp hop with hop | hop
    · exact h.pending_harmless op hop
    · rw [List.mem_singleton.mp hop]
      exact ⟨hlo, hwhere hdirty⟩

/-- Only the cache changed. -/
theorem Flushing.with_cache (h : Flushing b nonce s) {c : Cache}
    (hc : CacheInv b.pageCount s.header.pageCount s.file s.txn.journalled c) :
    Flushing b nonce { s with cache := c } :=
  { h with cache := hc }

/-- `flush_page` does nothing, or writes the page and marks it clean. -/
theorem Flushing.flushPage_cases (h : Flushing b nonce s) (id : Nat) :
    (flushPage id s = (.ok (), s) ∧ ∀ f, s.cache.lookup id = some f → f.dirty = false) ∨
    ∃ entry, s.cache.lookup id = some entry ∧ entry.dirty = true ∧
      flushPage id s = (.ok (), { s with
        storage := { s.storage with disk := s.storage.disk.issue (.write id entry.data) }
        cache := s.cache.modify id fun f => { f with dirty := false } }) := by
  unfold flushPage
  rw [bind_of_ok (state_apply s)]
  cases hf : s.cache.lookup id with
  | none => exact .inl ⟨rfl, nofun⟩
  | some entry =>
      dsimp only
      by_cases hd : entry.dirty = true
      · obtain ⟨hlo, hhi, -, -⟩ := h.cache id entry hf
        unfold Machine.header at hhi
        refine .inr ⟨entry, rfl, hd, ?_⟩
        have hwrite : Pager.writePage s.txn.barrierPassed id entry.data s.storage =
            (.ok (), { s.storage with disk := s.storage.disk.issue (.write id entry.data) }) := by
          unfold Pager.writePage
          rw [if_neg (by simp [h.barrier]), bind_of_ok (state_apply _), if_neg (by omega)]
          rfl
        rw [if_pos hd, bind_apply, onStorage, hwrite]
        rfl
      · rw [if_neg hd]
        refine .inl ⟨rfl, fun f hf' => ?_⟩
        obtain rfl := Option.some.inj hf'
        simpa using hd

theorem Flushing.flushPage (h : Flushing b nonce s) (id : Nat) :
    ∃ s', flushPage id s = (.ok (), s') ∧ Flushing b nonce s' ∧ s'.header = s.header ∧
      (∀ k, 1 ≤ k → s'.page k = s.page k) ∧ (∀ f, s'.cache.lookup id = some f → f.dirty = false) ∧
      ∀ k f, s.cache.lookup k = some f → f.dirty = false →
        ∀ f', s'.cache.lookup k = some f' → f'.dirty = false := by
  rcases h.flushPage_cases id with ⟨hrun, hclean⟩ | ⟨entry, hf, hd, hrun⟩
  · refine ⟨s, hrun, h, rfl, fun _ _ => rfl, hclean, fun k f hk hkc f' hk' => ?_⟩
    obtain rfl := Option.some.inj (hk.symm.trans hk')
    exact hkc
  · refine ⟨_, hrun, ?_, rfl, ?_, ?_, ?_⟩
    · have hw := h.write hf hd entry.data
      obtain ⟨hlo, -, -, hwhere⟩ := h.cache id entry hf
      refine hw.with_cache (hw.cache.modify fun f hf' => ⟨fun _ => ?_, nofun⟩)
      obtain rfl := Option.some.inj (hf.symm.trans hf')
      have hfile : Machine.file { s with storage := { s.storage with
          disk := s.storage.disk.issue (.write id entry.data) } } = s.file.pwrite id entry.data :=
        Disk.file_issue _ _
      rw [hfile, DbFile.page_pwrite_self _ hlo]
    · intro k hkpos
      unfold Machine.page
      dsimp only
      rw [Dict.lookup_modify]
      by_cases hk : k = id
      · rw [if_pos hk, hk, hf]
        rfl
      · rw [if_neg hk]
        cases hkc : s.cache.lookup k with
        | some f => rfl
        | none =>
            dsimp only
            obtain ⟨hlo, -, -, -⟩ := h.cache id entry hf
            have hfile : Machine.file { s with
                storage := { s.storage with disk := s.storage.disk.issue (.write id entry.data) }
                cache := s.cache.modify id fun f => { f with dirty := false } } =
              s.file.pwrite id entry.data := Disk.file_issue _ _
            rw [hfile]
            exact DbFile.page_pwrite_ne _ hlo hkpos hk _
    · intro f hf'
      rw [Dict.lookup_modify, if_pos rfl, hf] at hf'
      obtain rfl := Option.some.inj hf'
      rfl
    · intro k f hk hkc f' hk'
      rw [Dict.lookup_modify] at hk'
      split at hk'
      · rw [hk] at hk'
        obtain rfl := Option.some.inj hk'
        rfl
      · obtain rfl := Option.some.inj (hk.symm.trans hk')
        exact hkc

end QuillDb
