/-
  Txn/Crash.lean --- a transaction is atomic across crashes.
-/
import QuillDb.Txn.Recovery

set_option autoImplicit false

namespace QuillDb

open Prog Machine

variable {b : Snapshot} {nonce : Nat} {s : Machine}

/-! ## Stamping the header -/

/-- Page 1 is cached and begins with the bytes of the header. -/
def Stamped (h : FileHeader) (s : Machine) : Prop :=
  ∃ f, s.cache.lookup schemaRootPage = some f ∧ f.data.bytes.take fileHeaderSize = h.layout

/-- Page 1 is pinned and journalled, so the transaction has a journal. -/
structure StampReady (b : Snapshot) (d : FileHeader) (s : Machine) : Prop where
  inv : InTxn b s
  header_eq : s.header = d
  mem : schemaRootPage ∈ s.txn.journalled
  frame : ∃ f, s.cache.lookup schemaRootPage = some f ∧ 0 < f.pinCount ∧ f.dirty = true

/-- The header is in page 1. -/
structure StampDone (b : Snapshot) (d : FileHeader) (s : Machine) : Prop where
  inv : InTxn b s
  header_eq : s.header = d
  mem : schemaRootPage ∈ s.txn.journalled
  fits : d.Fits
  stamped : Stamped d s

variable {d : FileHeader}

theorem stampPage_spec (page : Page) :
    Triple (StampReady b d) (stampPage page)
      (fun _ s => StampDone b d s ∧ ∃ f, s.cache.lookup schemaRootPage = some f ∧ 0 < f.pinCount)
      (fun _ s => InTxn b s ∧ s.header = d) := by
  refine Triple.state_bind fun s₁ h => Triple.lift_bind (fun bytes hbytes => ?_)
    fun e s' _ hs' => hs' ▸ ⟨h.inv, h.header_eq⟩
  rintro s rfl
  obtain ⟨hfits, rfl⟩ := FileHeader.toBytes_eq_ok hbytes
  obtain ⟨f, hf, hpin, hdirty⟩ := h.frame
  let stamp : Frame → Frame := fun g => { g with data := page.overwrite s.header.layout }
  have hrun : mutate schemaRootPage (page.overwrite s.header.layout) s =
      (.ok (), { s with cache := s.cache.modify schemaRootPage stamp }) := by
    unfold mutate
    rw [bind_of_ok (state_apply s), hf]
    dsimp only
    rw [if_pos ⟨hpin, hdirty⟩]
    rfl
  have hlook : (s.cache.modify schemaRootPage stamp).lookup schemaRootPage = some (stamp f) := by
    rw [Dict.lookup_modify, if_pos rfl, hf]
    rfl
  have hkeep := mutate_spec (b := b) (t := s.txn) (d := s.header) schemaRootPage
    (page.overwrite s.header.layout) s ⟨h.inv, rfl, rfl⟩
  have htake : (stamp f).data.bytes.take fileHeaderSize = s.header.layout := by
    have hlen : s.header.layout.length = fileHeaderSize := FileHeader.layout_length _
    have := page.take_overwrite (hlen.le.trans (by decide))
    rwa [hlen] at this
  rw [hrun] at hkeep ⊢
  rw [h.header_eq] at hfits htake
  exact ⟨⟨hkeep.1, h.header_eq, h.mem, hfits, _, hlook, htake⟩, _, hlook, hpin⟩

theorem unpin_stamped :
    Triple (fun s => StampDone b d s ∧ ∃ f, s.cache.lookup schemaRootPage = some f ∧ 0 < f.pinCount)
      (unpin schemaRootPage) (fun _ => StampDone b d) (fun _ s => InTxn b s ∧ s.header = d) := by
  rintro s ⟨⟨h, hd, hmem, hfits, f₁, hf₁, htake⟩, f₂, hf₂, hpin⟩
  obtain rfl := Option.some.inj (hf₁.symm.trans hf₂)
  have hrun : unpin schemaRootPage s = (.ok (), { s with
      cache := s.cache.modify schemaRootPage fun g => { g with pinCount := g.pinCount - 1 } }) := by
    unfold unpin
    rw [bind_of_ok (state_apply s), hf₁]
    dsimp only
    rw [if_neg (by omega)]
    rfl
  have hkeep := unpin_spec (b := b) (t := s.txn) (d := s.header) schemaRootPage s ⟨h, rfl, rfl⟩
  rw [hrun] at hkeep ⊢
  refine ⟨hkeep.1, hd, hmem, hfits, { f₁ with pinCount := f₁.pinCount - 1 }, ?_, htake⟩
  rw [Dict.lookup_modify, if_pos rfl, hf₁]
  rfl

/-- After stamping, page 1 carries the in-memory header and is journalled. -/
theorem stampHeader_spec :
    Triple (fun s => InTxn b s ∧ s.header = d) stampHeader (fun _ => StampDone b d)
      (fun _ s => InTxn b s ∧ s.header = d) := by
  refine Triple.bind ((getPageForWrite_spec (b := b) (d := d) schemaRootPage).conseq
    (fun _ hs => hs) (fun _ _ hs => hs) fun _ _ hs => hs) fun page => ?_
  rintro s ⟨h, hd, hmem, f, hf, hpin, hdirty, -⟩
  refine Triple.finally_ (stampPage_spec page) (fun _ => unpin_stamped) (fun _ => ?_) s
    ⟨h, hd, hmem, f, hf, hpin, hdirty⟩
  rintro s' ⟨h', hd'⟩
  exact ((unpin_spec (b := b) (t := s'.txn) (d := d) schemaRootPage).conseq (fun _ hs => hs)
    (fun _ _ hs => ⟨hs.1, hs.2.2⟩) fun _ _ hs => ⟨hs.1, hs.2.2⟩) s' ⟨h', rfl, hd'⟩

theorem stampHeader_header (h : InTxn b s) : (stampHeader.exec s).header = s.header := by
  have hspec := stampHeader_spec (b := b) (d := s.header) s ⟨h, rfl⟩
  unfold Prog.exec
  rcases hrun : stampHeader s with ⟨e | _, s'⟩ <;> rw [hrun] at hspec
  · exact hspec.2
  · exact hspec.header_eq

/-- Page 1 existed before, so its journalling began a journal. -/
theorem StampDone.sealing (h : StampDone b d s) (hb : b.Sound) :
    ∃ nonce, Sealing b nonce .body s := by
  cases hjn : s.txn.journal with
  | none =>
      have hj := h.inv.journal
      unfold JournalState at hj
      rw [hjn] at hj
      exact absurd (hj.2 _ h.mem) (not_lt.mpr hb.one_le)
  | some hnd => exact ⟨hnd.nonce, h.inv.sealing hjn⟩

/-! ## What a rollback finds -/

/-- The open journal either was never made valid and the file is untouched, or it
holds the original of everything that may have changed. -/
structure Ready (b : Snapshot) (nonce : Nat) (s : Machine) : Prop extends Core b nonce s where
  intact : Intact b s.txn.journalled s.file
  journal : ∃ f, s.storage.journal = some f ∧
    ((f.content = Journal.layout (zeros 8) 0 nonce b.pageCount
        (b.originals s.txn.journalled) ∧ s.file = b.file) ∨
      (f.content = Journal.layout journalMagic (b.originals s.txn.journalled).length nonce
        b.pageCount (b.originals s.txn.journalled) ∧
        (b.originals s.txn.journalled).length < 2 ^ 32))
  barrier : s.txn.barrierPassed = true →
    (b.originals s.txn.journalled).length < 2 ^ 32 ∧
      ∃ f, s.storage.journal = some f ∧
        f.content = Journal.layout journalMagic (b.originals s.txn.journalled).length nonce
          b.pageCount (b.originals s.txn.journalled)

/-- The states a transaction can be rolled back from. -/
inductive RollbackState (b : Snapshot) (s : Machine) : Prop where
  | fresh (h : InTxn b s) (hj : s.txn.journal = none)
  | ready (nonce : Nat) (h : Ready b nonce s)
  | closed (hnd : JournalHandle) (hj : s.txn.journal = some hnd) (hclosed : hnd.file = .closed)

theorem Sealing.ready {stage : Stage} (h : Sealing b nonce stage s) (hb : b.Sound)
    (hcount : stage = .marked ∨ stage = .valid →
      (b.originals s.txn.journalled).length < 2 ^ 32) : Ready b nonce s := by
  have hfile : s.file = b.file := by
    rw [Machine.file, h.disk]
    rfl
  obtain ⟨f, hf, -, hstage⟩ := h.journal
  refine { h with
    intact := hfile ▸ Intact.refl hb.length_le _
    journal := ⟨f, hf, ?_⟩
    barrier := fun hpassed => by rw [h.barrier] at hpassed; cases hpassed }
  cases stage with
  | body => exact .inl ⟨hstage.2, hfile⟩
  | bodySynced =>
      rw [Journal.File.content, hstage.2]
      exact .inl ⟨hstage.1, hfile⟩
  | named =>
      rw [Journal.File.content, hstage.2.1]
      exact .inl ⟨hstage.1, hfile⟩
  | marked =>
      rw [Journal.File.content, hstage.2.1, hstage.1]
      exact .inr ⟨Journal.validity_apply _ _ _ _, hcount (.inl rfl)⟩
  | valid =>
      rw [Journal.File.content, hstage.2.1]
      exact .inr ⟨hstage.1, hcount (.inr rfl)⟩

theorem Flushing.ready (h : Flushing b nonce s) : Ready b nonce s := by
  obtain ⟨f, hf, -, hsynced, hpending, -⟩ := h.journal
  have hcontent : f.content = f.synced := by
    rw [Journal.File.content, hpending]
    rfl
  exact { h with
    intact := h.synced_intact.file h.pending_harmless
    journal := ⟨f, hf, .inr ⟨hcontent.trans hsynced, h.count_records⟩⟩
    barrier := fun _ => ⟨h.count_records, f, hf, hcontent.trans hsynced⟩ }

theorem InTxn.rollbackState (h : InTxn b s) (hb : b.Sound) : RollbackState b s := by
  cases hj : s.txn.journal with
  | none => exact .fresh h hj
  | some hnd => exact .ready _ ((h.sealing hj).ready hb (by simp))

/-! ## The start of a transaction -/

/-- A committed database with no dirty cached page, and a transaction that has just
become the writer. -/
structure Committed (s : Machine) : Prop where
  pending : s.storage.disk.pending = []
  no_journal_file : s.storage.journal = none
  header_valid : s.header.Valid
  header_synced : FileHeader.fromBytes s.file.headerBytes = .ok s.header
  length_le : s.header.pageCount ≤ s.file.length
  cache : ∀ id f, s.cache.lookup id = some f →
    f.dirty = false ∧ f.data = s.file.page id ∧ 1 ≤ id ∧ id ≤ s.header.pageCount
  fresh : s.txn = ⟨none, [], s.header.pageCount, false⟩

/-- The database a transaction starts from. -/
def Machine.snapshot (s : Machine) : Snapshot := ⟨s.file, s.header⟩

theorem Committed.sound (h : Committed s) : s.snapshot.Sound :=
  ⟨h.header_valid, h.header_synced, h.length_le⟩

theorem Committed.inTxn (h : Committed s) : InTxn s.snapshot s where
  disk := Disk.eq_of_synced h.pending
  before := by rw [h.fresh]; rfl
  barrier := by rw [h.fresh]
  count_le := le_rfl
  count_lt := h.sound.count_lt
  frame := FileHeader.SameFrame.refl _
  ids := by
    rw [h.fresh]
    intro id hid
    cases hid
  cache := fun id f hf => by
    obtain ⟨hclean, hdata, hlo, hhi⟩ := h.cache id f hf
    exact ⟨hlo, hhi, fun _ => hdata, fun hd => by rw [hclean] at hd; cases hd⟩
  journal := by
    unfold JournalState
    rw [h.fresh]
    refine ⟨h.no_journal_file, ?_⟩
    intro id hid
    cases hid

/-- The cache of a committed database adds nothing to its file. -/
theorem Committed.database_eq (h : Committed s) :
    s.database = s.file.take s.header.pageCount := by
  have hpage : ∀ id, s.page id = s.file.page id := by
    intro id
    unfold Machine.page
    split
    · rename_i f hf
      exact (h.cache id f hf).2.1
    · rfl
  refine List.ext_getElem ?_ fun i hi hi' => ?_
  · have := h.length_le
    simp only [Machine.database, List.length_map, List.length_range, List.length_take]
    omega
  · simp only [Machine.database, List.length_map, List.length_range] at hi
    have hlt : i < s.file.length := hi.trans_le h.length_le
    simp only [Machine.database, List.getElem_map, List.getElem_range, hpage, DbFile.page,
      Nat.add_sub_cancel, List.getElem_take]
    exact List.getD_eq_getElem _ _ hlt

/-- The database `Pager.create` makes, at its first transaction. -/
def Machine.create (capacity : Nat) (entropy : UInt32) : Machine where
  storage := ⟨⟨[Pager.bootstrapPage1], []⟩, none, {}⟩
  capacity := capacity
  cache := []
  txn := ⟨none, [], 1, false⟩
  entropy := entropy

theorem create_committed (capacity : Nat) (entropy : UInt32) :
    Committed (Machine.create capacity entropy) where
  pending := rfl
  no_journal_file := rfl
  header_valid := FileHeader.default_valid
  header_synced := by
    have hfront : DbFile.headerBytes [Pager.bootstrapPage1] = FileHeader.layout {} := by
      decide +kernel
    have hparse := FileHeader.fromBytes_layout FileHeader.default_valid []
    rw [List.append_nil, ← hfront] at hparse
    exact hparse
  length_le := le_rfl
  cache := by
    intro id f hf
    cases hf
  fresh := rfl

/-! ## Crashes before the barrier -/

namespace Journal

theorem not_hot_of_zero {j : Bytes} (h : j.getD 0 0 = 0) : isHot j = false := by
  unfold isHot
  cases j with
  | nil => rfl
  | cons x j =>
      obtain rfl : x = 0 := h
      have hne : slice (0 :: j) 0 8 ≠ journalMagic := by
        intro heq
        have := congrArg (fun l : Bytes => l.getD 0 0) heq
        simp [slice, journalMagic] at this
      simp [hne]

theorem Write.Quiet.pieces {w : Write} (hw : w.Quiet) : ∀ p ∈ w.pieces, p.Quiet := by
  intro p hp
  unfold Write.pieces at hp
  split at hp
  · rw [List.mem_singleton.mp hp]
    exact hw
  · obtain ⟨i, hi, rfl⟩ := List.mem_mapIdx.mp hp
    intro h0
    dsimp only at h0 ⊢
    obtain ⟨hoff, rfl⟩ : w.off = 0 ∧ i = 0 := by omega
    have := hw hoff
    rw [List.getD_eq_getElem _ _ hi] at this
    simpa using this

/-- A quiet file is not hot after any crash. -/
theorem File.Quiet.crash {f : File} (hf : f.Quiet) {j : Bytes} (hj : f.CrashImage (some j)) :
    isHot j = false := by
  obtain ⟨kept, hkept, rfl⟩ := hj
  refine not_hot_of_zero ?_
  have hquiet : ∀ w ∈ kept, w.Quiet := by
    intro w hw
    obtain ⟨w', hw', hp⟩ := List.mem_flatMap.mp (hkept.subset hw)
    exact (hf.pending w' hw').pieces w hp
  have hsynced := hf.synced
  clear hkept
  induction kept using List.reverseRecOn with
  | nil => exact hsynced
  | append_singleton kept w ih =>
      rw [List.foldl_append]
      exact Write.apply_zero_head (ih fun w' hw' => hquiet w' (by simp [hw'])) (hquiet w (by simp))

end Journal

theorem InTxn.undoable (h : InTxn b s) {sv : Survivor} (hcrash : s.storage.CrashImage sv) :
    sv.Undoable b ∧ sv.file = b.file := by
  obtain ⟨hfile, hj⟩ := hcrash
  rw [h.disk] at hfile
  have heq : sv.file = b.file := hfile.eq_synced rfl
  refine ⟨.cold (fun j hsv => ?_) (.inl heq), heq⟩
  have hjs := h.journal
  unfold JournalState at hjs
  cases hjn : s.txn.journal with
  | none =>
      rw [hjn] at hjs
      rw [hjs.1] at hj
      rw [show sv.journal = none from hj] at hsv
      cases hsv
  | some hnd =>
      rw [hjn] at hjs
      obtain ⟨f, hf, hinv⟩ := hjs
      rw [hf, hsv] at hj
      exact hinv.quiet.crash hj

/-- The journal that a valid stage holds can be replayed. -/
theorem Core.replayable (h : Core b nonce s)
    (hcount : (b.originals s.txn.journalled).length < 2 ^ 32)
    (hpos : 0 < (b.originals s.txn.journalled).length) :
    Replayable b nonce s.txn.journalled
      (Journal.layout journalMagic (b.originals s.txn.journalled).length nonce b.pageCount
        (b.originals s.txn.journalled)) :=
  ⟨rfl, hpos, hcount, h.nonce_lt, h.ids⟩

/-- The 12-byte write lies in one sector, so a crash keeps all of it or none. -/
theorem Journal.pieces_validity (nrec : Nat) :
    Journal.Write.pieces ⟨0, Journal.validity journalMagic nrec⟩ =
      [⟨0, Journal.validity journalMagic nrec⟩] := by
  have hlen : (Journal.validity journalMagic nrec).length = 12 := rfl
  unfold Journal.Write.pieces
  rw [if_pos]
  unfold Journal.Write.InOneSector
  rw [hlen]
  exact (by decide : 0 / sectorSize = (0 + 12 - 1) / sectorSize)

theorem Sealing.undoable {stage : Stage} (h : Sealing b nonce stage s) (hb : b.Sound)
    (hcount : stage = .marked ∨ stage = .valid → (b.originals s.txn.journalled).length < 2 ^ 32)
    (hpos : 0 < (b.originals s.txn.journalled).length) {sv : Survivor}
    (hcrash : s.storage.CrashImage sv) : sv.Undoable b ∧ sv.file = b.file := by
  obtain ⟨hfile, hj⟩ := hcrash
  rw [h.disk] at hfile
  have heq : sv.file = b.file := hfile.eq_synced rfl
  refine ⟨?_, heq⟩
  obtain ⟨f, hf, hlink, hstage⟩ := h.journal
  rw [hf] at hj
  have hblank : (Journal.layout (zeros 8) 0 nonce b.pageCount
      (b.originals s.txn.journalled)).getD 0 0 = 0 := rfl
  have hintact : Intact b s.txn.journalled sv.file := heq ▸ Intact.refl hb.length_le _
  -- a journal that stays blank in every crash
  have hcold : f.Quiet → sv.Undoable b := fun hq =>
    .cold (fun j hsv => hq.crash (by rw [hsv] at hj; exact hj)) (.inl heq)
  cases stage with
  | body => exact hcold hstage.1
  | bodySynced =>
      obtain ⟨hsynced, hpending⟩ := hstage
      exact hcold ⟨hsynced ▸ hblank, by rw [hpending]; exact nofun⟩
  | named =>
      obtain ⟨hsynced, hpending, -⟩ := hstage
      exact hcold ⟨hsynced ▸ hblank, by rw [hpending]; exact nofun⟩
  | marked =>
      obtain ⟨hsynced, hpending, hname⟩ := hstage
      have hrep := h.toCore.replayable (hcount (.inl rfl)) hpos
      cases hsv : sv.journal with
      | none =>
          rw [hsv] at hj
          simp [Journal.File.CrashImage, hname, hlink] at hj
      | some j =>
          rw [hsv] at hj
          obtain ⟨kept, hkept, rfl⟩ := hj
          rw [hpending, List.flatMap_singleton, Journal.pieces_validity] at hkept
          rw [hsynced] at hsv
          rcases List.subperm_singleton_iff.mp hkept with rfl | rfl
          · refine .cold (fun j' hj' => ?_) (.inl heq)
            obtain rfl := Option.some.inj (hsv.symm.trans hj')
            exact Journal.not_hot_of_zero hblank
          · exact .hot nonce s.txn.journalled _ hsv
              (by rw [List.foldl_cons, List.foldl_nil, Journal.validity_apply]; exact hrep) hintact
  | valid =>
      obtain ⟨hsynced, hpending, hname⟩ := hstage
      have hrep := h.toCore.replayable (hcount (.inr rfl)) hpos
      cases hsv : sv.journal with
      | none =>
          rw [hsv] at hj
          simp [Journal.File.CrashImage, hname, hlink] at hj
      | some j =>
          rw [hsv] at hj
          obtain rfl : j = f.synced := hj.eq_synced hpending
          exact .hot nonce s.txn.journalled _ hsv (hsynced ▸ hrep) hintact

end QuillDb
