/-
  Txn/Recovery.lean --- reopening what a crash left.

  Source: `quilldb/txn/recovery.py` and `open_database` of
  `quilldb/api/database.py` up to the end of recovery.
-/
import QuillDb.Txn.Barrier

set_option autoImplicit false

namespace QuillDb

open Prog

/-- The files a crash leaves: the database, and the journal if its name survived. -/
structure Survivor where
  file : DbFile
  journal : Option Bytes

/-- What a crash may leave of the two files. -/
def Storage.CrashImage (st : Storage) (sv : Survivor) : Prop :=
  st.disk.CrashImage sv.file ∧
    match st.journal with
    | none => sv.journal = none
    | some f => f.CrashImage sv.journal

/-- Any of the pending page operations may have reached the disk, and no journal write
since the last fsync. -/
theorem Storage.crashImage_of_subperm (st : Storage) {kept : List FileOp}
    (h : kept.Subperm st.disk.pending) :
    st.CrashImage ⟨kept.foldl FileOp.apply st.disk.synced, st.journal.map Journal.File.synced⟩ := by
  refine ⟨⟨kept, h, rfl⟩, ?_⟩
  cases st.journal with
  | none => rfl
  | some f => exact ⟨[], List.nil_subperm, rfl⟩

/-- `Pager.open` on the surviving database file. -/
def Survivor.reopen (sv : Survivor) : Except DbError Storage :=
  match Pager.openFile sv.file with
  | .error e => .error e
  | .ok header => .ok ⟨⟨sv.file, []⟩, sv.journal.map fun j => ⟨j, [], true, false⟩, header⟩

/-- `reopen` fails only where `Pager.open` does. -/
theorem Survivor.reopen_iff (sv : Survivor) :
    (∃ st, sv.reopen = .ok st) ↔ (Pager.openFile sv.file).isOk = true := by
  unfold Survivor.reopen
  cases Pager.openFile sv.file with
  | error e => simp [Except.isOk, Except.toBool]
  | ok d => simp [Except.isOk, Except.toBool]

/-- The steps of `recover_if_needed` once a journal file is present. -/
def recoverySteps (j : Bytes) : List (PagerM Unit) :=
  if Journal.isHot j then
    JournalFile.replaySteps j ++
      [Pager.truncate (Journal.pageCountBefore j), Pager.sync, JournalFile.delete,
        Pager.reloadHeader]
  else [JournalFile.delete]

/-- `recover_if_needed`, cut after `k` steps. -/
def recoverUpTo (k : Nat) : PagerM Unit := do
  let st ← state
  match st.journal with
  | none => pure ()
  | some f => seq ((recoverySteps f.content).take k)

/-- `recover_if_needed`. -/
def recoverIfNeeded : PagerM Bool := do
  let st ← state
  match st.journal with
  | none => pure false
  | some f => do
      seq (recoverySteps f.content)
      pure true

/-- `open_database` up to the end of recovery. -/
def openDatabase (sv : Survivor) : Except DbError Storage :=
  match sv.reopen with
  | .error e => .error e
  | .ok st =>
      match recoverIfNeeded st with
      | (.ok _, st') => .ok st'
      | (.error e, _) => .error e

theorem reopen_of_openDatabase {sv : Survivor} (h : ∃ st, openDatabase sv = .ok st) :
    ∃ st, sv.reopen = .ok st := by
  obtain ⟨st, hst⟩ := h
  unfold openDatabase at hst
  cases hre : sv.reopen with
  | error e => rw [hre] at hst; cases hst
  | ok st₁ => exact ⟨st₁, rfl⟩

/-- Any number of recoveries that each crashed after some of their steps. -/
inductive CrashedRecoveries : Survivor → Survivor → Prop where
  | none (sv : Survivor) : CrashedRecoveries sv sv
  | crash {sv sv₁ sv₂ : Survivor} {st : Storage} (k : Nat) :
      CrashedRecoveries sv sv₁ → sv₁.reopen = .ok st →
      ((recoverUpTo k).exec st).CrashImage sv₂ → CrashedRecoveries sv sv₂

/-! ## Files that recovery restores -/

/-- The pre-transaction database, with or without what lay past its last page. -/
def Snapshot.Restored (b : Snapshot) (f : DbFile) : Prop :=
  f = b.file ∨ f = b.file.take b.pageCount

/-- A snapshot of a database that could be opened. -/
structure Snapshot.Sound (b : Snapshot) : Prop where
  valid : b.header.Valid
  from_file : FileHeader.fromBytes b.file.headerBytes = .ok b.header
  length_le : b.pageCount ≤ b.file.length

theorem Snapshot.Sound.one_le {b : Snapshot} (h : b.Sound) : 1 ≤ b.pageCount :=
  Nat.one_le_iff_ne_zero.mpr h.valid.pageCount_pos

theorem Snapshot.Sound.count_lt {b : Snapshot} (h : b.Sound) : b.pageCount < 2 ^ 32 :=
  h.valid.fits.2.2.2.2 _ (by simp [FileHeader.words, Snapshot.pageCount])

/-- A journal worth replaying: it holds the original of every journalled page. -/
structure Replayable (b : Snapshot) (nonce : Nat) (journalled : List Nat) (j : Bytes) : Prop where
  bytes_eq : j = Journal.layout journalMagic (b.originals journalled).length nonce b.pageCount
    (b.originals journalled)
  records_pos : 0 < (b.originals journalled).length
  count_lt : (b.originals journalled).length < 2 ^ 32
  nonce_lt : nonce < 2 ^ 32
  ids : ∀ id ∈ journalled, 1 ≤ id

/-- What a crash may leave so that recovery finds the pre-transaction database. -/
inductive Survivor.Undoable (b : Snapshot) (sv : Survivor) : Prop where
  | cold (hcold : ∀ j, sv.journal = some j → Journal.isHot j = false) (hfile : b.Restored sv.file)
  | hot (nonce : Nat) (journalled : List Nat) (j : Bytes) (hj : sv.journal = some j)
      (hreplay : Replayable b nonce journalled j) (hintact : Intact b journalled sv.file)

section Restore

variable {b : Snapshot} {nonce : Nat} {journalled : List Nat} {j : Bytes}

theorem Replayable.isHot (h : Replayable b nonce journalled j) : Journal.isHot j = true := by
  rw [h.bytes_eq, Journal.isHot_layout h.count_lt]
  exact decide_eq_true h.records_pos

theorem Replayable.pageCountBefore (h : Replayable b nonce journalled j)
    (hn : b.pageCount < 2 ^ 32) : Journal.pageCountBefore j = b.pageCount := by
  rw [h.bytes_eq]
  exact Journal.pageCountBefore_layout rfl hn

/-- The steps of `replay` are one restoration for each recorded page. -/
theorem replaySteps_layout {records : List (Nat × Page)} {n : Nat} (hnonce : nonce < 2 ^ 32)
    (hids : ∀ r ∈ records, r.1 < 2 ^ 32) (hcount : records.length < 2 ^ 32) :
    JournalFile.replaySteps (Journal.layout journalMagic records.length nonce n records) =
      records.map fun r => Pager.restorePage r.1 r.2.bytes := by
  unfold JournalFile.replaySteps
  rw [Journal.replayList_layout hnonce hids hcount]
  simp [Function.comp_def]

theorem restorePage_eq {id : Nat} (hid : 1 ≤ id) (p : Page) :
    Pager.restorePage id p.bytes =
      update fun st => { st with disk := st.disk.issue (.write id p) } := by
  unfold Pager.restorePage
  rw [if_neg (by omega), dif_pos p.length_eq]

/-- The storage after restoring every recorded page. -/
def restored (records : List (Nat × Page)) (st : Storage) : Storage :=
  { st with disk := records.foldl (fun d r => d.issue (.write r.1 r.2)) st.disk }

theorem seq_restore (records : List (Nat × Page)) (hids : ∀ r ∈ records, 1 ≤ r.1)
    (ms : List (PagerM Unit)) (st : Storage) :
    seq ((records.map fun r => Pager.restorePage r.1 r.2.bytes) ++ ms) st =
      seq ms (restored records st) := by
  induction records generalizing st with
  | nil => rfl
  | cons r records ih =>
      rw [List.map_cons, List.cons_append, restorePage_eq (hids r (by simp)),
        seq_cons_of_ok (update_apply _ st), ih fun r' hr' => hids r' (by simp [hr'])]
      rfl

/-- Restoring changes the recorded pages to their images and nothing else. -/
theorem restored_page {records : List (Nat × Page)} (hids : ∀ r ∈ records, 1 ≤ r.1)
    (himage : ∀ r ∈ records, r.2 = b.file.page r.1) (st : Storage) {id : Nat} (hid : 1 ≤ id) :
    (restored records st).disk.file.page id =
      if id ∈ records.map Prod.fst then b.file.page id else st.disk.file.page id := by
  induction records generalizing st with
  | nil => rfl
  | cons r records ih =>
      have hrest := ih (fun r' hr' => hids r' (by simp [hr']))
        (fun r' hr' => himage r' (by simp [hr']))
        { st with disk := st.disk.issue (.write r.1 r.2) }
      have hunfold : restored (r :: records) st =
        restored records { st with disk := st.disk.issue (.write r.1 r.2) } := rfl
      rw [hunfold, hrest]
      dsimp only
      rw [Disk.file_issue, FileOp.apply]
      by_cases hmem : id ∈ records.map Prod.fst
      · rw [if_pos hmem, if_pos (by simp [hmem])]
      · rw [if_neg hmem]
        by_cases heq : id = r.1
        · rw [if_pos (by simp [heq]), heq, DbFile.page_pwrite_self _ (hids r (by simp)),
            himage r (by simp)]
        · rw [if_neg (by simpa [heq] using hmem),
            DbFile.page_pwrite_ne _ (hids r (by simp)) hid heq]

/-- Restoring an intact file and cutting it gives the original database. -/
theorem resize_restored (hb : b.Sound) (hids : ∀ id ∈ journalled, 1 ≤ id) {st : Storage}
    (hintact : Intact b journalled st.disk.file) :
    (restored (b.originals journalled) st).disk.file.resize b.pageCount =
      b.file.take b.pageCount := by
  have hlen : (b.file.take b.pageCount).length = b.pageCount := by
    rw [List.length_take]
    exact min_eq_left hb.length_le
  have htake : b.file.take b.pageCount = DbFile.resize b.file b.pageCount := by
    rw [DbFile.resize, Nat.sub_eq_zero_of_le hb.length_le, List.replicate_zero, List.append_nil]
  refine DbFile.ext_page ?_ fun id hid hle => ?_
  · rw [DbFile.length_resize, hlen]
  · rw [DbFile.length_resize] at hle
    rw [htake, DbFile.page_resize _ hid hle, DbFile.page_resize _ hid hle]
    rw [restored_page (fun r hr => hids _ (Snapshot.mem_originals.mp hr).1)
      (fun r hr => (Snapshot.mem_originals.mp hr).2.2) st hid]
    split
    · rfl
    · rename_i hnot
      refine hintact.page_eq id hid hle fun hmem => hnot ?_
      exact List.mem_map.mpr ⟨(id, b.file.page id),
        Snapshot.mem_originals.mpr ⟨hmem, hle, rfl⟩, rfl⟩

theorem take_headerBytes (f : DbFile) {n : Nat} (hn : 1 ≤ n) :
    DbFile.headerBytes (f.take n) = f.headerBytes := by
  cases f with
  | nil => rw [List.take_nil]
  | cons p f =>
      obtain ⟨m, rfl⟩ := Nat.exists_eq_succ_of_ne_zero (by omega : n ≠ 0)
      rfl

end Restore

/-! ## Recovery, whole or cut -/

theorem Journal.File.CrashImage.eq_synced {f : Journal.File} {j : Bytes}
    (h : f.CrashImage (some j)) (hpending : f.pending = []) : j = f.synced := by
  obtain ⟨kept, hkept, rfl⟩ := h
  rw [hpending, List.flatMap_nil] at hkept
  rw [List.eq_nil_of_subset_nil hkept.subset]
  rfl

/-- While recovery restores pages: the journal is still in force. -/
structure Guarded (b : Snapshot) (journalled : List Nat) (j : Bytes) (st : Storage) : Prop where
  journal : st.journal = some ⟨j, [], true, false⟩
  synced_intact : Intact b journalled st.disk.synced
  pending_harmless : ∀ op ∈ st.disk.pending, op.Harmless b.pageCount journalled

/-- After recovery synced the file: the journal may be gone. -/
structure Settled (b : Snapshot) (j : Bytes) (st : Storage) : Prop where
  journal : ∃ u, st.journal = some ⟨j, [], true, u⟩
  disk : st.disk = ⟨b.file.take b.pageCount, []⟩

section Recover

variable {b : Snapshot} {nonce : Nat} {journalled : List Nat} {j : Bytes} {st : Storage}
  {sv : Survivor}

theorem Guarded.undoable (h : Guarded b journalled j st) (hj : Replayable b nonce journalled j)
    (hcrash : st.CrashImage sv) : sv.Undoable b := by
  obtain ⟨hfile, hjournal⟩ := hcrash
  rw [h.journal] at hjournal
  cases hsv : sv.journal with
  | none => rw [hsv] at hjournal; simp [Journal.File.CrashImage] at hjournal
  | some j' =>
      rw [hsv] at hjournal
      obtain rfl : j' = j := hjournal.eq_synced rfl
      exact .hot nonce journalled _ hsv hj (h.synced_intact.crashImage h.pending_harmless hfile)

theorem Intact.take (hb : b.Sound) : Intact b journalled (b.file.take b.pageCount) := by
  have htake : b.file.take b.pageCount = DbFile.resize b.file b.pageCount := by
    rw [DbFile.resize, Nat.sub_eq_zero_of_le hb.length_le, List.replicate_zero, List.append_nil]
  rw [htake]
  exact (Intact.refl hb.length_le journalled).apply
    (show (FileOp.truncate b.pageCount).Harmless b.pageCount journalled from rfl)

theorem Settled.undoable (h : Settled b j st) (hb : b.Sound)
    (hj : Replayable b nonce journalled j) (hcrash : st.CrashImage sv) : sv.Undoable b := by
  obtain ⟨hfile, hjournal⟩ := hcrash
  obtain ⟨u, hu⟩ := h.journal
  have hrestored : sv.file = b.file.take b.pageCount := by
    rw [h.disk] at hfile
    exact hfile.eq_synced rfl
  rw [hu] at hjournal
  cases hsv : sv.journal with
  | none => exact .cold (by simp [hsv]) (.inr hrestored)
  | some j' =>
      rw [hsv] at hjournal
      obtain rfl : j' = j := hjournal.eq_synced rfl
      exact .hot nonce journalled _ hsv hj (hrestored ▸ Intact.take hb)

theorem Guarded.restorePage {r : Nat × Page} (hid : 1 ≤ r.1)
    (hmem : r.1 ∈ journalled) : Keeps (Guarded b journalled j) (Pager.restorePage r.1 r.2.bytes) := by
  rw [restorePage_eq hid]
  refine fun st h => ⟨h.journal, h.synced_intact, fun op hop => ?_⟩
  rcases List.mem_append.mp hop with hop | hop
  · exact h.pending_harmless op hop
  · rw [List.mem_singleton.mp hop]
    exact ⟨hid, .inl hmem⟩

/-- The four steps after the restorations. -/
def finishRecovery (n : Nat) : List (PagerM Unit) :=
  [Pager.truncate n, Pager.sync, JournalFile.delete, Pager.reloadHeader]

/-- Once every recorded page is restored, the remaining steps end with the original
database and can be cut anywhere. -/
theorem Guarded.finish (h : Guarded b journalled j st) (hb : b.Sound)
    (hj : Replayable b nonce journalled j)
    (hresize : st.disk.file.resize b.pageCount = b.file.take b.pageCount) :
    Along (fun st => ∀ sv, st.CrashImage sv → sv.Undoable b) (finishRecovery b.pageCount) st ∧
      ∃ st', seq (finishRecovery b.pageCount) st = (.ok (), st') ∧
        st'.disk = ⟨b.file.take b.pageCount, []⟩ ∧ st'.header = b.header := by
  let st₁ : Storage := { st with
    disk := st.disk.issue (.truncate b.pageCount)
    header := { st.header with
      pageCount := b.pageCount, freelistCount := 0, freelistTrunk := 0 } }
  let st₂ : Storage := { st₁ with disk := st₁.disk.sync }
  let st₃ : Storage := { st₂ with journal := st₂.journal.map Journal.File.unlink }
  let st₄ : Storage := { st₃ with header := b.header }
  have hfile₁ : st₁.disk.file = b.file.take b.pageCount := (Disk.file_issue _ _).trans hresize
  have hdisk₂ : st₂.disk = ⟨b.file.take b.pageCount, []⟩ :=
    congrArg (fun f => (⟨f, []⟩ : Disk)) hfile₁
  have hrun₁ : Pager.truncate b.pageCount st = (.ok (), st₁) := by
    have hpos := hb.one_le
    unfold Pager.truncate
    rw [if_neg (by omega)]
    rfl
  have hrun₂ : Pager.sync st₁ = (.ok (), st₂) := rfl
  have hrun₃ : JournalFile.delete st₂ = (.ok (), st₃) := rfl
  have hrun₄ : Pager.reloadHeader st₃ = (.ok (), st₄) := by
    have hfile₃ : st₃.disk.file = b.file.take b.pageCount := congrArg Disk.file hdisk₂
    have hbytes : FileHeader.fromBytes st₃.disk.file.headerBytes = .ok b.header := by
      rw [hfile₃, take_headerBytes _ hb.one_le]
      exact hb.from_file
    unfold Pager.reloadHeader
    rw [bind_of_ok (state_apply st₃), bind_apply, lift_apply, hbytes]
    rfl
  have hg₁ : Guarded b journalled j st₁ := by
    refine ⟨h.journal, h.synced_intact, fun op hop => ?_⟩
    rcases List.mem_append.mp hop with hop | hop
    · exact h.pending_harmless op hop
    · rw [List.mem_singleton.mp hop]
      rfl
  have hs₂ : Settled b j st₂ := ⟨⟨false, h.journal⟩, hdisk₂⟩
  have hs₃ : Settled b j st₃ := by
    refine ⟨⟨true, ?_⟩, hdisk₂⟩
    show st.journal.map _ = _
    rw [h.journal]
    rfl
  have hs₄ : Settled b j st₄ := ⟨hs₃.journal, hs₃.disk⟩
  constructor
  · exact .cons (fun _ hc => h.undoable hj hc) hrun₁ <|
      .cons (fun _ hc => hg₁.undoable hj hc) hrun₂ <|
      .cons (fun _ hc => hs₂.undoable hb hj hc) hrun₃ <|
      .cons (fun _ hc => hs₃.undoable hb hj hc) hrun₄ fun _ hc => hs₄.undoable hb hj hc
  · refine ⟨st₄, ?_, hdisk₂, rfl⟩
    rw [finishRecovery, seq_cons_of_ok hrun₁, seq_cons_of_ok hrun₂, seq_cons_of_ok hrun₃,
      seq_cons_of_ok hrun₄]
    rfl

/-- Recovery of a hot journal: undoable wherever it is cut, and it ends with the
original database. -/
theorem Guarded.recover (h : Guarded b journalled j st) (hb : b.Sound)
    (hj : Replayable b nonce journalled j) :
    Along (fun st => ∀ sv, st.CrashImage sv → sv.Undoable b) (recoverySteps j) st ∧
      ∃ st', seq (recoverySteps j) st = (.ok (), st') ∧
        st'.disk = ⟨b.file.take b.pageCount, []⟩ ∧ st'.header = b.header := by
  have hmem : ∀ r ∈ b.originals journalled, r.1 ∈ journalled := fun r hr =>
    (Snapshot.mem_originals.mp hr).1
  have hids : ∀ r ∈ b.originals journalled, 1 ≤ r.1 := fun r hr => hj.ids _ (hmem r hr)
  have hlt : ∀ r ∈ b.originals journalled, r.1 < 2 ^ 32 := fun r hr =>
    (Snapshot.mem_originals.mp hr).2.1.trans_lt hb.count_lt
  have hsteps : recoverySteps j =
      ((b.originals journalled).map fun r => Pager.restorePage r.1 r.2.bytes) ++
        finishRecovery b.pageCount := by
    unfold recoverySteps
    rw [if_pos hj.isHot, hj.pageCountBefore hb.count_lt, hj.bytes_eq,
      replaySteps_layout hj.nonce_lt hlt hj.count_lt]
    rfl
  have hkeeps : ∀ m ∈ (b.originals journalled).map fun r => Pager.restorePage r.1 r.2.bytes,
      Keeps (Guarded b journalled j) m := by
    intro m hm
    obtain ⟨r, hr, rfl⟩ := List.mem_map.mp hm
    exact Guarded.restorePage (hids r hr) (hmem r hr)
  have hrestore : seq ((b.originals journalled).map fun r => Pager.restorePage r.1 r.2.bytes) st =
      (.ok (), restored (b.originals journalled) st) := by
    rw [← List.append_nil (List.map _ _), seq_restore (b.originals journalled) hids]
    rfl
  have hguarded : Guarded b journalled j (restored (b.originals journalled) st) := by
    have := (Keeps.seq hkeeps).exec h
    rwa [Prog.exec, hrestore] at this
  have hfinish := hguarded.finish hb hj
    (resize_restored hb hj.ids (h.synced_intact.file h.pending_harmless))
  rw [hsteps]
  constructor
  · refine Along.append hkeeps (fun _ hg _ hc => hg.undoable hj hc) h fun st' _ hrun => ?_
    rw [hrestore] at hrun
    obtain rfl : restored (b.originals journalled) st = st' := congrArg Prod.snd hrun
    exact hfinish.1
  · rw [seq_restore (b.originals journalled) hids]
    exact hfinish.2

/-- The storage `reopen` builds. -/
theorem Survivor.reopen_eq (hopen : sv.reopen = .ok st) :
    st.disk = ⟨sv.file, []⟩ ∧ st.journal = sv.journal.map fun j => ⟨j, [], true, false⟩ := by
  unfold Survivor.reopen at hopen
  split at hopen
  · cases hopen
  · obtain rfl := Except.ok.inj hopen
    exact ⟨rfl, rfl⟩

theorem recoverIfNeeded_none (hj : st.journal = none) : recoverIfNeeded st = (.ok false, st) := by
  unfold recoverIfNeeded
  rw [bind_of_ok (state_apply st), hj]
  rfl

theorem recoverIfNeeded_some {f : Journal.File} (hj : st.journal = some f) {st' : Storage}
    (hrun : seq (recoverySteps f.content) st = (.ok (), st')) :
    recoverIfNeeded st = (.ok true, st') := by
  unfold recoverIfNeeded
  rw [bind_of_ok (state_apply st), hj]
  exact bind_of_ok hrun

theorem recoverUpTo_none (hj : st.journal = none) (k : Nat) : (recoverUpTo k).exec st = st := by
  unfold recoverUpTo Prog.exec
  rw [bind_of_ok (state_apply st), hj]
  rfl

theorem recoverUpTo_some {f : Journal.File} (hj : st.journal = some f) (k : Nat) :
    (recoverUpTo k).exec st = (seq ((recoverySteps f.content).take k)).exec st := by
  unfold recoverUpTo Prog.exec
  rw [bind_of_ok (state_apply st), hj]

/-- A journal that is not hot is deleted, and nothing else happens. -/
theorem recover_cold {g : DbFile} (hcold : Journal.isHot j = false) (hfile : b.Restored g)
    (hdisk : st.disk = ⟨g, []⟩) (hjournal : st.journal = some ⟨j, [], true, false⟩) :
    Along (fun st => ∀ sv, st.CrashImage sv → sv.Undoable b) (recoverySteps j) st ∧
      ∃ st', seq (recoverySteps j) st = (.ok (), st') ∧ st'.disk = ⟨g, []⟩ := by
  have hsteps : recoverySteps j = [JournalFile.delete] := by
    unfold recoverySteps
    rw [if_neg (by simp [hcold])]
  have hgood : ∀ (u : Bool) (st' : Storage), st'.disk = ⟨g, []⟩ →
      st'.journal = some ⟨j, [], true, u⟩ → ∀ sv, st'.CrashImage sv → sv.Undoable b := by
    rintro u st' hd hu sv ⟨hf, hj⟩
    rw [hd] at hf
    rw [hu] at hj
    refine .cold (fun j' hj' => ?_) (hf.eq_synced rfl ▸ hfile)
    rw [hj'] at hj
    rw [hj.eq_synced rfl]
    exact hcold
  have hdel : JournalFile.delete st =
      (.ok (), { st with journal := some ⟨j, [], true, true⟩ }) := by
    unfold JournalFile.delete
    rw [update_apply, hjournal]
    rfl
  rw [hsteps]
  constructor
  · exact .cons (hgood false st hdisk hjournal) hdel (hgood true _ hdisk rfl)
  · refine ⟨{ st with journal := some ⟨j, [], true, true⟩ }, ?_, hdisk⟩
    rw [seq_cons_of_ok hdel]
    rfl

/-- Recovery finds the pre-transaction database, and a recovery that crashes leaves
files from which the next one finds it. -/
theorem Survivor.Undoable.recover (h : sv.Undoable b) (hb : b.Sound) (hopen : sv.reopen = .ok st) :
    (∃ r st', recoverIfNeeded st = (.ok r, st') ∧ b.Restored st'.disk.file) ∧
      ∀ k sv', ((recoverUpTo k).exec st).CrashImage sv' → sv'.Undoable b := by
  obtain ⟨hdisk, hjournal⟩ := Survivor.reopen_eq hopen
  cases h with
  | cold hcold hfile =>
      cases hsv : sv.journal with
      | none =>
          rw [hsv] at hjournal
          refine ⟨⟨false, st, recoverIfNeeded_none hjournal, by rw [hdisk]; exact hfile⟩, ?_⟩
          rintro k sv' hcrash
          rw [recoverUpTo_none hjournal] at hcrash
          obtain ⟨hf, hj⟩ := hcrash
          rw [hjournal] at hj
          rw [hdisk] at hf
          exact .cold (fun j hj' => by rw [hj] at hj'; cases hj') (hf.eq_synced rfl ▸ hfile)
      | some j =>
          rw [hsv] at hjournal
          obtain ⟨halong, st', hrun, hdisk'⟩ := recover_cold (hcold j hsv) hfile hdisk hjournal
          refine ⟨⟨true, st', recoverIfNeeded_some hjournal hrun, ?_⟩, fun k sv' hcrash => ?_⟩
          · rw [hdisk']
            exact hfile
          · rw [recoverUpTo_some hjournal] at hcrash
            exact halong.take k sv' hcrash
  | hot nonce journalled j hsv hreplay hintact =>
      rw [hsv] at hjournal
      have hg : Guarded b journalled j st :=
        ⟨hjournal, by rw [hdisk]; exact hintact, by rw [hdisk]; exact nofun⟩
      obtain ⟨halong, st', hrun, hdisk', -⟩ := hg.recover hb hreplay
      refine ⟨⟨true, st', recoverIfNeeded_some hjournal hrun, .inr ?_⟩, fun k sv' hcrash => ?_⟩
      · rw [hdisk']
        rfl
      · rw [recoverUpTo_some hjournal] at hcrash
        exact halong.take k sv' hcrash

/-- However often recovery crashes, what it leaves stays undoable. -/
theorem CrashedRecoveries.undoable {sv' : Survivor} (h : CrashedRecoveries sv sv') (hb : b.Sound)
    (hsv : sv.Undoable b) : sv'.Undoable b := by
  induction h with
  | none => exact hsv
  | crash k _ hopen hcrash ih => exact (ih.recover hb hopen).2 k _ hcrash

end Recover

end QuillDb
