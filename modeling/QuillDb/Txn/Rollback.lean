/-
  Txn/Rollback.lean --- when rollback restores the database.
-/
import QuillDb.Txn.Atomic

set_option autoImplicit false

namespace QuillDb

open Prog Machine

variable {b : Snapshot} {nonce : Nat} {s s₀ : Machine}

/-! ## Where a transaction may be rolled back -/

/-- After any operations and, if given, a commit whose step `k` failed, having torn a
page or not. -/
def rollbackPoint (ops : List Op) (failure : Option (Nat × Option Page)) (s₀ : Machine) :
    Machine :=
  match failure with
  | none => runOps ops s₀
  | some (k, garbage) => failedCommit k garbage (runOps ops s₀)

/-- A page write that fails half way tears a page rollback restores anyway. -/
theorem Ready.torn_flush (h : Ready b nonce s) {id : Nat} {entry : Frame}
    (hf : s.cache.lookup id = some entry) (hdirty : entry.dirty = true)
    (hbarrier : s.txn.barrierPassed = true) (p : Page) :
    Ready b nonce { s with storage := { s.storage with
      disk := s.storage.disk.issue (.write id p) } } := by
  obtain ⟨hlo, hhi, -, hwhere⟩ := h.cache id entry hf
  have hfile : Machine.file { s with storage := { s.storage with
      disk := s.storage.disk.issue (.write id p) } } = s.file.pwrite id p := Disk.file_issue _ _
  obtain ⟨hcount, f, hjournal, hcontent⟩ := h.barrier hbarrier
  refine { h with
    cache := fun k g hk => ?_
    intact := hfile ▸ h.intact.apply
      (show (FileOp.write id p).Harmless b.pageCount s.txn.journalled from ⟨hlo, hwhere hdirty⟩)
    journal := ⟨f, hjournal, .inr ⟨hcontent, hcount⟩⟩
    barrier := fun _ => ⟨hcount, f, hjournal, hcontent⟩ }
  obtain ⟨hklo, hkhi, hclean, hkdirty⟩ := h.cache k g hk
  refine ⟨hklo, hkhi, fun hc => ?_, hkdirty⟩
  have hne : k ≠ id := by
    rintro rfl
    obtain rfl := Option.some.inj (hf.symm.trans hk)
    rw [hdirty] at hc
    cases hc
  rw [hfile, DbFile.page_pwrite_ne _ hlo hklo hne]
  exact hclean hc

/-- A step that failed half way leaves a state that can be rolled back. -/
theorem RollbackState.torn (h : RollbackState b s) (p : Page) (step : CommitStep) :
    RollbackState b (step.torn p s) := by
  cases step with
  | flush id =>
      unfold CommitStep.torn
      dsimp only
      split
      · exact h
      · rename_i entry hf
        split
        · rename_i hboth
          cases h with
          | fresh h hj => rw [h.barrier] at hboth; cases hboth.2
          | closed hnd hj hclosed => exact .closed hnd hj hclosed
          | ready nonce h => exact .ready nonce (h.torn_flush hf hboth.1 hboth.2 p)
        · exact h
  | deleteJournal =>
      cases h with
      | fresh h hj =>
          have hsame : CommitStep.deleteJournal.torn p s = s := by
            show ({ s with txn := { s.txn with journal := s.txn.journal.map _ } } : Machine) = s
            rw [hj, Option.map_none, ← hj]
          rw [hsame]
          exact .fresh h hj
      | closed hnd hj hclosed =>
          exact .closed { hnd with file := .closed } (by simp [CommitStep.torn, hj]) rfl
      | ready nonce h =>
          exact .closed ⟨nonce, (b.originals s.txn.journalled).length, .closed⟩
            (by simp [CommitStep.torn, h.handle]) rfl
  | syncJournal => exact h
  | syncDirectory => exact h
  | writeValidity => exact h
  | syncValidity => exact h
  | passBarrier => exact h
  | syncDatabase => exact h

/-- Wherever a transaction stands, rollback finds what it needs. -/
theorem rollbackPoint_state (h : Committed s₀) (ops : List Op)
    (failure : Option (Nat × Option Page)) :
    RollbackState s₀.snapshot (rollbackPoint ops failure s₀) := by
  have hcut := fun cut => (crashPoint_ok h ops cut).rollback
  cases failure with
  | none => exact hcut none
  | some pair =>
      obtain ⟨k, garbage⟩ := pair
      have hk := hcut (some k)
      unfold crashPoint at hk
      dsimp only at hk
      rw [commitUpTo_exec] at hk
      unfold rollbackPoint failedCommit
      dsimp only
      cases hj : (runOps ops s₀).txn.journal with
      | none => rw [hj] at hk; exact hk
      | some hnd =>
          rw [hj] at hk
          rcases hrun : stampHeader (runOps ops s₀) with ⟨e | _, s₁⟩ <;> rw [hrun] at hk
          · exact hk
          · have hsteps : (commitSteps k).exec s₁ =
                (seq (((commitPlan s₁).map CommitStep.run).take k)).exec s₁ := by
              unfold commitSteps Prog.exec
              rw [bind_of_ok (state_apply s₁), List.map_take]
            dsimp only at hk ⊢
            rw [hsteps]
            cases garbage with
            | none => exact hk
            | some p =>
                cases (commitPlan s₁)[k]? with
                | none => exact hk
                | some step => exact hk.torn p step

/-! ## What rollback does -/

/-- The database is as the transaction found it. -/
structure RestoredTo (s₀ s : Machine) : Prop where
  view : ∀ id, s.view id = s₀.view id
  pageCount : s.header.pageCount = s₀.header.pageCount
  freelistTrunk : s.header.freelistTrunk = s₀.header.freelistTrunk
  freelistCount : s.header.freelistCount = s₀.header.freelistCount
  schemaCookie : s.header.schemaCookie = s₀.header.schemaCookie
  file_length : s.file.length = s₀.file.length

/-- Rollback returns, and everything is as it was. -/
def RollsBack (s₀ s : Machine) : Prop := ∃ s', rollback s = (.ok (), s') ∧ RestoredTo s₀ s'

/-- No page the transaction journalled is pinned. -/
def Unpinned (s : Machine) : Prop :=
  ∀ id ∈ s.txn.journalled, ∀ f, s.cache.lookup id = some f → f.pinCount = 0

/-- Every cached page beyond the original count went through `will_modify`. -/
def GrowthTracked (s₀ s : Machine) : Prop :=
  ∀ id f, s.cache.lookup id = some f → s₀.header.pageCount < id → id ∈ s.txn.journalled

/-- When rollback restores: with no journal begun, the header must not have moved;
with one, its handle is open, no journalled page is pinned, every new page in the
cache is tracked, and the file held exactly its pages. -/
def Restorable (s₀ s : Machine) : Prop :=
  match s.txn.journal with
  | none => s.header = s₀.header
  | some h => h.file = .opened ∧ Unpinned s ∧ GrowthTracked s₀ s ∧
      s₀.file.length = s₀.header.pageCount

theorem Committed.view_eq (h : Committed s₀) (id : Nat) :
    s₀.view id = if 1 ≤ id ∧ id ≤ s₀.header.pageCount then some (s₀.file.page id) else none := by
  unfold Machine.view
  split
  · rename_i f hf
    obtain ⟨-, hdata, hlo, hhi⟩ := h.cache id f hf
    rw [if_pos ⟨hlo, hhi⟩, hdata]
  · rfl

theorem clear_erases (ids : List Nat)
    (h : ∀ id ∈ ids, ∀ f, s.cache.lookup id = some f → f.pinCount = 0) :
    ∃ c, clear ids s = (.ok (), { s with cache := c }) ∧
      ∀ k, c.lookup k = if k ∈ ids then none else s.cache.lookup k := by
  induction ids generalizing s with
  | nil => exact ⟨s.cache, rfl, fun k => by simp⟩
  | cons id ids ih =>
      have hstep : ∃ c, Machine.discard id s = (.ok (), { s with cache := c }) ∧
          ∀ k, c.lookup k = if k = id then none else s.cache.lookup k := by
        unfold Machine.discard
        rw [bind_of_ok (state_apply s)]
        cases hf : s.cache.lookup id with
        | none =>
            refine ⟨s.cache, rfl, fun k => ?_⟩
            split
            · rename_i hk
              rw [hk, hf]
            · rfl
        | some entry =>
            have hpin := h id (by simp) entry hf
            dsimp only
            rw [if_neg (by omega)]
            exact ⟨_, rfl, fun k => Dict.lookup_erase _ _ _⟩
      obtain ⟨c, hrun, hc⟩ := hstep
      obtain ⟨c', hrun', hc'⟩ := ih (s := { s with cache := c }) fun k hk f hf => by
        rw [hc k] at hf
        split at hf
        · cases hf
        · exact h k (by simp [hk]) f hf
      refine ⟨c', ?_, fun k => ?_⟩
      · rw [clear, bind_of_ok hrun, hrun']
      · rw [hc' k, hc k]
        by_cases h₁ : k ∈ ids
        · simp [h₁]
        · by_cases h₂ : k = id <;> simp [h₁, h₂]

/-- A pinned page in the list makes `clear` raise. -/
theorem clear_raises (ids : List Nat) {id : Nat} (hid : id ∈ ids) {f : Frame}
    (hf : s.cache.lookup id = some f) (hpin : 0 < f.pinCount) : ∃ e s', clear ids s = (.error e, s') := by
  induction ids generalizing s with
  | nil => cases hid
  | cons k ids ih =>
      rw [clear]
      by_cases hk : k = id
      · subst hk
        have hrun : Machine.discard k s = (.error (.valueError "page is still pinned"), s) := by
          unfold Machine.discard
          rw [bind_of_ok (state_apply s), hf]
          dsimp only
          rw [if_pos hpin]
          rfl
        exact ⟨_, _, bind_of_error hrun⟩
      · have hmem : id ∈ ids := by
          rcases List.mem_cons.mp hid with h | h
          · exact absurd h.symm hk
          · exact h
        rcases hrun : Machine.discard k s with ⟨e | _, s'⟩
        · exact ⟨e, s', bind_of_error hrun⟩
        · rw [bind_of_ok hrun]
          refine ih hmem ?_
          unfold Machine.discard at hrun
          rw [bind_of_ok (state_apply s)] at hrun
          cases hfk : s.cache.lookup k with
          | none =>
              rw [hfk] at hrun
              obtain rfl := (Prod.mk.inj hrun).2
              exact hf
          | some entry =>
              rw [hfk] at hrun
              dsimp only at hrun
              split at hrun
              · cases hrun
              · obtain rfl := (Prod.mk.inj hrun).2
                dsimp only
                rw [Dict.lookup_erase, if_neg (Ne.symm hk)]
                exact hf

/-- The steps of rollback up to the end of the journal give the original file. -/
theorem Ready.restore (h : Ready b nonce s) (hb : b.Sound) :
    ∃ st, JournalFile.replay s.storage = (.ok (), st) ∧
      st.disk.file.resize b.pageCount = b.file.take b.pageCount := by
  obtain ⟨f, hf, hcontent⟩ := h.journal
  have hbytes : JournalFile.bytes s.storage = f.content := by
    unfold JournalFile.bytes
    rw [hf]
  have hrun : JournalFile.replay s.storage =
      seq (JournalFile.replaySteps f.content) s.storage := by
    unfold JournalFile.replay
    rw [bind_of_ok (state_apply s.storage), hbytes]
  have hids : ∀ r ∈ b.originals s.txn.journalled, 1 ≤ r.1 := fun r hr =>
    h.ids _ (Snapshot.mem_originals.mp hr).1
  have hlt : ∀ r ∈ b.originals s.txn.journalled, r.1 < 2 ^ 32 := fun r hr =>
    (Snapshot.mem_originals.mp hr).2.1.trans_lt h.count_lt
  rcases hcontent with ⟨hblank, hfile⟩ | ⟨hvalid, hcount⟩
  · -- the magic was never written, and neither was the database
    refine ⟨s.storage, ?_, ?_⟩
    · have hsteps : JournalFile.replaySteps f.content = [] := by
        unfold JournalFile.replaySteps Journal.replayList
        rw [hblank, if_pos]
        · rfl
        · rw [(Journal.slice_validity 0 nonce b.pageCount _ (zeros_length 8)).1]
          decide
      rw [hrun, hsteps]
      rfl
    · rw [show s.storage.disk.file = b.file from hfile, DbFile.resize,
        Nat.sub_eq_zero_of_le hb.length_le, List.replicate_zero, List.append_nil]
  · refine ⟨restored (b.originals s.txn.journalled) s.storage, ?_,
      resize_restored hb h.ids h.intact⟩
    rw [hrun, hvalid, replaySteps_layout h.nonce_lt hlt hcount,
      ← List.append_nil (List.map _ _), seq_restore _ hids]
    rfl

/-- Rollback of an open journal: it restores the file and drops the journalled
pages, unless one of them is pinned. -/
theorem Ready.rollback (h : Ready b nonce s) (hb : b.Sound) :
    (Unpinned s → ∃ s', Machine.rollback s = (.ok (), s') ∧ s'.file = b.file.take b.pageCount ∧
      s'.header = b.header ∧ ∀ k, s'.cache.lookup k =
        if k ∈ s.txn.journalled then none else s.cache.lookup k) ∧
      (¬ Unpinned s → ∃ e s', Machine.rollback s = (.error e, s')) := by
  obtain ⟨st₁, hreplay, hresize⟩ := h.restore hb
  let st₂ : Storage := { st₁ with
    disk := st₁.disk.issue (.truncate b.pageCount)
    header := { st₁.header with
      pageCount := b.pageCount, freelistCount := 0, freelistTrunk := 0 } }
  let st₃ : Storage := { st₂ with disk := st₂.disk.sync }
  let s₃ : Machine := { s with storage := st₃ }
  let s₄ : Machine := { s₃ with
    storage := { st₃ with journal := st₃.journal.map Journal.File.unlink }
    txn := { s.txn with
      journal := some ⟨nonce, (b.originals s.txn.journalled).length, .closed⟩ } }
  have hopen := h.toCore.openJournal
  have hfile : st₃.disk.file = b.file.take b.pageCount := (Disk.file_issue _ _).trans hresize
  have htrunc : Pager.truncate s.txn.pageCountBefore st₁ = (.ok (), st₂) := by
    have hpos := hb.one_le
    unfold Pager.truncate
    rw [h.before, if_neg (by omega)]
    rfl
  have hfront : Machine.rollback s =
      (clear s.txn.journalled >>= fun _ => onStorage Pager.reloadHeader) s₄ := by
    have hreplay' : onStorage JournalFile.replay s = (.ok (), { s with storage := st₁ }) := by
      rw [onStorage, hreplay]
    have htrunc' : onStorage (Pager.truncate s.txn.pageCountBefore) { s with storage := st₁ } =
        (.ok (), { s with storage := st₂ }) := by
      rw [onStorage, htrunc]
    have hsync : onStorage Pager.sync { s with storage := st₂ } = (.ok (), s₃) := rfl
    have hdelete : CommitStep.deleteJournal.run s₃ = (.ok (), s₄) := by
      have hopen₃ : openJournal s₃ =
          (.ok ⟨nonce, (b.originals s.txn.journalled).length, .opened⟩, s₃) := by
        unfold openJournal
        rw [bind_of_ok (state_apply s₃), show s₃.txn.journal = _ from h.handle]
        rfl
      exact (bind_of_ok hopen₃).trans rfl
    unfold Machine.rollback
    rw [bind_of_ok (state_apply s), h.handle]
    dsimp only
    rw [bind_of_ok hopen, bind_of_ok hreplay', bind_of_ok htrunc', bind_of_ok hsync,
      bind_of_ok hdelete]
  constructor
  · intro hunpinned
    obtain ⟨c, hclear, hc⟩ := clear_erases (s := s₄) s.txn.journalled hunpinned
    have hreload : onStorage Pager.reloadHeader { s₄ with cache := c } =
        (.ok (), { s₄ with cache := c, storage := { s₄.storage with header := b.header } }) := by
      have hbytes : FileHeader.fromBytes st₃.disk.file.headerBytes = .ok b.header := by
        rw [hfile, take_headerBytes _ hb.one_le]
        exact hb.from_file
      simp only [onStorage, Pager.reloadHeader, bind_apply, state_apply, lift_apply]
      rw [show s₄.storage.disk.file = st₃.disk.file from rfl, hbytes]
      rfl
    refine ⟨{ s₄ with cache := c, storage := { s₄.storage with header := b.header } }, ?_, hfile,
      rfl, hc⟩
    rw [hfront, bind_of_ok hclear, hreload]
  · intro hpinned
    simp only [Unpinned, not_forall] at hpinned
    obtain ⟨id, hid, f, hf, hpin⟩ := hpinned
    obtain ⟨e, s', hclear⟩ := clear_raises (s := s₄) s.txn.journalled hid hf
      (Nat.pos_of_ne_zero hpin)
    exact ⟨e, s', by rw [hfront, bind_of_error hclear]⟩

theorem Ready.rollsBack_iff (h : Ready s₀.snapshot nonce s) (h₀ : Committed s₀) :
    RollsBack s₀ s ↔ Unpinned s ∧ GrowthTracked s₀ s ∧
      s₀.file.length = s₀.header.pageCount := by
  have hb := h₀.sound
  obtain ⟨hok, herr⟩ := h.rollback hb
  by_cases hunpinned : Unpinned s
  · obtain ⟨s', hrun, hfile, hhd, hlookup⟩ := hok hunpinned
    have hlen : s'.file.length = s₀.header.pageCount := by
      rw [hfile, List.length_take]
      exact min_eq_left h₀.length_le
    constructor
    · rintro ⟨s'', hrun', hrestored⟩
      rw [hrun] at hrun'
      obtain rfl := (Prod.mk.inj hrun').2
      refine ⟨hunpinned, fun id f hf hgt => ?_, hrestored.file_length.symm.trans hlen⟩
      by_contra hnot
      have hview := hrestored.view id
      rw [h₀.view_eq, if_neg (by omega)] at hview
      unfold Machine.view at hview
      rw [hlookup id, if_neg hnot, hf] at hview
      cases hview
    · rintro ⟨-, htracked, hexact⟩
      refine ⟨s', hrun, ?_, by rw [hhd]; rfl, by rw [hhd]; rfl, by rw [hhd]; rfl,
        by rw [hhd]; rfl, hlen.trans hexact.symm⟩
      intro id
      rw [h₀.view_eq]
      have hpage : 1 ≤ id → id ≤ s₀.header.pageCount → s'.file.page id = s₀.file.page id := by
        intro hlo hhi
        have hlt : id - 1 < s₀.snapshot.pageCount := by
          show id - 1 < s₀.header.pageCount
          omega
        rw [hfile]
        unfold DbFile.page
        rw [List.getD_eq_getElem?_getD, List.getD_eq_getElem?_getD, List.getElem?_take, if_pos hlt]
        rfl
      unfold Machine.view
      rw [hlookup id, hhd]
      by_cases hmem : id ∈ s.txn.journalled
      · rw [if_pos hmem]
        dsimp only
        split
        · rename_i hrange
          rw [hpage hrange.1 hrange.2]
          exact (if_pos hrange).symm
        · rename_i hrange
          exact (if_neg hrange).symm
      · rw [if_neg hmem]
        cases hf : s.cache.lookup id with
        | none =>
            dsimp only
            split
            · rename_i hrange
              rw [hpage hrange.1 hrange.2]
              exact (if_pos hrange).symm
            · rename_i hrange
              exact (if_neg hrange).symm
        | some f =>
            -- what stays cached is clean and was there before
            obtain ⟨hlo, -, hclean, hdirty⟩ := h.cache id f hf
            have hhi : id ≤ s₀.header.pageCount := by
              by_contra hgt
              exact hmem (htracked id f hf (by omega))
            have hnot : f.dirty = false := by
              cases hd : f.dirty with
              | false => rfl
              | true =>
                  rcases hdirty hd with hj | hgt
                  · exact absurd hj hmem
                  · exact absurd hhi (not_le.mpr hgt)
            dsimp only
            rw [if_pos ⟨hlo, hhi⟩, hclean hnot, h.intact.page_eq id hlo hhi hmem]
            rfl
  · obtain ⟨e, s', hrun⟩ := herr hunpinned
    refine iff_of_false ?_ fun h => hunpinned h.1
    rintro ⟨s'', hrun', -⟩
    rw [hrun] at hrun'
    cases (Prod.mk.inj hrun').1

/-- With no journal begun, rollback does nothing. -/
theorem rollback_none (hj : s.txn.journal = none) : Machine.rollback s = (.ok (), s) := by
  unfold Machine.rollback
  rw [bind_of_ok (state_apply s), hj]
  rfl

theorem InTxn.rollsBack_iff (h : InTxn s₀.snapshot s) (h₀ : Committed s₀)
    (hj : s.txn.journal = none) : RollsBack s₀ s ↔ s.header = s₀.header := by
  have hfile : s.file = s₀.file := h.file_eq
  constructor
  · rintro ⟨s', hrun, hrestored⟩
    rw [rollback_none hj] at hrun
    obtain rfl := (Prod.mk.inj hrun).2
    obtain ⟨pc, tr, ct, ck, hframe⟩ := h.frame
    have h₁ := hrestored.pageCount
    have h₂ := hrestored.freelistTrunk
    have h₃ := hrestored.freelistCount
    have h₄ := hrestored.schemaCookie
    rw [hframe] at h₁ h₂ h₃ h₄ ⊢
    dsimp only at h₁ h₂ h₃ h₄
    rw [h₁, h₂, h₃, h₄]
    rfl
  · intro hhd
    refine ⟨s, rollback_none hj, fun id => ?_, by rw [hhd], by rw [hhd], by rw [hhd],
      by rw [hhd], by rw [hfile]⟩
    rw [h₀.view_eq]
    unfold Machine.view
    rw [hhd, hfile]
    cases hf : s.cache.lookup id with
    | none => rfl
    | some f =>
        obtain ⟨hlo, hhi, hclean, hdirty⟩ := h.cache id f hf
        rw [hhd] at hhi
        have hjs := h.journal
        unfold JournalState at hjs
        rw [hj] at hjs
        have hnot : f.dirty = false := by
          cases hd : f.dirty with
          | false => rfl
          | true =>
              rcases hdirty hd with hmem | hgt
              · exact absurd hhi (not_le.mpr (hjs.2 id hmem))
              · exact absurd hhi (not_le.mpr hgt)
        dsimp only
        rw [if_pos ⟨hlo, hhi⟩, hclean hnot]
        rfl

/-- Rollback gives the database back exactly when the state is restorable. -/
theorem rollback_restores_iff (h : Committed s₀) (ops : List Op)
    (failure : Option (Nat × Option Page)) :
    RollsBack s₀ (rollbackPoint ops failure s₀) ↔
      Restorable s₀ (rollbackPoint ops failure s₀) := by
  unfold Restorable
  cases rollbackPoint_state h ops failure with
  | fresh hin hj =>
      rw [hj]
      exact hin.rollsBack_iff h hj
  | ready nonce hready =>
      rw [hready.handle]
      dsimp only
      rw [hready.rollsBack_iff h]
      exact ⟨fun hr => ⟨rfl, hr⟩, fun hr => hr.2⟩
  | closed hnd hj hclosed =>
      rw [hj]
      dsimp only
      rw [hclosed]
      refine iff_of_false ?_ fun hr => by cases hr.1
      rintro ⟨s', hrun, -⟩
      unfold Machine.rollback at hrun
      rw [bind_of_ok (state_apply _), hj] at hrun
      dsimp only at hrun
      have hraise : openJournal (rollbackPoint ops failure s₀) =
          (.error (.valueError "I/O operation on closed file."), rollbackPoint ops failure s₀) := by
        obtain ⟨nonce, nrec, fs⟩ := hnd
        dsimp only at hclosed
        subst hclosed
        unfold openJournal
        rw [bind_of_ok (state_apply _), hj]
        rfl
      rw [bind_of_error hraise] at hrun
      cases (Prod.mk.inj hrun).1

/-- A page grew the file and nothing that existed was written: no journal was begun
and rollback leaves the new page behind. -/
theorem rollback_keeps_growth :
    ¬ RollsBack (Machine.create 128 7) (rollbackPoint [.allocatePage] none (Machine.create 128 7)) := by
  rintro ⟨s', hrun, hrestored⟩
  have hnone : (rollbackPoint [.allocatePage] none (Machine.create 128 7)).txn.journal = none := rfl
  rw [rollback_none hnone] at hrun
  obtain rfl := (Prod.mk.inj hrun).2
  exact absurd hrestored.pageCount (by decide)

/-- The same growth in a transaction that also changed page 1 and rewrote the new
page, after a commit that failed at its last page write. -/
theorem rollback_restores_growth :
    RollsBack (Machine.create 128 7) (rollbackPoint
        [.getPageForWrite 1, .unpin 1, .allocatePage, .getPageForWrite 2, .unpin 2]
        (some (6, some Page.zero)) (Machine.create 128 7)) ↔
      Restorable (Machine.create 128 7) (rollbackPoint
        [.getPageForWrite 1, .unpin 1, .allocatePage, .getPageForWrite 2, .unpin 2]
        (some (6, some Page.zero)) (Machine.create 128 7)) :=
  rollback_restores_iff (create_committed 128 7) _ _

end QuillDb
