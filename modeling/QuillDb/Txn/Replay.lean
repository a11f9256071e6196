/-
  Txn/Replay.lean --- what `replay` makes of any journal.

  Source: `Journal.replay` and `journal_checksum` of `quilldb/txn/journal.py`,
  `Pager.restore_page` of `quilldb/storage/pager.py`.

  The loop trusts the record count of the header.  A record whose checksum fails ends
  it, but one that is cut off is read as far as it goes: the checksum then misses a
  byte, or is compared with what is left of the stored one.
-/
import QuillDb.Txn.Recovery

set_option autoImplicit false

namespace QuillDb

open Prog

namespace Journal

/-! ## The records, as `replay` reads them -/

section Records

variable (j : Bytes)

/-- `nrec`. -/
def recordCount : Nat := fromBytes (slice j 8 4)

/-- The nonce. -/
def nonce : Nat := fromBytes (slice j 12 4)

variable (i : Nat)

/-- The bytes of record `i` that are there. -/
def recordData : Bytes := slice j (sectorSize + i * recordSize) recordSize

/-- `page_id`. -/
def recordId : Nat := fromBytes (slice (recordData j i) 0 4)

/-- `data`. -/
def recordImage : Bytes := slice (recordData j i) 4 pageSize

/-- `stored_checksum`. -/
def storedChecksum : Nat := fromBytes (slice (recordData j i) (4 + pageSize) 4)

/-- The checksum of the image is the stored one. -/
def Matches : Prop := checksum (recordImage j i) (nonce j) = .ok (storedChecksum j i)

/-- A complete record whose checksum matches. -/
def SoundRecord : Prop := (recordData j i).length = recordSize ∧ Matches j i

end Records

/-- The first `m` records are sound, and the next announced one, if any, is not. -/
structure LongestPrefix (j : Bytes) (m : Nat) : Prop where
  announced : m ≤ recordCount j
  sound : ∀ i < m, SoundRecord j i
  ends : m < recordCount j → ¬ SoundRecord j m

section Prefix

variable {j : Bytes} {m m' i : Nat}

theorem LongestPrefix.unique (h : LongestPrefix j m) (h' : LongestPrefix j m') : m = m' := by
  rcases Nat.lt_trichotomy m m' with hlt | heq | hgt
  · exact absurd (h'.sound m hlt) (h.ends (Nat.lt_of_lt_of_le hlt h'.announced))
  · exact heq
  · exact absurd (h.sound m' hgt) (h'.ends (Nat.lt_of_lt_of_le hgt h.announced))

theorem exists_longestPrefix (j : Bytes) : ∃ m, LongestPrefix j m := by
  have hsteps (n : Nat) (hn : n ≤ recordCount j) : (∀ i < n, SoundRecord j i) ∨
      ∃ m < n, (∀ i < m, SoundRecord j i) ∧ ¬ SoundRecord j m := by
    induction n with
    | zero => exact .inl fun i hi => absurd hi (Nat.not_lt_zero i)
    | succ n ih =>
        rcases ih (Nat.le_of_succ_le hn) with hall | ⟨m, hm, hends⟩
        · rcases Classical.em (SoundRecord j n) with hsound | hends
          · refine .inl fun i hi => ?_
            rcases Nat.lt_succ_iff_lt_or_eq.mp hi with hi | rfl
            · exact hall i hi
            · exact hsound
          · exact .inr ⟨n, Nat.lt_succ_self n, hall, hends⟩
        · exact .inr ⟨m, Nat.lt_succ_of_lt hm, hends⟩
  rcases hsteps (recordCount j) (Nat.le_refl _) with hall | ⟨m, hm, hall, hends⟩
  · exact ⟨recordCount j, Nat.le_refl _, hall, fun h => absurd h (Nat.lt_irrefl _)⟩
  · exact ⟨m, Nat.le_of_lt hm, hall, fun _ => hends⟩

theorem SoundRecord.length (h : SoundRecord j i) : (recordImage j i).length = pageSize := by
  have hlen := h.1
  have hsize : recordSize = 4 + pageSize + 4 := rfl
  rw [recordImage, slice, List.length_take, List.length_drop]
  omega

/-- The byte behind the last that `journal_checksum` samples. -/
def sampleEnd : Nat := pageSize - 199

/-- The checksum is that of all its samples or none. -/
theorem checksum_returns_iff (page : Bytes) (nonce : Nat) :
    (∃ sum, checksum page nonce = .ok sum) ↔ sampleEnd ≤ page.length := by
  have hfirst : sampled = (pageSize - 200) :: sampled.tail := by decide
  constructor
  · rintro ⟨sum, hsum⟩
    by_contra hshort
    have hnone : page[pageSize - 200]? = none :=
      List.getElem?_eq_none (by
        have hend : sampleEnd = 3897 := rfl
        have hpage : pageSize = 4096 := rfl
        omega)
    rw [checksum, hfirst, List.foldlM_cons, addSample, hnone] at hsum
    cases hsum
  · intro hlen
    have hall (is : List Nat) (his : ∀ i ∈ is, i < sampleEnd) (acc : Nat) :
        ∃ sum, is.foldlM (addSample page) acc = .ok sum := by
      induction is generalizing acc with
      | nil => exact ⟨acc, rfl⟩
      | cons i is ih =>
          have hi : i < page.length :=
            Nat.lt_of_lt_of_le (his i (List.mem_cons_self ..)) hlen
          rw [List.foldlM_cons, addSample, List.getElem?_eq_getElem hi]
          exact ih (fun k hk => his k (List.mem_cons_of_mem _ hk)) _
    obtain ⟨sum, hsum⟩ := hall sampled (by decide) nonce
    rw [checksum, hsum]
    exact ⟨_, rfl⟩

/-! ## The loop -/

/-- The images of the first `m` records. -/
def images (j : Bytes) (m : Nat) : List (Nat × Bytes) :=
  (List.range m).map fun i => (recordId j i, recordImage j i)

theorem replayFrom_sound {n k : Nat} (h : ∀ l, i ≤ l → l < i + k → Matches j l) (hk : k ≤ n) :
    replayFrom j (nonce j) i n =
      (((List.range' i k).map fun l => (recordId j l, recordImage j l)) ++
        (replayFrom j (nonce j) (i + k) (n - k)).1, (replayFrom j (nonce j) (i + k) (n - k)).2) := by
  induction k generalizing i n with
  | zero => rfl
  | succ k ih =>
      obtain ⟨n, rfl⟩ : ∃ p, n = p + 1 := ⟨n - 1, by omega⟩
      have hmatch : checksum (slice (slice j (sectorSize + i * recordSize) recordSize) 4 pageSize)
          (nonce j) = .ok (fromBytes (slice (slice j (sectorSize + i * recordSize) recordSize)
            (4 + pageSize) 4)) := h i (Nat.le_refl _) (by omega)
      have hrest := @ih (i + 1) n (fun l hl hl' => h l (by omega) (by omega)) (by omega)
      have hnext : i + 1 + k = i + (k + 1) := by omega
      have hleft : n + 1 - (k + 1) = n - k := by omega
      rw [hnext] at hrest
      rw [replayFrom]
      simp only [hmatch, ne_eq, not_true_eq_false, if_false, hrest, hleft, List.range'_succ,
        List.map_cons, List.cons_append]
      rfl

/-- How the loop goes on at a record. -/
theorem replayFrom_step (n : Nat) :
    (∃ e, checksum (recordImage j i) (nonce j) = .error e ∧
      replayFrom j (nonce j) i (n + 1) = ([], some e)) ∨
    (sampleEnd ≤ (recordImage j i).length ∧ ¬ Matches j i ∧
      replayFrom j (nonce j) i (n + 1) = ([], none)) ∨
    Matches j i ∧ replayFrom j (nonce j) i (n + 1) =
      ((recordId j i, recordImage j i) :: (replayFrom j (nonce j) (i + 1) n).1,
        (replayFrom j (nonce j) (i + 1) n).2) := by
  rcases hsum : checksum (recordImage j i) (nonce j) with e | sum
  · refine .inl ⟨e, rfl, ?_⟩
    unfold recordImage recordData at hsum
    rw [replayFrom]
    simp only [hsum]
  · rcases Classical.em (sum = storedChecksum j i) with heq | hne
    · rw [heq] at hsum
      refine .inr (.inr ⟨hsum, ?_⟩)
      unfold recordImage storedChecksum recordData at hsum
      rw [replayFrom]
      simp only [hsum, ne_eq, not_true_eq_false, if_false]
      rfl
    · refine .inr (.inl ⟨(checksum_returns_iff _ _).mp ⟨sum, hsum⟩, fun hmatch => hne ?_, ?_⟩)
      · exact Except.ok.inj (hsum.symm.trans hmatch)
      · unfold recordImage recordData at hsum
        unfold storedChecksum recordData at hne
        rw [replayFrom]
        simp only [hsum]
        rw [if_pos hne]

/-- A journal with its magic. -/
theorem replayList_eq (hmagic : slice j 0 8 = journalMagic) :
    replayList j = replayFrom j (nonce j) 0 (recordCount j) := by
  have hcount : recordCount j = fromBytes (slice j 8 4) := rfl
  unfold replayList
  rw [if_neg (not_not.mpr hmagic)]
  simp only
  split
  · rename_i hzero
    rw [hcount, hzero]
    rfl
  · rfl

/-- The images of the sound records come first. -/
theorem replayList_longest (hmagic : slice j 0 8 = journalMagic) (h : LongestPrefix j m) :
    replayList j = (images j m ++ (replayFrom j (nonce j) m (recordCount j - m)).1,
      (replayFrom j (nonce j) m (recordCount j - m)).2) := by
  have hsound := @replayFrom_sound j 0 (recordCount j) m
    (fun l _ hl => (h.sound l (by omega)).2) h.announced
  rw [Nat.zero_add, ← List.range_eq_range'] at hsound
  rw [replayList_eq hmagic, hsound]
  rfl

end Prefix

/-! ## The restored file -/

/-- `f'` is `f` with the images of the first `m` records on their pages, the last one of
several for a page, and nothing else changed. -/
structure RestoredBy (j : Bytes) (m : Nat) (f f' : DbFile) : Prop where
  restored : ∀ i < m, (∀ k < m, i < k → recordId j k ≠ recordId j i) →
    (f'.page (recordId j i)).bytes = recordImage j i
  untouched : ∀ id, 1 ≤ id → (∀ i < m, recordId j i ≠ id) → f'.page id = f.page id
  length : ∀ n, f'.length ≤ n ↔ f.length ≤ n ∧ ∀ i < m, recordId j i ≤ n

namespace RestoredBy

variable {j : Bytes} {m : Nat} {f f' g : DbFile}

theorem exists_last {P : Nat → Prop} {i : Nat} (hi : i < m) (h : P i) :
    ∃ l < m, P l ∧ ∀ k < m, l < k → ¬ P k := by
  induction m with
  | zero => exact absurd hi (Nat.not_lt_zero i)
  | succ m ih =>
      rcases Classical.em (P m) with hlast | hlast
      · exact ⟨m, Nat.lt_succ_self m, hlast, fun k hk hlt => by omega⟩
      · have hlt : i < m := by
          rcases Nat.lt_succ_iff_lt_or_eq.mp hi with hlt | rfl
          · exact hlt
          · exact absurd h hlast
        obtain ⟨l, hl, hPl, hno⟩ := ih hlt
        refine ⟨l, Nat.lt_succ_of_lt hl, hPl, fun k hk hlk => ?_⟩
        rcases Nat.lt_succ_iff_lt_or_eq.mp hk with hk | rfl
        · exact hno k hk hlk
        · exact hlast

/-- The records determine what is restored. -/
theorem unique (h : RestoredBy j m f f') (hg : RestoredBy j m f g) : f' = g := by
  refine DbFile.ext_page (Nat.le_antisymm ?_ ?_) fun id hid _ => ?_
  · exact (h.length _).mpr ((hg.length _).mp (Nat.le_refl _))
  · exact (hg.length _).mpr ((h.length _).mp (Nat.le_refl _))
  · rcases Classical.em (∃ i < m, recordId j i = id) with ⟨i, hi, heq⟩ | hnone
    · obtain ⟨l, hl, rfl, hlast⟩ := exists_last (P := fun i => recordId j i = id) hi heq
      exact Page.ext' ((h.restored l hl hlast).trans (hg.restored l hl hlast).symm)
    · have hnone (i : Nat) (hi : i < m) : recordId j i ≠ id := fun heq => hnone ⟨i, hi, heq⟩
      rw [h.untouched id hid hnone, hg.untouched id hid hnone]

/-- Restoring once more changes nothing. -/
theorem again (h : RestoredBy j m f f') : RestoredBy j m f' f' where
  restored := h.restored
  untouched := fun _ _ _ => rfl
  length := fun n => ⟨fun hn => ⟨hn, ((h.length n).mp hn).2⟩, And.left⟩

end RestoredBy

/-- The image of a complete record, as a page. -/
def recordPage (j : Bytes) (i : Nat) : Page := Page.zero.overwrite (recordImage j i)

theorem bytes_recordPage {j : Bytes} {i : Nat} (h : (recordImage j i).length = pageSize) :
    (recordPage j i).bytes = recordImage j i := by
  have htake := Page.zero.take_overwrite (Nat.le_of_eq h)
  rwa [h, List.take_of_length_le (Nat.le_of_eq (Page.length_eq _))] at htake

def pages (j : Bytes) (m : Nat) : List (Nat × Page) :=
  (List.range m).map fun i => (recordId j i, recordPage j i)

section Restore

variable {j : Bytes} {m : Nat}

theorem pages_ids (hids : ∀ i < m, recordId j i ≠ 0) : ∀ r ∈ pages j m, 1 ≤ r.1 := by
  intro r hr
  obtain ⟨i, hi, rfl⟩ := List.mem_map.mp hr
  exact Nat.pos_of_ne_zero (hids i (List.mem_range.mp hi))

theorem images_eq (hfull : ∀ i < m, (recordImage j i).length = pageSize) :
    images j m = (pages j m).map fun r => (r.1, r.2.bytes) := by
  rw [images, pages, List.map_map]
  refine List.map_congr_left fun i hi => ?_
  rw [Function.comp_apply, bytes_recordPage (hfull i (List.mem_range.mp hi))]

/-- One restoration after the other. -/
theorem restoredBy_pages (hids : ∀ i < m, recordId j i ≠ 0)
    (hfull : ∀ i < m, (recordImage j i).length = pageSize) (st : Storage) :
    RestoredBy j m st.disk.file (restored (pages j m) st).disk.file := by
  induction m with
  | zero =>
      exact ⟨fun i hi => absurd hi (Nat.not_lt_zero i), fun _ _ _ => rfl,
        fun n => ⟨fun h => ⟨h, fun i hi => absurd hi (Nat.not_lt_zero i)⟩, And.left⟩⟩
  | succ m ih =>
      have hold := ih (fun i hi => hids i (Nat.lt_succ_of_lt hi))
        fun i hi => hfull i (Nat.lt_succ_of_lt hi)
      have hid := Nat.pos_of_ne_zero (hids m (Nat.lt_succ_self m))
      have hfile : (restored (pages j (m + 1)) st).disk.file =
          (restored (pages j m) st).disk.file.pwrite (recordId j m) (recordPage j m) := by
        rw [restored, pages, List.range_succ, List.map_append, List.foldl_append]
        exact Disk.file_issue _ _
      rw [hfile]
      refine ⟨fun i hi hlast => ?_, fun id hpos hno => ?_, fun n => ?_⟩
      · rcases Nat.lt_succ_iff_lt_or_eq.mp hi with hlt | rfl
        · have hne := hlast m (Nat.lt_succ_self m) hlt
          rw [DbFile.page_pwrite_ne _ hid (Nat.pos_of_ne_zero (hids i hi)) hne.symm]
          exact hold.restored i hlt fun k hk => hlast k (Nat.lt_succ_of_lt hk)
        · rw [DbFile.page_pwrite_self _ hid, bytes_recordPage (hfull i hi)]
      · rw [DbFile.page_pwrite_ne _ hid hpos (hno m (Nat.lt_succ_self m)).symm]
        exact hold.untouched id hpos fun i hi => hno i (Nat.lt_succ_of_lt hi)
      · rw [DbFile.length_pwrite, max_le_iff, hold.length n, and_assoc]
        refine and_congr_right fun _ => ⟨fun h i hi => ?_, fun h => ?_⟩
        · rcases Nat.lt_succ_iff_lt_or_eq.mp hi with hlt | rfl
          · exact h.1 i hlt
          · exact h.2
        · exact ⟨fun i hi => h i (Nat.lt_succ_of_lt hi), h m (Nat.lt_succ_self m)⟩

/-- What restoring a list of images needs. -/
theorem seq_restore_ok {rs : List (Nat × Bytes)} {ms : List (PagerM Unit)} {st st' : Storage}
    (h : seq ((rs.map fun r => Pager.restorePage r.1 r.2) ++ ms) st = (.ok (), st')) :
    (∀ r ∈ rs, r.1 ≠ 0) ∧ ∃ st₁, seq ms st₁ = (.ok (), st') := by
  induction rs generalizing st with
  | nil => exact ⟨fun _ hr => (nomatch hr), st, h⟩
  | cons r rs ih =>
      rw [List.map_cons, List.cons_append] at h
      obtain ⟨_, st₁, hfirst, hrest⟩ := exists_of_bind_ok h
      obtain ⟨hids, hms⟩ := ih hrest
      refine ⟨fun q hq => ?_, hms⟩
      rcases List.mem_cons.mp hq with rfl | hq
      · rintro hzero
        rw [Pager.restorePage, if_pos (by omega)] at hfirst
        cases hfirst
      · exact hids q hq

end Restore

end Journal

/-! ## `replay` -/

namespace JournalFile

/-- `replay`, with the number of pages that it returns. -/
def replayCounted : PagerM Nat := do
  let s ← state
  replay
  return (Journal.replayList (bytes s)).1.length

end JournalFile

namespace Journal

open JournalFile

/-- What `replay` is to do with a journal, whatever the files are: return, restore the
longest prefix of sound records and no other page, and restore the same once more. -/
def ReplayMeets (j : Bytes) : Prop :=
  ∀ st : Storage, bytes st = j → ∃ m st', LongestPrefix j m ∧ replayCounted st = (.ok m, st') ∧
    RestoredBy j m st.disk.file st'.disk.file ∧ st'.journal = st.journal ∧ st'.header = st.header ∧
      ∃ st'', replayCounted st' = (.ok m, st'') ∧ st''.disk.file = st'.disk.file

/-- No sound record is one of page 0; and if the record behind them is announced and cut
off, all samples of its image are there and their sum is not the number that is left of its
checksum. -/
structure EndsClean (j : Bytes) (m : Nat) : Prop where
  ids : ∀ i < m, recordId j i ≠ 0
  cutOff : m < recordCount j → (recordData j m).length < recordSize →
    sampleEnd ≤ (recordImage j m).length ∧ ¬ Matches j m

section Replay

variable {j : Bytes} {m : Nat}

theorem LongestPrefix.full (h : LongestPrefix j m) : ∀ i < m, (recordImage j i).length = pageSize :=
  fun i hi => (h.sound i hi).length

/-- The loop stops behind the sound records, without an exception. -/
theorem EndsClean.stops (hclean : EndsClean j m) (h : LongestPrefix j m) :
    replayFrom j (nonce j) m (recordCount j - m) = ([], none) := by
  rcases Nat.lt_or_ge m (recordCount j) with hlt | hge
  · obtain ⟨n, hn⟩ := Nat.exists_eq_add_of_lt hlt
    have hstep := @replayFrom_step j m n
    have hleft : recordCount j - m = n + 1 := by omega
    have hend : sampleEnd ≤ (recordImage j m).length ∧ ¬ Matches j m := by
      rcases Nat.lt_or_ge (recordData j m).length recordSize with hcut | hwhole
      · exact hclean.cutOff hlt hcut
      · have hle : (recordData j m).length ≤ recordSize := List.length_take_le _ _
        have hlen := Nat.le_antisymm hle hwhole
        refine ⟨?_, fun hmatch => h.ends hlt ⟨hlen, hmatch⟩⟩
        rw [recordImage, slice, List.length_take, List.length_drop, hlen]
        decide
    rw [hleft]
    rcases hstep with ⟨e, herror, -⟩ | ⟨-, -, hstop⟩ | ⟨hmatch, -⟩
    · obtain ⟨sum, hsum⟩ := (checksum_returns_iff _ (nonce j)).mpr hend.1
      rw [hsum] at herror
      cases herror
    · exact hstop
    · exact absurd hmatch hend.2
  · rw [Nat.sub_eq_zero_of_le hge]
    rfl

theorem EndsClean.replay (hclean : EndsClean j m) (h : LongestPrefix j m)
    (hmagic : slice j 0 8 = journalMagic) {st : Storage} (hst : bytes st = j) :
    replayCounted st = (.ok m, restored (pages j m) st) := by
  have hlist : replayList j = (images j m, none) := by
    rw [replayList_longest hmagic h, hclean.stops h, List.append_nil]
  have hsteps : replaySteps j = ((pages j m).map fun r => Pager.restorePage r.1 r.2.bytes) ++ [] := by
    rw [replaySteps, hlist, images_eq h.full, List.map_map]
    rfl
  have hreplay : JournalFile.replay st = (.ok (), restored (pages j m) st) := by
    rw [JournalFile.replay, bind_of_ok (state_apply st), hst, hsteps,
      seq_restore _ (pages_ids hclean.ids)]
    rfl
  rw [replayCounted, bind_of_ok (state_apply st), bind_of_ok hreplay, hst, hlist, images,
    List.length_map, List.length_range]
  rfl

end Replay

/-- A journal with its magic is replayed as it should be if and only if its sound records
end cleanly. -/
theorem replay_meets_iff (j : Bytes) (hmagic : slice j 0 8 = journalMagic) :
    ReplayMeets j ↔ ∃ m, LongestPrefix j m ∧ EndsClean j m := by
  constructor
  · intro h
    obtain ⟨m, st', hprefix, hreturns, -⟩ := h ⟨⟨[], []⟩, some ⟨j, [], true, false⟩, {}⟩ rfl
    refine ⟨m, hprefix, ?_⟩
    obtain ⟨_, _, hstate, hrest⟩ := exists_of_bind_ok hreturns
    cases hstate
    obtain ⟨_, _, hreplay, hcount⟩ := exists_of_bind_ok hrest
    obtain ⟨_, _, hstate, hsteps⟩ := exists_of_bind_ok hreplay
    cases hstate
    have hcount : (replayList j).1.length = m := Except.ok.inj (Prod.mk.inj hcount).1
    have hsteps : seq (replaySteps j) _ = (.ok (), _) := hsteps
    have hlist := replayList_longest hmagic hprefix
    rw [replaySteps, hlist] at hsteps
    obtain ⟨hids, st₁, hend⟩ := seq_restore_ok hsteps
    rw [hlist, List.length_append, images, List.length_map, List.length_range] at hcount
    refine ⟨fun i hi => hids (recordId j i, recordImage j i) (List.mem_append_left _ ?_), fun hlt _ => ?_⟩
    · exact List.mem_map_of_mem (List.mem_range.mpr hi)
    · obtain ⟨n, hn⟩ := Nat.exists_eq_add_of_lt hlt
      have hleft : recordCount j - m = n + 1 := by omega
      rw [hleft] at hcount hend
      rcases @replayFrom_step j m n with ⟨e, -, hraises⟩ | ⟨hlen, hdiffers, -⟩ | ⟨-, hgoes⟩
      · rw [hraises] at hend
        cases hend
      · exact ⟨hlen, hdiffers⟩
      · rw [hgoes, List.length_cons] at hcount
        omega
  · rintro ⟨m, hprefix, hclean⟩ st hst
    have hids := hclean.ids
    have hrestored := restoredBy_pages hids hprefix.full st
    have hst' : bytes (restored (pages j m) st) = j := hst
    refine ⟨m, restored (pages j m) st, hprefix, hclean.replay hprefix hmagic hst, hrestored, rfl, rfl,
      _, hclean.replay hprefix hmagic hst', ?_⟩
    exact (restoredBy_pages hids hprefix.full _).unique hrestored.again

/-- One record, announced and not there. -/
def missingRecord : Bytes := validity journalMagic 1 ++ headerBody 0 1

theorem replay_meets_iff_missing : ReplayMeets missingRecord ↔
    ∃ m, LongestPrefix missingRecord m ∧ EndsClean missingRecord m :=
  replay_meets_iff missingRecord (by decide +kernel)

/-- The checksum of the missing image raises. -/
theorem replay_raises_on_missing_record : ¬ ReplayMeets missingRecord := by
  intro h
  obtain ⟨m, st', -, hreturns, -⟩ := h ⟨⟨[], []⟩, some ⟨missingRecord, [], true, false⟩, {}⟩ rfl
  have hraises : (replayCounted ⟨⟨[], []⟩, some ⟨missingRecord, [], true, false⟩, {}⟩).1 =
      .error (.indexError "index out of range") := by decide +kernel
  rw [hreturns] at hraises
  cases hraises

end Journal

end QuillDb
