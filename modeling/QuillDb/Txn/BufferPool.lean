/-
  Txn/BufferPool.lean --- what the pool shows, with and without a transaction.

  Source: `quilldb/storage/bufferpool.py`.
-/
import QuillDb.Txn.ReadPool
import QuillDb.Txn.Freelist

set_option autoImplicit false

namespace QuillDb

open Prog Machine

namespace BufferPool

/-! ## What is known of a pool -/

variable {inTxn : Bool} {s s' s'' : Machine} {id : Nat}

/-- Inside of a transaction the journal is in order. -/
def Wired (inTxn : Bool) (s : Machine) : Prop := inTxn = true → ∃ b, InTxn b s

/-- A pool as its operations leave it. -/
structure Ready (inTxn : Bool) (s : Machine) : Prop where
  consistent : s.Consistent
  wired : Wired inTxn s

/-- The header, the capacity and every page are as before. -/
structure Shows (s s' : Machine) : Prop where
  consistent : s'.Consistent
  header : s'.header = s.header
  capacity : s'.capacity = s.capacity
  page : ∀ k, 1 ≤ k → s'.page k = s.page k

/-- The same, but for one page. -/
structure ShowsBut (id : Nat) (s s' : Machine) : Prop where
  consistent : s'.Consistent
  header : s'.header = s.header
  capacity : s'.capacity = s.capacity
  page : ∀ k, 1 ≤ k → k ≠ id → s'.page k = s.page k

/-- As many pages are pinned as the pool holds. -/
def Crowded (s : Machine) : Prop :=
  ∃ pinned : List Nat, pinned.Nodup ∧ (∀ id ∈ pinned, 0 < s.pinsOn id) ∧ s.capacity ≤ pinned.length

/-- `PoolExhaustedError`. -/
def Exhausted (e : DbError) : Prop := e = .poolExhausted "every cached page is pinned; nothing to evict"

/-- The pins with one more on a page. -/
def pinOne (pins : Nat → Nat) (id : Nat) : Nat → Nat := fun k => if k = id then pins k + 1 else pins k

theorem Shows.refl (h : s.Consistent) : Shows s s := ⟨h, rfl, rfl, fun _ _ => rfl⟩

theorem Shows.trans (h : Shows s s') (h' : Shows s' s'') : Shows s s'' :=
  ⟨h'.consistent, h'.header.trans h.header, h'.capacity.trans h.capacity,
    fun k hk => (h'.page k hk).trans (h.page k hk)⟩

theorem Shows.but (h : Shows s s') (id : Nat) : ShowsBut id s s' :=
  ⟨h.consistent, h.header, h.capacity, fun k hk _ => h.page k hk⟩

theorem ShowsBut.trans (h : ShowsBut id s s') (h' : ShowsBut id s' s'') : ShowsBut id s s'' :=
  ⟨h'.consistent, h'.header.trans h.header, h'.capacity.trans h.capacity,
    fun k hk hne => (h'.page k hk hne).trans (h.page k hk hne)⟩

/-- Only the pins and the capacity count. -/
theorem Crowded.congr (h : Crowded s) (hcapacity : s'.capacity = s.capacity) (hpins : s'.pinsOn = s.pinsOn) :
    Crowded s' := by
  obtain ⟨pinned, hnodup, hall, hle⟩ := h
  rw [← hcapacity] at hle
  exact ⟨pinned, hnodup, fun id hid => hpins ▸ hall id hid, hle⟩

/-! ## The journal stays in order -/

theorem post_of_keeps {α : Type} {m : MachineM α} {I : Machine → Prop} (h : Keeps I m) (hs : I s) :
    Post m s (fun _ => I) fun _ => I :=
  h s hs

theorem keeps_wired {α : Type} {m : MachineM α} (h : inTxn = true → ∀ b, Keeps (InTxn b) m) :
    Keeps (Wired inTxn) m := by
  intro s hs
  cases inTxn with
  | false =>
      rcases m s with ⟨e | a, s'⟩
      · exact fun h => absurd h Bool.false_ne_true
      · exact fun h => absurd h Bool.false_ne_true
  | true =>
      obtain ⟨b, hb⟩ := hs rfl
      have hkept := h rfl b s hb
      rcases hrun : m s with ⟨e | a, s'⟩ <;> rw [hrun] at hkept
      · exact fun _ => ⟨b, hkept⟩
      · exact fun _ => ⟨b, hkept⟩

theorem wired_getPage (id : Nat) : Keeps (Wired inTxn) (getPage inTxn id) := by
  refine keeps_wired fun htxn b => ?_
  subst htxn
  exact Keeps.forget fun t d => (getPage_spec id).conseq (fun _ h => h) (fun _ _ h => ⟨h.1, h.2.1⟩) fun _ _ h => h

theorem wired_getPageForWrite (id : Nat) : Keeps (Wired inTxn) (getPageForWrite inTxn id) := by
  refine keeps_wired fun htxn b => ?_
  subst htxn
  exact getPageForWrite_keeps id

theorem wired_unpin (id : Nat) : Keeps (Wired inTxn) (unpin id) :=
  keeps_wired fun _ _ => Keeps.forget fun _ _ => unpin_spec id

theorem wired_mutate (id : Nat) (p : Page) : Keeps (Wired inTxn) (mutate id p) :=
  keeps_wired fun _ _ => Keeps.forget fun _ _ => mutate_spec id p

theorem wired_discard (id : Nat) : Keeps (Wired inTxn) (discard id) :=
  keeps_wired fun _ _ => Keeps.forget fun _ _ => discard_spec id

theorem wired_allocatePage : Keeps (Wired inTxn) (allocatePage inTxn) := by
  refine keeps_wired fun htxn b => ?_
  subst htxn
  exact allocatePage_keeps

theorem wired_freePage (id : Nat) : Keeps (Wired inTxn) (freePage inTxn id) := by
  refine keeps_wired fun htxn b => ?_
  subst htxn
  exact freePage_keeps id

/-! ## One entry of the cache -/

section Entry

variable {c : Dict Nat Frame} {entry : Option Frame} {f : Frame}

theorem lookup_modify_entry (hf : s.cache.lookup id = some f) (g : Frame → Frame) (k : Nat) :
    (s.cache.modify id g).lookup k = if k = id then some (g f) else s.cache.lookup k := by
  rw [Dict.lookup_modify]
  split
  · rename_i heq
    rw [heq, hf, Option.map_some]
  · rfl

theorem lookup_append_entry (hmiss : s.cache.lookup id = none) (f : Frame) (k : Nat) :
    (s.cache ++ [(id, f)]).lookup k = if k = id then some f else s.cache.lookup k := by
  rw [Dict.lookup_append_single]
  split
  · rename_i heq
    rw [heq, hmiss, Option.none_or]
  · exact Option.or_none

/-- The other entries are pages of the file already. -/
theorem inFile_of_entry (hs : s.Consistent)
    (hlook : ∀ k, c.lookup k = if k = id then entry else s.cache.lookup k)
    (hentry : entry ≠ none → id ≤ s.header.pageCount) : ∀ k g, c.lookup k = some g → k ≤ s.header.pageCount := by
  intro k g hg
  rw [hlook] at hg
  split at hg
  · rename_i heq
    rw [heq]
    refine hentry fun hnone => ?_
    rw [hnone] at hg
    cases hg
  · exact hs.inFile k g hg

/-- The pins of the other entries are the same. -/
theorem pinsOn_of_entry (hlook : ∀ k, c.lookup k = if k = id then entry else s.cache.lookup k) :
    pinsOn { s with cache := c } = fun k => if k = id then (entry.map Frame.pinCount).getD 0 else s.pinsOn k := by
  funext k
  show ((c.lookup k).map Frame.pinCount).getD 0 = _
  rw [hlook]
  split
  · rfl
  · rfl

/-- The entry has the pins that the page had. -/
theorem pinsOn_eq_of_entry (hlook : ∀ k, c.lookup k = if k = id then entry else s.cache.lookup k)
    (hpins : (entry.map Frame.pinCount).getD 0 = s.pinsOn id) : pinsOn { s with cache := c } = s.pinsOn := by
  rw [pinsOn_of_entry hlook]
  funext k
  split
  · rename_i heq
    rw [heq, hpins]
  · rfl

/-- The entry has one more pin. -/
theorem pinsOn_pinOne_of_entry (hlook : ∀ k, c.lookup k = if k = id then entry else s.cache.lookup k)
    (hpins : (entry.map Frame.pinCount).getD 0 = s.pinsOn id + 1) :
    pinsOn { s with cache := c } = pinOne s.pinsOn id := by
  rw [pinsOn_of_entry hlook, hpins]
  funext k
  rw [pinOne]
  split
  · rename_i heq
    rw [heq]
  · rfl

end Entry

/-! ## Eviction -/

/-- An unpinned entry goes once the file holds its page. -/
theorem dropped (hs : s.Consistent) {f : Frame} (hf : s.cache.lookup id = some f) (hpin : f.pinCount = 0)
    {st : Storage} (hheader : st.header = s.storage.header) (hself : st.disk.file.page id = f.data)
    (hother : ∀ k, 1 ≤ k → k ≠ id → st.disk.file.page k = s.file.page k) :
    Shows s { s with storage := st, cache := s.cache.erase id } ∧
      pinsOn { s with storage := st, cache := s.cache.erase id } = s.pinsOn := by
  have hlook : ∀ k, (s.cache.erase id).lookup k = if k = id then none else s.cache.lookup k :=
    Dict.lookup_erase s.cache id
  have hold : ∀ {k : Nat} {g : Frame}, (s.cache.erase id).lookup k = some g → k ≠ id ∧ s.cache.lookup k = some g := by
    intro k g hg
    rw [hlook] at hg
    split at hg
    · cases hg
    · rename_i hne
      exact ⟨hne, hg⟩
  refine ⟨⟨⟨⟨Dict.nodup_erase hs.keys id, fun k g hg => hs.one_le k g (hold hg).2, fun k g hg hclean => ?_⟩,
    fun k g hg => ?_⟩, hheader, rfl, fun k hk => ?_⟩, ?_⟩
  · obtain ⟨hne, hg⟩ := hold hg
    exact (hs.clean k g hg hclean).trans (hother k (hs.one_le k g hg) hne).symm
  · have hle : k ≤ s.storage.header.pageCount := hs.inFile k g (hold hg).2
    show k ≤ st.header.pageCount
    rwa [hheader]
  · by_cases hne : k = id
    · subst hne
      rw [page_of_lookup hf]
      exact (page_of_miss ((hlook k).trans (if_pos rfl))).trans hself
    · cases hg : s.cache.lookup k with
      | some g =>
          rw [page_of_lookup hg]
          exact page_of_lookup ((hlook k).trans ((if_neg hne).trans hg))
      | none =>
          rw [page_of_miss hg]
          exact (page_of_miss ((hlook k).trans ((if_neg hne).trans hg))).trans (hother k hk hne)
  · refine pinsOn_eq_of_entry hlook ?_
    rw [pinsOn_of_lookup hf, hpin]
    rfl

/-- What an eviction leaves. -/
def Evicted (s s' : Machine) : Prop :=
  Shows s s' ∧ s'.pinsOn = s.pinsOn ∧ ∀ k, s.cache.lookup k = none → s'.cache.lookup k = none

theorem evicted_refl (hs : s.Consistent) : Evicted s s := ⟨Shows.refl hs, rfl, fun _ h => h⟩

theorem evicted_erase (hs : s.Consistent) {f : Frame} (hf : s.cache.lookup id = some f) (hpin : f.pinCount = 0)
    {st : Storage} (hheader : st.header = s.storage.header) (hself : st.disk.file.page id = f.data)
    (hother : ∀ k, 1 ≤ k → k ≠ id → st.disk.file.page k = s.file.page k) :
    Evicted s { s with storage := st, cache := s.cache.erase id } := by
  obtain ⟨hshows, hpins⟩ := dropped hs hf hpin hheader hself hother
  refine ⟨hshows, hpins, fun k hmiss => ?_⟩
  show (s.cache.erase id).lookup k = none
  rw [Dict.lookup_erase, hmiss, ite_self]

/-- Only a pool of pinned pages raises. -/
theorem evictOne_post (hs : s.Consistent) : Post (evictOne inTxn) s (fun _ s' => Evicted s s')
    fun e s' => s' = s ∧ Exhausted e ∧ ∀ entry ∈ s.cache, 0 < entry.2.pinCount := by
  cases inTxn with
  | true =>
      show Post Machine.evictOne s _ _
      unfold Machine.evictOne
      simp only [post_bind, post_state]
      cases hfind : s.cache.find? fun e => e.2.pinCount = 0 ∧ ¬ e.2.dirty with
      | some e =>
          have hpred := List.find?_some hfind
          simp only [decide_eq_true_eq, Bool.not_eq_true] at hpred
          have hf := Dict.lookup_of_mem hs.keys (List.mem_of_find?_eq_some hfind)
          exact evicted_erase hs hf hpred.1 rfl (hs.clean _ _ hf hpred.2).symm fun _ _ _ => rfl
      | none =>
          dsimp only
          split
          · exact evicted_refl hs
          · rename_i hany
            refine ⟨rfl, rfl, fun entry hentry => Nat.pos_of_ne_zero fun hzero => ?_⟩
            exact hany (List.any_eq_true.mpr ⟨entry, hentry, decide_eq_true hzero⟩)
  | false =>
      unfold evictOne
      rw [if_neg Bool.false_ne_true]
      simp only [post_bind, post_state]
      cases hfind : s.cache.find? fun e => e.2.pinCount = 0 with
      | some e =>
          have hpred := List.find?_some hfind
          have hpin : e.2.pinCount = 0 := of_decide_eq_true hpred
          have hf := Dict.lookup_of_mem hs.keys (List.mem_of_find?_eq_some hfind)
          have hone := hs.one_le _ _ hf
          have hle : e.1 ≤ s.storage.header.pageCount := hs.inFile _ _ hf
          dsimp only
          split
          · -- a dirty page is written first
            have hrun : onStorage (Pager.writePage true e.1 e.2.data) s = (.ok (), { s with
                storage := { s.storage with disk := s.storage.disk.issue (.write e.1 e.2.data) } }) := by
              simp only [onStorage, Pager.writePage]
              rw [if_neg (by decide)]
              simp only [bind_apply, state_apply]
              rw [if_neg (by omega)]
              rfl
            rw [post_bind]
            refine Post.of_eq hrun (evicted_erase hs hf hpin rfl ?_ fun k hk hne => ?_)
            · rw [Disk.file_issue]
              exact DbFile.page_pwrite_self _ hone _
            · rw [Disk.file_issue]
              exact DbFile.page_pwrite_ne _ hone hk hne _
          · rename_i hclean
            exact evicted_erase hs hf hpin rfl (hs.clean _ _ hf (Bool.not_eq_true _ |>.mp hclean)).symm
              fun _ _ _ => rfl
      | none =>
          refine ⟨rfl, rfl, fun entry hentry => Nat.pos_of_ne_zero fun hzero => ?_⟩
          exact List.find?_eq_none.mp hfind entry hentry (decide_eq_true hzero)

/-- A full pool of pinned pages is crowded. -/
theorem crowded_of_pinned (hs : s.Consistent) (hfull : s.capacity ≤ s.cache.length)
    (hpinned : ∀ entry ∈ s.cache, 0 < entry.2.pinCount) : Crowded s := by
  refine ⟨s.cache.map Prod.fst, hs.keys, fun id hid => ?_, (List.length_map _).symm ▸ hfull⟩
  obtain ⟨⟨k, f⟩, hmem, rfl⟩ := List.mem_map.mp hid
  rw [pinsOn_of_lookup (Dict.lookup_of_mem hs.keys hmem)]
  exact hpinned _ hmem

theorem makeRoom_post (hs : s.Consistent) : Post (makeRoom inTxn) s (fun _ s' => Evicted s s')
    fun e s' => s' = s ∧ Exhausted e ∧ Crowded s := by
  unfold makeRoom
  simp only [post_bind, post_state]
  split
  · rename_i hfull
    refine (evictOne_post hs).mono (fun _ _ h => h) ?_
    rintro e s' ⟨rfl, he, hpinned⟩
    exact ⟨rfl, he, crowded_of_pinned hs hfull hpinned⟩
  · exact evicted_refl hs

/-! ## Pinning -/

theorem shows_of_view (h : SameView s s') (hcapacity : s'.capacity = s.capacity)
    (hin : ∀ k f, s'.cache.lookup k = some f → k ≤ s.header.pageCount) : Shows s s' := by
  refine ⟨⟨h.coherent, fun k f hf => ?_⟩, h.header, hcapacity, fun k _ => congrFun h.page k⟩
  rw [h.header]
  exact hin k f hf

/-- What a pin leaves. -/
structure Pins (id : Nat) (s s' : Machine) : Prop where
  shows : Shows s s'
  pins : s'.pinsOn = pinOne s.pinsOn id
  frame : ∃ f, s'.cache.lookup id = some f ∧ 0 < f.pinCount ∧ f.data = s.page id

theorem pins_hit (hs : s.Consistent) {f : Frame} (hf : s.cache.lookup id = some f) :
    Pins id s { s with cache := s.cache.moveToEnd id { f with pinCount := f.pinCount + 1 } } := by
  have hlook := Dict.lookup_moveToEnd s.cache id
  have hin := inFile_of_entry hs (fun k => hlook k { f with pinCount := f.pinCount + 1 }) fun _ => hs.inFile id f hf
  refine ⟨shows_of_view (hs.pin_view hf) rfl hin, pinsOn_pinOne_of_entry (fun k => hlook k _) ?_, _,
    (hlook id _).trans (if_pos rfl), Nat.succ_pos _, (page_of_lookup hf).symm⟩
  rw [pinsOn_of_lookup hf]
  rfl

theorem pins_fill (hs : s.Consistent) (hmiss : s.cache.lookup id = none) (hid : 1 ≤ id ∧ id ≤ s.header.pageCount) :
    Pins id s { s with cache := s.cache ++ [(id, ⟨s.file.page id, 1, false⟩)] } := by
  have hlook := lookup_append_entry hmiss ⟨s.file.page id, 1, false⟩
  refine ⟨shows_of_view (hs.fill_view hmiss hid.1) rfl (inFile_of_entry hs hlook fun _ => hid.2),
    pinsOn_pinOne_of_entry hlook ?_, _, (hlook id).trans (if_pos rfl), Nat.one_pos, (page_of_miss hmiss).symm⟩
  rw [pinsOn, hmiss]
  rfl

theorem getPage_post (hs : s.Consistent) (id : Nat) : Post (getPage inTxn id) s
    (fun p s' => Pins id s s' ∧ p = s.page id ∧ 1 ≤ id ∧ id ≤ s.header.pageCount)
    fun e s' => Shows s s' ∧ s'.pinsOn = s.pinsOn ∧
      (1 ≤ id → id ≤ s.header.pageCount → Exhausted e ∧ Crowded s) := by
  unfold getPage
  simp only [post_bind, post_state]
  cases hf : s.cache.lookup id with
  | some f => exact ⟨pins_hit hs hf, (page_of_lookup hf).symm, hs.one_le id f hf, hs.inFile id f hf⟩
  | none =>
      refine (makeRoom_post hs).bind (fun _ s₁ hmade => ?_) ?_
      · obtain ⟨hshows, hpins, hstill⟩ := hmade
        have hmiss := hstill id hf
        by_cases hrange : id < 1 ∨ s₁.storage.header.pageCount < id
        · have hrun : onStorage (Pager.readPage id) s₁ = (.error (.pageOutOfRange ""), s₁) := by
            simp only [onStorage, Pager.readPage, bind_apply, state_apply]
            rw [if_pos hrange]
            rfl
          unfold Post
          rw [bind_of_error hrun]
          refine ⟨hshows, hpins, fun hlo hhi => ?_⟩
          have hcount : s₁.storage.header.pageCount = s.header.pageCount := congrArg FileHeader.pageCount hshows.header
          omega
        · have hrun : onStorage (Pager.readPage id) s₁ = (.ok (s₁.file.page id), s₁) := by
            simp only [onStorage, Pager.readPage, bind_apply, state_apply]
            rw [if_neg hrange]
            rfl
          have hcount : s₁.storage.header.pageCount = s.header.pageCount := congrArg FileHeader.pageCount hshows.header
          have hid : 1 ≤ id ∧ id ≤ s₁.header.pageCount := by
            unfold header
            omega
          have hfill := pins_fill hshows.consistent hmiss hid
          obtain ⟨f, hlook, hpos, hdata⟩ := hfill.frame
          rw [post_bind]
          refine Post.of_eq hrun ⟨⟨hshows.trans hfill.shows, hfill.pins.trans (by rw [hpins]), f, hlook, hpos, ?_⟩, ?_,
            hid.1, ?_⟩
          · exact hdata.trans (hshows.page id hid.1)
          · rw [← hshows.page id hid.1, page_of_miss hmiss]
          · omega
      · rintro e s₁ ⟨rfl, he, hcrowded⟩
        exact ⟨Shows.refl hs, rfl, fun _ _ => ⟨he, hcrowded⟩⟩

/-- A pin is released. -/
theorem unpin_ok (hs : s.Consistent) (hpin : 0 < s.pinsOn id) :
    ∃ s', unpin id s = (.ok (), s') ∧ Shows s s' ∧ pinOne s'.pinsOn id = s.pinsOn := by
  cases hf : s.cache.lookup id with
  | none =>
      rw [pinsOn, hf] at hpin
      exact absurd hpin (lt_irrefl 0)
  | some f =>
      rw [pinsOn_of_lookup hf] at hpin
      have hlook := lookup_modify_entry hf fun f => { f with pinCount := f.pinCount - 1 }
      have hrun : unpin id s =
          (.ok (), { s with cache := s.cache.modify id fun f => { f with pinCount := f.pinCount - 1 } }) := by
        unfold unpin
        rw [bind_of_ok (state_apply s), hf]
        dsimp only
        rw [if_neg hpin.ne']
        rfl
      have hin := inFile_of_entry hs hlook fun _ => hs.inFile id f hf
      refine ⟨_, hrun, shows_of_view (hs.modify_view id (fun _ => rfl) fun _ h => h) rfl hin, ?_⟩
      rw [pinsOn_of_entry hlook]
      funext k
      rw [pinOne]
      split
      · rename_i heq
        rw [heq, pinsOn_of_lookup hf]
        show f.pinCount - 1 + 1 = f.pinCount
        omega
      · rfl

/-! ## Writing -/

/-- A page of the file is journalled without an error. -/
theorem willModify_ok {b : Snapshot} (h : InTxn b s) (hid : 1 ≤ id) : ∃ s', willModify id s = (.ok (), s') := by
  unfold willModify
  rw [bind_of_ok (state_apply s)]
  split
  · exact ⟨s, rfl⟩
  · split
    · exact ⟨_, rfl⟩
    · rename_i hold
      obtain ⟨s₁, hrun, h₁, -, -, -, hsome⟩ := promote_spec h
      have hle : id ≤ b.pageCount := by rw [← h.before]; omega
      have hcount : b.pageCount ≤ s₁.storage.header.pageCount := h₁.count_le
      have hread : onStorage (Pager.readPage id) s₁ = (.ok (s₁.file.page id), s₁) := by
        simp only [onStorage, Pager.readPage, bind_apply, state_apply]
        rw [if_neg (by omega)]
        rfl
      have hjournal := h₁.journal
      unfold JournalState at hjournal
      obtain ⟨⟨nonce, nrec, handle⟩, hsome⟩ := Option.ne_none_iff_exists'.mp hsome
      rw [hsome] at hjournal
      obtain ⟨f, -, hinv⟩ := hjournal
      obtain rfl : handle = .opened := hinv.opened
      have hfits : toBytes4 id = .ok (u32 id) := toBytes4_of_lt (hle.trans_lt h.count_lt)
      rw [bind_of_ok hrun, bind_of_ok hread]
      unfold recordOriginal
      rw [bind_apply, bind_of_ok (state_apply s₁), hsome]
      simp [bind_apply, onStorage, JournalFile.append, hfits, updateTxn]

/-- The capacity is fixed. -/
def SameCapacity (s s' : Machine) : Prop := s'.capacity = s.capacity

instance : Progress SameCapacity where
  refl _ := rfl
  trans h h' := Eq.trans h' h

theorem moves_capacity {α : Type} (m : PagerM α) : Moves SameCapacity (onStorage m) := fun _ => rfl

theorem willModify_capacity (id : Nat) : Moves SameCapacity (willModify id) := by
  have hpromote : Moves SameCapacity promote := by
    refine Moves.state.bind fun s => ?_
    split
    · exact Moves.pure ()
    · have hset : ∀ f, Moves SameCapacity (updateTxn f) := fun f => Moves.update fun _ => rfl
      exact (hset _).bind fun _ => (moves_capacity _).bind fun _ => hset _
  have hrecord : ∀ p, Moves SameCapacity (recordOriginal id p) := by
    refine fun p => Moves.state.bind fun s => ?_
    split
    · exact (moves_capacity _).bind fun _ => Moves.update fun _ => rfl
    · exact Moves.raise _
  refine Moves.state.bind fun s => Moves.ite (Moves.pure ()) (Moves.ite (Moves.update fun _ => rfl) ?_)
  exact hpromote.bind fun _ => (moves_capacity _).bind fun p => (hrecord p).bind fun _ => Moves.update fun _ => rfl

/-- Journalling does not show. -/
theorem noted_post (hs : s.Consistent) (hwired : Wired inTxn s) (id : Nat) :
    Post (if inTxn then willModify id else pure ()) s (fun _ s' => Shows s s' ∧ s'.cache = s.cache)
      fun _ s' => Shows s s' ∧ s'.pinsOn = s.pinsOn ∧ ¬ 1 ≤ id := by
  cases inTxn with
  | false => exact ⟨Shows.refl hs, rfl⟩
  | true =>
      obtain ⟨b, hb⟩ := hwired rfl
      have hmoved := moves_willModify id s
      have hcapacity : (willModify id s).2.capacity = s.capacity := willModify_capacity id s
      have hshows : Shows s (willModify id s).2 := by
        refine shows_of_view (hmoved.sameView hs.toCoherent) hcapacity fun k f hf => ?_
        rw [hmoved.cache] at hf
        exact hs.inFile k f hf
      show Post (willModify id) s _ _
      unfold Post
      rcases hrun : willModify id s with ⟨e | u, s'⟩
      · rw [hrun] at hshows hmoved
        refine ⟨hshows, ?_, fun hid => ?_⟩
        · funext k
          rw [pinsOn, pinsOn, hmoved.cache]
        · obtain ⟨s₁, hok⟩ := willModify_ok hb hid
          rw [hrun] at hok
          cases hok
      · rw [hrun] at hshows hmoved
        exact ⟨hshows, hmoved.cache⟩

theorem pinsOn_of_cache (h : s'.cache = s.cache) : s'.pinsOn = s.pinsOn := by
  funext k
  rw [pinsOn, pinsOn, h]

/-- What a pin for writing leaves. -/
structure PinsDirty (id : Nat) (s s' : Machine) : Prop where
  shows : Shows s s'
  pins : s'.pinsOn = pinOne s.pinsOn id
  frame : ∃ f, s'.cache.lookup id = some f ∧ 0 < f.pinCount ∧ f.dirty = true

/-- Marking a page dirty. -/
theorem Pins.mark (h : Pins id s s') :
    PinsDirty id s { s' with cache := s'.cache.modify id fun f => { f with dirty := true } } := by
  obtain ⟨f, hf, hpos, -⟩ := h.frame
  have hlook := lookup_modify_entry hf fun f => { f with dirty := true }
  have hcons := h.shows.consistent
  have hin := inFile_of_entry hcons hlook fun _ => hcons.inFile id f hf
  refine ⟨h.shows.trans (shows_of_view (hcons.modify_view id (fun _ => rfl) nofun) rfl hin), ?_,
    { f with dirty := true }, (hlook id).trans (if_pos rfl), hpos, rfl⟩
  rw [← h.pins]
  refine pinsOn_eq_of_entry hlook ?_
  rw [pinsOn_of_lookup hf]
  rfl

theorem getPageForWrite_eq (id : Nat) : getPageForWrite inTxn id =
    ((if inTxn then willModify id else pure ()) >>= fun _ => getPage inTxn id >>= fun page =>
      updateCache (fun c => c.modify id fun f => { f with dirty := true }) >>= fun _ => pure page) := by
  cases inTxn <;> rfl

theorem getPageForWrite_post (hs : s.Consistent) (hwired : Wired inTxn s) (id : Nat) :
    Post (getPageForWrite inTxn id) s
      (fun p s' => PinsDirty id s s' ∧ p = s.page id ∧ 1 ≤ id ∧ id ≤ s.header.pageCount)
      fun e s' => Shows s s' ∧ s'.pinsOn = s.pinsOn ∧
        (1 ≤ id → id ≤ s.header.pageCount → Exhausted e ∧ Crowded s) := by
  rw [getPageForWrite_eq]
  refine (noted_post hs hwired id).bind (fun _ s₁ hnoted => ?_) ?_
  · obtain ⟨hshows, hcache⟩ := hnoted
    have hpins := pinsOn_of_cache hcache
    refine (getPage_post hshows.consistent id).bind (fun p s₂ hgot => ?_) ?_
    · obtain ⟨hpin, rfl, hlo, hhi⟩ := hgot
      have hmark := hpin.mark
      rw [hshows.header] at hhi
      exact ⟨⟨hshows.trans hmark.shows, hmark.pins.trans (by rw [hpins]), hmark.frame⟩, hshows.page id hlo, hlo, hhi⟩
    · rintro e s₂ ⟨hview, hsame, hwhy⟩
      refine ⟨hshows.trans hview, hsame.trans hpins, fun hlo hhi => ?_⟩
      obtain ⟨he, hcrowded⟩ := hwhy hlo (by rwa [hshows.header])
      exact ⟨he, hcrowded.congr hshows.capacity.symm hpins.symm⟩
  · rintro e s₁ ⟨hshows, hpins, hid⟩
    exact ⟨hshows, hpins, fun hlo => absurd hlo hid⟩

/-- Writing into a page that is pinned for writing. -/
theorem mutate_ok (hs : s.Consistent) {f : Frame} (hf : s.cache.lookup id = some f) (hpin : 0 < f.pinCount)
    (hdirty : f.dirty = true) (p : Page) :
    ∃ s', mutate id p s = (.ok (), s') ∧ ShowsBut id s s' ∧ s'.page id = p ∧ s'.pinsOn = s.pinsOn := by
  have hrun := mutate_of_pinned hf hpin hdirty p
  have hview := mutate_view hs.toCoherent id p
  have hlook := lookup_modify_entry hf fun f => { f with data := p }
  have hin := inFile_of_entry hs hlook fun _ => hs.inFile id f hf
  rw [hrun] at hview
  refine ⟨_, hrun, ⟨⟨hview.coherent, hin⟩, rfl, rfl, fun k _ hne => hview.page k hne⟩, ?_, ?_⟩
  · exact @page_of_lookup _ id { f with data := p } ((hlook id).trans (if_pos rfl))
  · refine pinsOn_eq_of_entry hlook ?_
    rw [pinsOn_of_lookup hf]
    rfl

/-- Dropping what nobody has pinned. -/
theorem discard_post (hs : s.Consistent) (id : Nat) : Post (Machine.discard id) s
    (fun _ s' => ShowsBut id s s' ∧ s'.pinsOn = s.pinsOn) fun _ s' => s' = s ∧ 0 < s.pinsOn id := by
  have hview := discard_view hs.toCoherent id
  unfold Machine.discard at hview ⊢
  rw [bind_of_ok (state_apply s)] at hview
  simp only [post_bind, post_state]
  cases hf : s.cache.lookup id with
  | none => exact ⟨(Shows.refl hs).but id, rfl⟩
  | some f =>
      rw [hf] at hview
      dsimp only at hview ⊢
      split
      · rename_i hpos
        refine ⟨rfl, ?_⟩
        show 0 < s.pinsOn id
        rwa [pinsOn_of_lookup hf]
      · rename_i hpin
        rw [if_neg hpin] at hview
        have hlook := Dict.lookup_erase s.cache id
        have hin := inFile_of_entry hs hlook fun hsome => absurd rfl hsome
        refine ⟨⟨⟨hview.coherent, hin⟩, rfl, rfl, fun k _ hne => hview.page k hne⟩, pinsOn_eq_of_entry hlook ?_⟩
        rw [pinsOn_of_lookup hf]
        exact (Nat.eq_zero_of_not_pos hpin).symm

/-! ## Allocating and freeing -/

theorem pinOne_inj {pins pins' : Nat → Nat} (h : pinOne pins id = pinOne pins' id) : pins = pins' := by
  funext k
  have hk := congrFun h k
  unfold pinOne at hk
  split at hk
  · exact Nat.succ.inj hk
  · exact hk

/-- What an allocation that returned did. -/
structure Allocation (s : Machine) (id : Nat) (s' : Machine) : Prop where
  consistent : s'.Consistent
  capacity : s'.capacity = s.capacity
  pins : s'.pinsOn = s.pinsOn
  page : ∀ k, 1 ≤ k → k ≠ id → s'.page k = s.page k
  source : (0 < s.header.freelistCount ∧ id = s.header.freelistTrunk ∧ s'.header = popped s.header (s.page id)) ∨
    (s.header.freelistCount = 0 ∧ id = s.header.pageCount + 1 ∧ s'.header = grown s.header)

theorem consistent_withHeader (hs : s.Consistent) {h : FileHeader} (hcount : h.pageCount = s.header.pageCount) :
    Consistent { s with storage := { s.storage with header := h } } := by
  refine ⟨hs.toCoherent.withHeader h, fun k f hf => ?_⟩
  show k ≤ h.pageCount
  rw [hcount]
  exact hs.inFile k f hf

theorem allocatePage_post (hs : s.Consistent) (hwired : Wired inTxn s) :
    Post (allocatePage inTxn) s (fun id s' => Allocation s id s') fun e s' => Shows s s' ∧
      ((0 < s.header.freelistCount → 1 ≤ s.header.freelistTrunk ∧ s.header.freelistTrunk ≤ s.header.pageCount) →
        Exhausted e ∧ Crowded s) := by
  unfold allocatePage
  simp only [post_bind, post_state]
  split
  · rename_i hcount
    simp only [post_bind]
    refine (getPageForWrite_post hs hwired _).mono (fun p s₁ hgot => ?_) ?_
    · obtain ⟨hpin, rfl, hlo, hhi⟩ := hgot
      rw [post_setHeader]
      have hview := hpin.shows
      have hcons := @consistent_withHeader _ hview.consistent
        (popped s₁.header (s.page s.header.freelistTrunk)) rfl
      obtain ⟨s₂, hrun, hshows, hpins⟩ := @unpin_ok _ s.header.freelistTrunk hcons (by
        show 0 < s₁.pinsOn s.header.freelistTrunk
        rw [hpin.pins, pinOne, if_pos rfl]
        exact Nat.succ_pos _)
      refine Post.of_eq hrun ⟨hshows.consistent, hshows.capacity.trans hview.capacity,
        pinOne_inj (hpins.trans hpin.pins), fun k hk _ => (hshows.page k hk).trans (hview.page k hk),
        .inl ⟨hcount, rfl, ?_⟩⟩
      rw [hshows.header, ← hview.header]
      rfl
    · rintro e s₁ ⟨hshows, -, hwhy⟩
      exact ⟨hshows, fun hrange => hwhy (hrange hcount).1 (hrange hcount).2⟩
  · rename_i hcount
    simp only [post_bind, post_setHeader]
    have hlook := Dict.lookup_put s.cache (s.header.pageCount + 1)
    have hmiss : s.cache.lookup (s.header.pageCount + 1) = none := by
      cases hf : s.cache.lookup (s.header.pageCount + 1) with
      | none => rfl
      | some f => exact absurd (hs.inFile _ f hf) (Nat.not_succ_le_self _)
    have hcases : ∀ k f, (s.cache.put (s.header.pageCount + 1) ⟨Page.zero, 0, true⟩).lookup k = some f →
        k = s.header.pageCount + 1 ∧ f.dirty = true ∨ s.cache.lookup k = some f := by
      intro k f hf
      rw [hlook] at hf
      split at hf
      · rename_i heq
        exact .inl ⟨heq, (congrArg Frame.dirty (Option.some.inj hf)).symm⟩
      · exact .inr hf
    refine ⟨⟨⟨Dict.nodup_put hs.keys _ _, fun k f hf => ?_, fun k f hf hclean => ?_⟩, fun k f hf => ?_⟩, rfl, ?_,
      fun k _ hne => page_with_cache ((hlook k _).trans (if_neg hne)),
      .inr ⟨Nat.eq_zero_of_not_pos hcount, rfl, rfl⟩⟩
    · rcases hcases k f hf with ⟨rfl, -⟩ | hold
      · exact Nat.succ_pos _
      · exact hs.one_le k f hold
    · rcases hcases k f hf with ⟨-, hdirty⟩ | hold
      · rw [hdirty] at hclean
        cases hclean
      · exact hs.clean k f hold hclean
    · show k ≤ s.header.pageCount + 1
      rcases hcases k f hf with ⟨rfl, -⟩ | hold
      · exact le_rfl
      · exact (hs.inFile k f hold).trans (Nat.le_succ _)
    · have hfree : (0 : Nat) = s.pinsOn (s.header.pageCount + 1) := by
        rw [pinsOn, hmiss]
        rfl
      exact pinsOn_eq_of_entry (fun k => hlook k _) hfree

/-- What freeing a page did, when it returned. -/
structure Release (id : Nat) (s s' : Machine) : Prop where
  consistent : s'.Consistent
  capacity : s'.capacity = s.capacity
  pins : s'.pinsOn = s.pinsOn
  range : 2 ≤ id ∧ id ≤ s.header.pageCount
  trunk_lt : s.header.freelistTrunk < 2 ^ 32
  header : s'.header = pushed s.header id
  freed : s'.page id = freePageImage s.header.freelistTrunk
  page : ∀ k, 1 ≤ k → k ≠ id → s'.page k = s.page k

theorem freePage_post (hs : s.Consistent) (hwired : Wired inTxn s) (id : Nat) :
    Post (freePage inTxn id) s (fun _ s' => Release id s s') fun e s' => ShowsBut id s s' ∧
      (2 ≤ id → id ≤ s.header.pageCount → s.pinsOn id = 0 → s.header.freelistTrunk < 2 ^ 32 →
        Exhausted e ∧ Crowded s) := by
  unfold freePage
  simp only [post_bind, post_state]
  split
  · rename_i hone
    refine ⟨(Shows.refl hs).but id, fun htwo => ?_⟩
    omega
  · rename_i hone
    split
    · rename_i hcount
      refine ⟨(Shows.refl hs).but id, fun _ hle => ?_⟩
      omega
    · rename_i hcount
      have hdiscard := (discard_post hs id).and (post_of_keeps (wired_discard id) hwired)
      refine hdiscard.bind (fun _ s₁ hgone => ?_) ?_
      · obtain ⟨⟨hdrop, hpins₁⟩, hwired₁⟩ := hgone
        refine (getPageForWrite_post hdrop.consistent hwired₁ id).bind (fun p s₂ hgot => ?_) ?_
        · obtain ⟨hpin, -, hlo, -⟩ := hgot
          obtain ⟨f, hf, hpos, hdirty⟩ := hpin.frame
          have hsame := hdrop.trans (hpin.shows.but id)
          refine (post_bind _ _).mpr (post_lift.mpr ⟨fun _ hfits => ?_, fun e hraise =>
            ⟨hsame, fun _ _ _ hlt => ?_⟩⟩)
          · obtain ⟨htrunk, -⟩ := toBytes4_eq_ok hfits
            obtain ⟨s₃, hwrite, hwritten, hpage, hpins₃⟩ := mutate_ok hpin.shows.consistent hf hpos hdirty
              (freePageImage s.header.freelistTrunk)
            obtain ⟨s₄, hrun, hshows, hpins₄⟩ := @unpin_ok s₃ id hwritten.consistent (by
              rw [hpins₃, hpin.pins, pinOne, if_pos rfl]
              exact Nat.succ_pos _)
            rw [post_bind]
            refine Post.of_eq hwrite ?_
            rw [post_bind]
            refine Post.of_eq hrun ?_
            have hlast := (hsame.trans hwritten).trans (hshows.but id)
            refine ⟨consistent_withHeader hlast.consistent rfl, hlast.capacity, ?_, by omega, htrunk,
              congrArg (fun h => pushed h id) hlast.header, (hshows.page id hlo).trans hpage, hlast.page⟩
            exact (pinOne_inj (hpins₄.trans (hpins₃.trans hpin.pins))).trans hpins₁
          · rw [toBytes4_of_lt hlt] at hraise
            cases hraise
        · rintro e s₂ ⟨hshows, -, hwhy⟩
          refine ⟨hdrop.trans (hshows.but id), fun htwo hle _ _ => ?_⟩
          obtain ⟨he, hcrowded⟩ := hwhy (by omega) (by rwa [hdrop.header])
          exact ⟨he, hcrowded.congr hdrop.capacity.symm hpins₁.symm⟩
      · rintro e s₁ ⟨⟨rfl, hpinned⟩, -⟩
        exact ⟨(Shows.refl hs).but id, fun _ _ hfree _ => absurd hpinned (by rw [hfree]; exact lt_irrefl 0)⟩

end BufferPool

end QuillDb
