/-
  BTree/OverflowChain.lean --- overflow chains, from the allocation of their pages to
  the return of them.

  Source: `quilldb/storage/overflow.py`.

  `math.ceil(len(data) / CONTENT_PER_PAGE)` is exact as long as a page number has four
  bytes.  The two walks keep the pages they have visited, so that neither takes more
  turns than the file has pages: `out` is what lies behind the last turn, and
  `readChainFrom_enough` and `freeChainFrom_enough` say that it is never reached.
-/
import QuillDb.BTree.PageHeap
import QuillDb.BTree.Validate
import QuillDb.Txn.BufferPool

set_option autoImplicit false

namespace QuillDb

open Prog Machine

namespace Overflow

open PageStore (contentPerPage chainLength)
open BufferPool (Wired Ready Shows ShowsBut Crowded Exhausted Allocation Release)

section Operations

variable (inTxn : Bool)

/-- The first pass of `write_overflow_chain`. -/
def allocatePages : Nat → MachineM (List Nat)
  | 0 => return []
  | n + 1 => do
      let id ← BufferPool.allocatePage inTxn
      let ids ← allocatePages n
      return id :: ids

/-- The second pass: every page names the next one and takes its chunk. -/
def writePages : List Nat → Bytes → MachineM Unit
  | [], _ => return ()
  | id :: ids, data => do
      let raw ← BufferPool.getPageForWrite inTxn id
      let next ← lift (toBytes4 (ids.headD 0))
      mutate id (raw.overwrite (next ++ data.take contentPerPage))
      unpin id
      writePages ids (data.drop contentPerPage)

/-- `write_overflow_chain`. -/
def writeOverflowChain (data : Bytes) : MachineM Nat := do
  if data = [] then raise (.valueError "cannot write an overflow chain for empty data")
  else do
    let ids ← allocatePages inTxn (chainLength data.length)
    writePages inTxn ids data
    return ids.headD 0

/-- The loop of `free_overflow_chain`. -/
def freeChainFrom (out : Nat → MachineM Unit) : Nat → List Nat → Nat → MachineM Unit
  | 0, _, current => out current
  | fuel + 1, visited, current =>
      if current = 0 then return ()
      else if current ∈ visited then looped current
      else do
        let raw ← BufferPool.getPage inTxn current
        let nextPage := fromBytes (slice raw.bytes 0 4)
        unpin current
        BufferPool.freePage inTxn current
        freeChainFrom out fuel (current :: visited) nextPage

/-- `free_overflow_chain`. -/
def freeOverflowChain (firstPage : Nat) : MachineM Unit := do
  let s ← state
  freeChainFrom inTxn looped (s.header.pageCount + 1) [] firstPage

end Operations

/-! ## What a pool holds -/

variable {inTxn : Bool} {s s' s'' : Machine} {id n fuel fuel' : Nat} {ids free visited : List Nat} {data : Bytes}

/-- Nothing has changed that a caller sees. -/
structure Silent (inTxn : Bool) (s s' : Machine) : Prop where
  ready : Ready inTxn s'
  shows : Shows s s'
  pins : s'.pinsOn = s.pinsOn

/-- Each page names the next one and holds its part of the data. -/
def Linked (s : Machine) : List Nat → Bytes → Prop
  | [], data => data = []
  | id :: ids, data =>
      fromBytes (slice (s.page id).bytes 0 4) = ids.headD 0 ∧
        slice (s.page id).bytes 4 (min contentPerPage data.length) = data.take contentPerPage ∧
        Linked s ids (data.drop contentPerPage)

/-- A chain of pages of the file, without a cycle. -/
structure OnChain (s : Machine) (ids : List Nat) (data : Bytes) : Prop where
  linked : Linked s ids data
  nodup : ids.Nodup
  inFile : ∀ id ∈ ids, 2 ≤ id ∧ id ≤ s.header.pageCount

/-- A freelist of the one-level form: no trunk lists a leaf. -/
structure BareFreelist (s : Machine) (free : List Nat) : Prop where
  valid : ValidFreelist s free
  bare : ∀ id ∈ free, (trunkNode (s.page id)).leaves = []

/-- Every page of the file but those given is as before. -/
def OnlyTouches (touched : Nat → Prop) (s s' : Machine) : Prop :=
  ∀ k, 1 ≤ k → k ≤ s.header.pageCount → ¬ touched k → s'.page k = s.page k

theorem Silent.refl (h : Ready inTxn s) : Silent inTxn s s := ⟨h, .refl h.consistent, rfl⟩

theorem Silent.trans (h : Silent inTxn s s') (h' : Silent inTxn s' s'') : Silent inTxn s s'' :=
  ⟨h'.ready, h.shows.trans h'.shows, h'.pins.trans h.pins⟩

theorem Silent.pageCount (h : Silent inTxn s s') : s'.header.pageCount = s.header.pageCount :=
  congrArg FileHeader.pageCount h.shows.header

/-- A pool is as crowded as one that shows the same. -/
theorem Silent.crowded (h : Silent inTxn s s') (hcrowded : Crowded s') : Crowded s :=
  hcrowded.congr h.shows.capacity.symm h.pins.symm

theorem OnlyTouches.of_shows {touched : Nat → Prop} (h : Shows s s') : OnlyTouches touched s s' :=
  fun k hk _ _ => h.page k hk

theorem OnlyTouches.of_showsBut (h : ShowsBut id s s') (hid : id ∈ ids) : OnlyTouches (· ∈ ids) s s' :=
  fun k hk _ hkids => h.page k hk fun heq => hkids (heq ▸ hid)

/-- What is touched later is a page of the file that may be touched, or a new page. -/
theorem OnlyTouches.trans {touched touched' : Nat → Prop} (h : OnlyTouches touched s s')
    (h' : OnlyTouches touched' s' s'') (hcount : s.header.pageCount ≤ s'.header.pageCount)
    (hsub : ∀ k, 1 ≤ k → k ≤ s.header.pageCount → touched' k → touched k) : OnlyTouches touched s s'' :=
  fun k hk hle hkept => (h' k hk (hle.trans hcount) fun hmem => hkept (hsub k hk hle hmem)).trans (h k hk hle hkept)

/-- Going on behind the first of some pages that are all new. -/
theorem notMem_cons_of_nodup {old : List Nat} (hnodup : (id :: ids).Nodup) (hnew : ∀ k ∈ id :: ids, k ∉ old) :
    ∀ k ∈ ids, k ∉ id :: old := by
  intro k hk hmem
  rcases List.mem_cons.mp hmem with rfl | hmem
  · exact (List.nodup_cons.mp hnodup).1 hk
  · exact hnew k (List.mem_cons_of_mem _ hk) hmem

theorem Linked.congr (h : Linked s ids data) (hpage : ∀ id ∈ ids, s'.page id = s.page id) :
    Linked s' ids data := by
  induction ids generalizing data with
  | nil => exact h
  | cons id ids ih =>
      obtain ⟨hnext, hchunk, hrest⟩ := h
      unfold Linked
      rw [hpage id (List.mem_cons_self ..)]
      exact ⟨hnext, hchunk, ih hrest fun k hk => hpage k (List.mem_cons_of_mem _ hk)⟩

theorem OnChain.congr (h : OnChain s ids data) (hcount : s'.header.pageCount = s.header.pageCount)
    (hpage : ∀ id ∈ ids, s'.page id = s.page id) : OnChain s' ids data where
  linked := h.linked.congr hpage
  nodup := h.nodup
  inFile := by
    rw [hcount]
    exact h.inFile

theorem OnChain.silent (h : OnChain s ids data) (hsame : Silent inTxn s s') : OnChain s' ids data := by
  refine h.congr hsame.pageCount fun id hid => hsame.shows.page id ?_
  have := (h.inFile id hid).1
  omega

/-- What is behind the first page. -/
theorem OnChain.tail (h : OnChain s (id :: ids) data) : OnChain s ids (data.drop contentPerPage) where
  linked := h.linked.2.2
  nodup := h.nodup.of_cons
  inFile := fun k hk => h.inFile k (List.mem_cons_of_mem _ hk)

/-- A chain has no more pages than the file. -/
theorem OnChain.length_le (h : OnChain s ids data) : ids.length ≤ s.header.pageCount := by
  refine Slotted.Visits.length_le ⟨h.nodup, fun id hid => ?_⟩
  have := h.inFile id hid
  omega

theorem BareFreelist.congr (h : BareFreelist s free) (hheader : s'.header = s.header)
    (hpage : ∀ id ∈ free, s'.page id = s.page id) : BareFreelist s' free where
  valid := h.valid.congr hheader hpage
  bare := by
    intro id hid
    rw [hpage id hid]
    exact h.bare id hid

theorem BareFreelist.silent (h : BareFreelist s free) (hsame : Silent inTxn s s') : BareFreelist s' free := by
  refine h.congr hsame.shows.header fun id hid => hsame.shows.page id ?_
  have := (h.valid.inFile id hid).1
  omega

/-- The head trunk is page 0 or a page of the file. -/
theorem BareFreelist.trunk_le (h : BareFreelist s free) : s.header.freelistTrunk ≤ s.header.pageCount := by
  cases hfree : free with
  | nil =>
      have hzero := h.valid.chain.eq_nil_iff.mp hfree
      rw [hzero]
      exact Nat.zero_le _
  | cons a rest =>
      have hcount : 0 < s.header.freelistCount := by
        rw [h.valid.count, hfree]
        exact Nat.succ_pos _
      obtain ⟨rest, hcons, -⟩ := h.valid.uncons hcount
      exact (h.valid.inFile _ (hcons ▸ List.mem_cons_self ..)).2

/-! ## Reading -/

/-- A page is read under a pin, which is released: the rest goes on with the page, or the
page could not be had. -/
theorem fetch_cases (hs : Ready inTxn s) (id : Nat) :
    (∃ s', (1 ≤ id ∧ id ≤ s.header.pageCount) ∧ Silent inTxn s s' ∧ ∀ {α : Type} (rest : Page → MachineM α),
        (BufferPool.getPage inTxn id >>= fun raw => unpin id >>= fun _ => rest raw) s = rest (s.page id) s') ∨
      ∃ e s', (1 ≤ id → id ≤ s.header.pageCount → Exhausted e ∧ Crowded s) ∧ Silent inTxn s s' ∧
        ∀ {α : Type} (rest : Page → MachineM α),
          (BufferPool.getPage inTxn id >>= fun raw => unpin id >>= fun _ => rest raw) s = (.error e, s') := by
  have hget := (BufferPool.getPage_post hs.consistent id).and
    (BufferPool.post_of_keeps (BufferPool.wired_getPage id) hs.wired)
  rcases hrun : BufferPool.getPage inTxn id s with ⟨e | raw, s₁⟩
  · obtain ⟨⟨hshows, hpins, hwhy⟩, hwired⟩ := hget.error hrun
    exact .inr ⟨e, s₁, hwhy, ⟨⟨hshows.consistent, hwired⟩, hshows, hpins⟩, fun _ => bind_of_error hrun⟩
  · obtain ⟨⟨hpin, rfl, hrange⟩, hwired⟩ := hget.ok hrun
    have hpos : 0 < s₁.pinsOn id := by
      rw [hpin.pins, BufferPool.pinOne, if_pos rfl]
      exact Nat.succ_pos _
    obtain ⟨s₂, hunpin, hshows, hpins⟩ := BufferPool.unpin_ok hpin.shows.consistent hpos
    have hwired₂ : Wired inTxn s₂ := Triple.ok (BufferPool.wired_unpin id) hwired hunpin
    refine .inl ⟨s₂, hrange, ⟨⟨hshows.consistent, hwired₂⟩, hpin.shows.trans hshows, ?_⟩, fun rest => ?_⟩
    · exact BufferPool.pinOne_inj (hpins.trans hpin.pins)
    · rw [bind_of_ok hrun, bind_of_ok hunpin]

theorem readChainFrom_post {out : Nat → MachineM Bytes} (hs : Ready inTxn s) (h : OnChain s ids data)
    (hnew : ∀ id ∈ ids, id ∉ visited) (hfuel : ids.length < fuel) :
    Post (readChainFrom inTxn out fuel visited (ids.headD 0) data.length) s
      (fun bytes s' => bytes = data ∧ Silent inTxn s s')
      fun e s' => Silent inTxn s s' ∧ Exhausted e ∧ Crowded s := by
  induction ids generalizing s data visited fuel with
  | nil =>
      obtain ⟨fuel, rfl⟩ := Nat.exists_eq_succ_of_ne_zero (Nat.ne_zero_of_lt hfuel)
      obtain rfl : data = [] := h.linked
      exact ⟨rfl, Silent.refl hs⟩
  | cons id ids ih =>
      obtain ⟨fuel, rfl⟩ := Nat.exists_eq_succ_of_ne_zero (Nat.ne_zero_of_lt hfuel)
      obtain ⟨hlo, hhi⟩ := h.inFile id (List.mem_cons_self ..)
      obtain ⟨hnext, hchunk, -⟩ := h.linked
      rw [readChainFrom, List.headD_cons, if_neg (by omega), if_neg (hnew id (List.mem_cons_self ..))]
      rcases fetch_cases hs id with ⟨s₁, -, hquiet, hrun⟩ | ⟨e, s₁, hwhy, hquiet, hrun⟩
      · refine Post.of_run_eq (hrun _) ?_
        have hlen : data.length - min contentPerPage data.length = (data.drop contentPerPage).length := by
          rw [List.length_drop]
          omega
        rw [hnext, hchunk, hlen]
        have hfresh := notMem_cons_of_nodup h.nodup hnew
        refine (ih hquiet.ready (h.tail.silent hquiet) hfresh (Nat.lt_of_succ_lt_succ hfuel)).bind
          (fun rest s₂ hrest => ?_) ?_
        · obtain ⟨rfl, hquiet₂⟩ := hrest
          exact ⟨List.take_append_drop _ _, hquiet.trans hquiet₂⟩
        · rintro e s₂ ⟨hquiet₂, he, hcrowded⟩
          exact ⟨hquiet.trans hquiet₂, he, hquiet.crowded hcrowded⟩
      · unfold Post
        rw [hrun]
        exact ⟨hquiet, hwhy (by omega) hhi⟩

/-- What was written is read, and nothing changes. -/
theorem readOverflowChain_post (hs : Ready inTxn s) (h : OnChain s ids data) :
    Post (readOverflowChain inTxn (ids.headD 0) data.length) s (fun bytes s' => bytes = data ∧ Silent inTxn s s')
      fun e s' => Silent inTxn s s' ∧ Exhausted e ∧ Crowded s :=
  readChainFrom_post hs h (fun _ _ => List.not_mem_nil) (Nat.lt_succ_of_le h.length_le)

/-- The pages read so far are pages of the file. -/
theorem Silent.visits (hquiet : Silent inTxn s s') (hv : Slotted.Visits s visited) : Slotted.Visits s' visited where
  nodup := hv.nodup
  inFile := by
    rw [hquiet.pageCount]
    exact hv.inFile

/-- However the pages are linked, the loop ends before it runs out of turns. -/
theorem readChainFrom_enough {out out' : Nat → MachineM Bytes} (hs : Ready inTxn s) (hv : Slotted.Visits s visited)
    (current remaining : Nat) (hfuel : s.header.pageCount < visited.length + fuel)
    (hfuel' : s.header.pageCount < visited.length + fuel') :
    readChainFrom inTxn out fuel visited current remaining s =
      readChainFrom inTxn out' fuel' visited current remaining s := by
  induction fuel generalizing s visited current remaining fuel' with
  | zero =>
      have := hv.length_le
      omega
  | succ fuel ih =>
      cases fuel' with
      | zero =>
          have := hv.length_le
          omega
      | succ fuel' =>
          rw [readChainFrom, readChainFrom]
          split
          · rfl
          · split
            · rfl
            · rename_i hnew
              rcases fetch_cases hs current with ⟨s₁, hrange, hquiet, hrun⟩ | ⟨e, s₁, -, -, hrun⟩
              · refine (hrun _).trans (Eq.trans ?_ (hrun _).symm)
                have hvisits := hquiet.visits (hv.cons hnew hrange)
                refine bind_run_eq (ih hquiet.ready hvisits _ _ ?_ ?_) _
                · rw [hquiet.pageCount, List.length_cons]
                  omega
                · rw [hquiet.pageCount, List.length_cons]
                  omega
              · exact (hrun _).trans (hrun _).symm

/-! ## Writing -/

/-- The next `n` pages that an allocator hands out. -/
def nextPages (s : Machine) (free : List Nat) (n : Nat) : List Nat :=
  free.take n ++ List.range' (s.header.pageCount + 1) (n - free.length)

theorem length_nextPages : (nextPages s free n).length = n := by
  rw [nextPages, List.length_append, List.length_take, List.length_range']
  omega

theorem mem_nextPages (h : id ∈ nextPages s free n) :
    id ∈ free.take n ∨ s.header.pageCount < id ∧ id ≤ s.header.pageCount + (n - free.length) := by
  rcases List.mem_append.mp h with hmem | hmem
  · exact .inl hmem
  · rw [List.mem_range'_1] at hmem
    omega

theorem nodup_nextPages (h : ValidFreelist s free) : (nextPages s free n).Nodup := by
  refine (h.nodup.sublist (List.take_sublist n free)).append List.nodup_range' fun id hold hnew => ?_
  have hle := (h.inFile id (List.mem_of_mem_take hold)).2
  rw [List.mem_range'_1] at hnew
  omega

theorem nextPages_succ (hcount : s'.header.pageCount = s.header.pageCount + (1 - free.length)) :
    nextPages s free (n + 1) = free.headD (s.header.pageCount + 1) :: nextPages s' free.tail n := by
  rw [nextPages, nextPages, hcount]
  cases free with
  | nil =>
      rw [List.take_nil, List.nil_append, List.headD_nil, List.tail_nil, List.take_nil, List.nil_append]
      exact List.range'_succ
  | cons a rest =>
      rw [List.headD_cons, List.tail_cons, List.take_succ_cons, List.cons_append, List.length_cons,
        Nat.add_sub_add_right, Nat.sub_eq_zero_of_le (Nat.le_add_left ..), Nat.add_zero]

/-- None of them is in use. -/
theorem not_inUse_of_nextPages (h : id ∈ nextPages s free n) : ¬ InUse s free id := by
  rintro ⟨-, hle, hfree⟩
  rcases mem_nextPages h with hmem | hnew
  · exact hfree (List.mem_of_mem_take hmem)
  · omega

theorem nextPages_inFile (h : ValidFreelist s free) (hone : 1 ≤ s.header.pageCount)
    (hid : id ∈ nextPages s free n) : 2 ≤ id ∧ id ≤ s.header.pageCount + (n - free.length) := by
  rcases mem_nextPages hid with hmem | hnew
  · have := h.inFile id (List.mem_of_mem_take hmem)
    omega
  · omega

/-- The rest of the freelist is not among them. -/
theorem not_mem_nextPages (h : ValidFreelist s free) (hid : id ∈ free.drop n) : id ∉ nextPages s free n := by
  intro hmem
  rcases mem_nextPages hmem with htake | hnew
  · have hnodup : (free.take n ++ free.drop n).Nodup := by
      rw [List.take_append_drop]
      exact h.nodup
    exact List.disjoint_of_nodup_append hnodup htake hid
  · have := (h.inFile id (List.mem_of_mem_drop hid)).2
    omega

/-- One allocation takes the first page of a bare freelist, or a new page. -/
theorem bareFreelist_of_allocation (ha : Allocation s id s') (h : BareFreelist s free) :
    id = free.headD (s.header.pageCount + 1) ∧ BareFreelist s' free.tail ∧
      s'.header.pageCount = s.header.pageCount + (1 - free.length) := by
  have hlength := h.valid.count
  rcases ha.source with ⟨hcount, hid, hheader⟩ | ⟨hcount, hid, hheader⟩
  · obtain ⟨rest, hfree, hrest⟩ := h.valid.uncons hcount
    have hleaves := h.bare s.header.freelistTrunk (hfree ▸ List.mem_cons_self ..)
    rw [hleaves, List.nil_append, ← hid] at hfree
    rw [← hid] at hrest
    subst hfree
    have hnodup := List.nodup_cons.mp h.valid.nodup
    have hpage : ∀ k ∈ rest, s'.page k = s.page k := by
      intro k hk
      have hlo := (h.valid.inFile k (List.mem_cons_of_mem _ hk)).1
      exact ha.page k (by omega) fun heq => hnodup.1 (heq ▸ hk)
    refine ⟨rfl, ⟨⟨?_, hnodup.2, fun k hk => ?_, ?_⟩, fun k hk => ?_⟩, ?_⟩
    · rw [hheader]
      exact hrest.congr fun k hk => congrArg trunkNode (hpage k hk)
    · rw [hheader]
      exact h.valid.inFile k (List.mem_cons_of_mem _ hk)
    · rw [hheader]
      show s.header.freelistCount - 1 = rest.length
      rw [hlength, List.length_cons, Nat.add_sub_cancel]
    · have hk : k ∈ rest := hk
      rw [hpage k hk]
      exact h.bare k (List.mem_cons_of_mem _ hk)
    · rw [hheader, List.length_cons]
      show s.header.pageCount = _
      omega
  · obtain rfl : free = [] := List.length_eq_zero_iff.mp (hlength.symm.trans hcount)
    have htrunk := h.valid.chain.eq_nil_iff.mp rfl
    refine ⟨hid, ⟨⟨?_, .nil, List.forall_mem_nil _, ?_⟩, List.forall_mem_nil _⟩, ?_⟩
    · rw [hheader]
      show FreeChain.Chain _ 0 s.header.freelistTrunk []
      rw [htrunk]
      exact .nil
    · rw [hheader]
      exact hcount
    · rw [hheader]
      rfl

/-- What the first pass leaves. -/
structure Reserved (inTxn : Bool) (s : Machine) (free : List Nat) (n : Nat) (s' : Machine) : Prop where
  ready : Ready inTxn s'
  capacity : s'.capacity = s.capacity
  pins : s'.pinsOn = s.pinsOn
  freelist : BareFreelist s' (free.drop n)
  pageCount : s'.header.pageCount = s.header.pageCount + (n - free.length)
  others : OnlyTouches (· ∈ free) s s'

theorem allocatePage_ready (hs : Ready inTxn s) :
    Post (BufferPool.allocatePage inTxn) s (fun id s' => Allocation s id s' ∧ Ready inTxn s') fun e s' =>
      Shows s s' ∧ ((0 < s.header.freelistCount →
        1 ≤ s.header.freelistTrunk ∧ s.header.freelistTrunk ≤ s.header.pageCount) → Exhausted e ∧ Crowded s) := by
  have hwired := BufferPool.post_of_keeps BufferPool.wired_allocatePage hs.wired
  refine ((BufferPool.allocatePage_post hs.consistent hs.wired).and hwired).mono ?_ fun _ _ h => h.1
  rintro id s' ⟨ha, hw⟩
  exact ⟨ha, ha.consistent, hw⟩

theorem allocatePages_post (hs : Ready inTxn s) (h : BareFreelist s free) :
    Post (allocatePages inTxn n) s (fun ids s' => ids = nextPages s free n ∧ Reserved inTxn s free n s')
      fun e s' => OnlyTouches (· ∈ free) s s' ∧ Exhausted e ∧ Crowded s := by
  induction n generalizing s free with
  | zero =>
      refine ⟨?_, hs, rfl, rfl, h, ?_, fun _ _ _ _ => rfl⟩
      · rw [nextPages, Nat.zero_sub]
        rfl
      · rw [Nat.zero_sub]
        rfl
  | succ n ih =>
      rw [allocatePages]
      refine (allocatePage_ready hs).bind (fun id s₁ halloc => ?_) ?_
      · obtain ⟨ha, hs₁⟩ := halloc
        obtain ⟨hid, hfree₁, hcount₁⟩ := bareFreelist_of_allocation ha h
        have hothers : OnlyTouches (· ∈ free) s s₁ := by
          intro k hk hle hkfree
          refine ha.page k hk fun heq => ?_
          subst heq
          cases free with
          | nil =>
              rw [List.headD_nil] at hid
              omega
          | cons a rest => exact hkfree (hid ▸ List.mem_cons_self ..)
        have hlater : ∀ s₂, OnlyTouches (· ∈ free.tail) s₁ s₂ → OnlyTouches (· ∈ free) s s₂ := fun s₂ h₂ =>
          hothers.trans h₂ (hcount₁ ▸ Nat.le_add_right ..) fun k _ _ hmem => List.mem_of_mem_tail hmem
        refine (ih hs₁ hfree₁).bind (fun ids s₂ hrest => ?_) ?_
        · obtain ⟨rfl, hres⟩ := hrest
          have hlen : (1 - free.length) + (n - free.tail.length) = n + 1 - free.length := by
            rw [List.length_tail]
            omega
          refine ⟨?_, hres.ready, hres.capacity.trans ha.capacity, hres.pins.trans ha.pins, ?_, ?_, hlater s₂ hres.others⟩
          · rw [hid, nextPages_succ hcount₁]
          · rw [← List.drop_tail]
            exact hres.freelist
          · rw [hres.pageCount, hcount₁, Nat.add_assoc, hlen]
        · rintro e s₂ ⟨hothers₂, he, hcrowded⟩
          exact ⟨hlater s₂ hothers₂, he, hcrowded.congr ha.capacity.symm ha.pins.symm⟩
      · rintro e s₁ ⟨hshows, hwhy⟩
        refine ⟨.of_shows hshows, hwhy fun hcount => ?_⟩
        obtain ⟨rest, hcons, -⟩ := h.valid.uncons hcount
        have := h.valid.inFile _ (hcons ▸ List.mem_cons_self ..)
        omega

/-- A page once its pointer and its chunk are written over what it held. -/
theorem slice_overwrite (p : Page) {next : Nat} {chunk : Bytes} (hchunk : chunk.length ≤ contentPerPage) :
    slice (p.overwrite (u32 next ++ chunk)).bytes 0 4 = u32 next ∧
      slice (p.overwrite (u32 next ++ chunk)).bytes 4 chunk.length = chunk := by
  have hlen : (u32 next ++ chunk).length = 4 + chunk.length := by
    rw [List.length_append, u32_length]
  have hfits : (u32 next ++ chunk).length ≤ pageSize := by
    rw [hlen]
    exact (Nat.add_le_add_left hchunk 4).trans (by decide)
  have hfront := p.take_overwrite hfits
  rw [hlen] at hfront
  have hbytes := List.take_append_drop (4 + chunk.length) (p.overwrite (u32 next ++ chunk)).bytes
  rw [hfront, List.append_assoc] at hbytes
  rw [← hbytes]
  refine ⟨slice_append_left le_rfl, ?_⟩
  rw [slice_append_right (u32_length next).symm]
  exact List.take_left

/-- What the second pass leaves. -/
structure Filled (inTxn : Bool) (s : Machine) (ids : List Nat) (data : Bytes) (s' : Machine) : Prop where
  ready : Ready inTxn s'
  header : s'.header = s.header
  capacity : s'.capacity = s.capacity
  pins : s'.pinsOn = s.pinsOn
  linked : Linked s' ids data
  others : OnlyTouches (· ∈ ids) s s'

/-- One turn of the second pass. -/
theorem writePage_post (hs : Ready inTxn s) (hid : 1 ≤ id ∧ id ≤ s.header.pageCount) {next : Nat}
    (hnext : next < 2 ^ 32) (chunk : Bytes) {rest : MachineM Unit} {Q : Unit → Machine → Prop}
    {E : DbError → Machine → Prop}
    (hrest : ∀ s', Ready inTxn s' → ShowsBut id s s' → s'.pinsOn = s.pinsOn →
      s'.page id = (s.page id).overwrite (u32 next ++ chunk) → Post rest s' Q E)
    (hfail : ∀ e s', Shows s s' → Exhausted e → Crowded s → E e s') :
    Post (BufferPool.getPageForWrite inTxn id >>= fun raw => lift (toBytes4 next) >>= fun word =>
      mutate id (raw.overwrite (word ++ chunk)) >>= fun _ => unpin id >>= fun _ => rest) s Q E := by
  have hget := (BufferPool.getPageForWrite_post hs.consistent hs.wired id).and
    (BufferPool.post_of_keeps (BufferPool.wired_getPageForWrite id) hs.wired)
  refine hget.bind (fun raw s₁ hgot => ?_) ?_
  · obtain ⟨⟨hpin, rfl, -, -⟩, hwired₁⟩ := hgot
    obtain ⟨f, hf, hpos, hdirty⟩ := hpin.frame
    rw [toBytes4_of_lt hnext, post_bind, post_lift_ok, post_bind]
    obtain ⟨s₂, hwrite, hwritten, hpage, hpins₂⟩ := BufferPool.mutate_ok hpin.shows.consistent hf hpos hdirty
      ((s.page id).overwrite (u32 next ++ chunk))
    have hwired₂ : Wired inTxn s₂ := Triple.ok (BufferPool.wired_mutate id _) hwired₁ hwrite
    have hpinned : 0 < s₂.pinsOn id := by
      rw [hpins₂, hpin.pins, BufferPool.pinOne, if_pos rfl]
      exact Nat.succ_pos _
    obtain ⟨s₃, hunpin, hshows, hpins₃⟩ := BufferPool.unpin_ok hwritten.consistent hpinned
    have hwired₃ : Wired inTxn s₃ := Triple.ok (BufferPool.wired_unpin id) hwired₂ hunpin
    refine Post.of_eq hwrite ((post_bind _ _).mpr (Post.of_eq hunpin ?_))
    refine hrest s₃ ⟨hshows.consistent, hwired₃⟩ ?_ ?_ ((hshows.page id hid.1).trans hpage)
    · exact ((hpin.shows.but id).trans hwritten).trans (hshows.but id)
    · exact BufferPool.pinOne_inj (hpins₃.trans (hpins₂.trans hpin.pins))
  · rintro e s₁ ⟨⟨hshows, -, hwhy⟩, -⟩
    obtain ⟨he, hcrowded⟩ := hwhy hid.1 hid.2
    exact hfail e s₁ hshows he hcrowded

theorem writePages_post (hs : Ready inTxn s) (hnodup : ids.Nodup)
    (hids : ∀ id ∈ ids, 1 ≤ id ∧ id ≤ s.header.pageCount) (hcount : s.header.pageCount < 2 ^ 32)
    (hlen : ids.length = chainLength data.length) :
    Post (writePages inTxn ids data) s (fun _ s' => Filled inTxn s ids data s')
      fun e s' => OnlyTouches (· ∈ ids) s s' ∧ Exhausted e ∧ Crowded s := by
  induction ids generalizing s data with
  | nil =>
      have hdata := List.length_eq_zero_iff.mp (PageStore.eq_zero_of_chainLength hlen.symm)
      exact ⟨hs, rfl, rfl, rfl, hdata, fun _ _ _ _ => rfl⟩
  | cons id ids ih =>
      obtain ⟨hfresh, hnodup⟩ := List.nodup_cons.mp hnodup
      have hid := hids id (List.mem_cons_self ..)
      have hnext : ids.headD 0 < 2 ^ 32 := by
        cases ids with
        | nil => exact Nat.two_pow_pos 32
        | cons next _ => exact (hids next (by rw [List.mem_cons, List.mem_cons]; exact .inr (.inl rfl))).2.trans_lt hcount
      rw [writePages]
      refine writePage_post hs hid hnext _ (fun s₁ hs₁ hbut hpins₁ hpage => ?_) fun e s₁ hshows he hcrowded => ?_
      · have hlater : ∀ s₂, OnlyTouches (· ∈ ids) s₁ s₂ → OnlyTouches (· ∈ id :: ids) s s₂ := fun s₂ h₂ =>
          (OnlyTouches.of_showsBut hbut (List.mem_cons_self ..)).trans h₂ (by rw [hbut.header]) fun k _ _ hmem =>
            List.mem_cons_of_mem _ hmem
        have hrange₁ : ∀ k ∈ ids, 1 ≤ k ∧ k ≤ s₁.header.pageCount := by
          rw [hbut.header]
          exact fun k hk => hids k (List.mem_cons_of_mem _ hk)
        obtain ⟨-, hlen₁⟩ := PageStore.chainLength_succ hlen.symm
        rw [← List.length_drop] at hlen₁
        refine (ih hs₁ hnodup hrange₁ (by rwa [hbut.header]) hlen₁.symm).mono (fun _ s₂ hfilled => ?_) ?_
        · refine ⟨hfilled.ready, hfilled.header.trans hbut.header, hfilled.capacity.trans hbut.capacity,
            hfilled.pins.trans hpins₁, ⟨?_, ?_, hfilled.linked⟩, hlater s₂ hfilled.others⟩
          all_goals
            rw [hfilled.others id hid.1 (by rw [hbut.header]; exact hid.2) hfresh, hpage]
          · rw [(slice_overwrite _ (List.length_take_le _ _)).1, fromBytes_u32 hnext]
          · rw [← List.length_take]
            exact (slice_overwrite _ (List.length_take_le _ _)).2
        · rintro e s₂ ⟨hothers, he, hcrowded⟩
          exact ⟨hlater s₂ hothers, he, hcrowded.congr hbut.capacity.symm hpins₁.symm⟩
      · exact ⟨.of_shows hshows, he, hcrowded⟩

/-- What `write_overflow_chain` leaves: a chain of pages that were not in use, off the
freelist, with the data, and nothing else. -/
structure Written (inTxn : Bool) (s : Machine) (free : List Nat) (data : Bytes) (ids : List Nat)
    (s' : Machine) : Prop where
  ready : Ready inTxn s'
  pins : s'.pinsOn = s.pinsOn
  count : ids.length = chainLength data.length
  fresh : ∀ id ∈ ids, ¬ InUse s free id
  chain : OnChain s' ids data
  freelist : BareFreelist s' (free.drop ids.length)
  pageCount : s'.header.pageCount = s.header.pageCount + (ids.length - free.length)
  apart : ∀ id ∈ ids, id ∉ free.drop ids.length
  others : OnlyTouches (· ∈ free) s s'

theorem writeOverflowChain_post (hs : Ready inTxn s) (h : BareFreelist s free) (hone : 1 ≤ s.header.pageCount)
    (hdata : data ≠ []) (hcount : s.header.pageCount + chainLength data.length < 2 ^ 32) :
    Post (writeOverflowChain inTxn data) s
      (fun first s' => ∃ ids, first = ids.headD 0 ∧ Written inTxn s free data ids s')
      fun e s' => OnlyTouches (· ∈ free) s s' ∧ Exhausted e ∧ Crowded s := by
  unfold writeOverflowChain
  rw [if_neg hdata]
  refine (allocatePages_post hs h).bind (fun ids s₁ hres => ?_) fun e s₁ he => he
  obtain ⟨rfl, hres⟩ := hres
  have hlen := @length_nextPages s (chainLength data.length) free
  have hcount₁ := hres.pageCount
  have hrange : ∀ id ∈ nextPages s free (chainLength data.length), 2 ≤ id ∧ id ≤ s₁.header.pageCount := by
    rw [hcount₁]
    exact fun id hid => nextPages_inFile h.valid hone hid
  have hinFile : ∀ id ∈ nextPages s free (chainLength data.length), 1 ≤ id ∧ id ≤ s₁.header.pageCount := by
    intro id hid
    have := hrange id hid
    omega
  have hlater : ∀ s₂, OnlyTouches (· ∈ nextPages s free (chainLength data.length)) s₁ s₂ →
      OnlyTouches (· ∈ free) s s₂ := fun s₂ h₂ =>
    hres.others.trans h₂ (hcount₁ ▸ Nat.le_add_right ..) fun k hk hle hmem =>
      not_not.mp fun hkfree => not_inUse_of_nextPages hmem ⟨hk, hle, hkfree⟩
  refine (writePages_post hres.ready (nodup_nextPages h.valid) hinFile (by omega) hlen).bind
    (fun _ s₂ hfilled => ?_) ?_
  · refine ⟨_, rfl, hfilled.ready, hfilled.pins.trans hres.pins, hlen, fun id => not_inUse_of_nextPages,
      ⟨hfilled.linked, nodup_nextPages h.valid, ?_⟩, ?_, ?_, ?_, hlater s₂ hfilled.others⟩
    · rw [hfilled.header]
      exact hrange
    · rw [hlen]
      refine hres.freelist.congr hfilled.header fun id hid => ?_
      have hlo := hres.freelist.valid.inFile id hid
      exact hfilled.others id (by omega) hlo.2 (not_mem_nextPages h.valid hid)
    · rw [hlen, hfilled.header, hcount₁]
    · rw [hlen]
      exact fun id hid hmem => not_mem_nextPages h.valid hmem hid
  · rintro e s₂ ⟨hothers, he, hcrowded⟩
    exact ⟨hlater s₂ hothers, he, hcrowded.congr hres.capacity.symm hres.pins.symm⟩

/-! ## Freeing -/

/-- A page that was not free becomes the head of a bare freelist. -/
theorem bareFreelist_of_release (hr : Release id s s') (h : BareFreelist s free) (hid : id ∉ free) :
    BareFreelist s' (id :: free) := by
  have hnode : trunkNode (s'.page id) = ⟨s.header.freelistTrunk, []⟩ := by
    rw [hr.freed, trunkNode_freePageImage hr.trunk_lt]
  have hpage : ∀ k ∈ free, s'.page k = s.page k := by
    intro k hk
    have hlo := (h.valid.inFile k hk).1
    exact hr.page k (by omega) fun heq => hid (heq ▸ hk)
  refine ⟨⟨?_, List.nodup_cons.mpr ⟨hid, h.valid.nodup⟩, ?_, ?_⟩, ?_⟩
  · rw [hr.header]
    have hne : id ≠ 0 := by
      have := hr.range.1
      omega
    exact h.valid.chain.push hne hnode fun k hk => congrArg trunkNode (hpage k hk)
  · rw [hr.header]
    exact List.forall_mem_cons.mpr ⟨hr.range, h.valid.inFile⟩
  · rw [hr.header, List.length_cons, ← h.valid.count]
    rfl
  · refine List.forall_mem_cons.mpr ⟨congrArg FreeChain.Node.leaves hnode, fun k hk => ?_⟩
    rw [hpage k hk]
    exact h.bare k hk

/-- What `free_overflow_chain` leaves: the pages of the chain are free, and nothing else
has changed. -/
structure Returned (inTxn : Bool) (s : Machine) (ids free : List Nat) (s' : Machine) : Prop where
  ready : Ready inTxn s'
  pins : s'.pinsOn = s.pinsOn
  freelist : BareFreelist s' (ids.reverse ++ free)
  pageCount : s'.header.pageCount = s.header.pageCount
  others : OnlyTouches (· ∈ ids) s s'

theorem freePage_ready (hs : Ready inTxn s) (id : Nat) :
    Post (BufferPool.freePage inTxn id) s (fun _ s' => Release id s s' ∧ Ready inTxn s') fun e s' =>
      ShowsBut id s s' ∧ (2 ≤ id → id ≤ s.header.pageCount → s.pinsOn id = 0 →
        s.header.freelistTrunk < 2 ^ 32 → Exhausted e ∧ Crowded s) := by
  have hwired := BufferPool.post_of_keeps (BufferPool.wired_freePage id) hs.wired
  refine ((BufferPool.freePage_post hs.consistent hs.wired id).and hwired).mono ?_ fun _ _ h => h.1
  rintro _ s' ⟨hr, hw⟩
  exact ⟨hr, hr.consistent, hw⟩

/-- A chain that may be freed: nobody has its pages pinned, and none of them is free. -/
structure Freeable (s : Machine) (ids free : List Nat) (data : Bytes) : Prop where
  chain : OnChain s ids data
  freelist : BareFreelist s free
  apart : ∀ id ∈ ids, id ∉ free
  unpinned : ∀ id ∈ ids, s.pinsOn id = 0
  count : s.header.pageCount < 2 ^ 32

theorem Freeable.silent (h : Freeable s ids free data) (hquiet : Silent inTxn s s') : Freeable s' ids free data where
  chain := h.chain.silent hquiet
  freelist := h.freelist.silent hquiet
  apart := h.apart
  unpinned := by
    rw [hquiet.pins]
    exact h.unpinned
  count := by
    rw [hquiet.pageCount]
    exact h.count

theorem pageCount_of_release (hr : Release id s s') : s'.header.pageCount = s.header.pageCount := by
  rw [hr.header]
  rfl

/-- Once its first page is free, the rest of a chain may be freed. -/
theorem Freeable.release (h : Freeable s (id :: ids) free data) (hr : Release id s s') :
    Freeable s' ids (id :: free) (data.drop contentPerPage) where
  chain := by
    refine h.chain.tail.congr (pageCount_of_release hr) fun k hk => ?_
    have hlo := (h.chain.tail.inFile k hk).1
    exact hr.page k (by omega) fun heq => (List.nodup_cons.mp h.chain.nodup).1 (heq ▸ hk)
  freelist := bareFreelist_of_release hr h.freelist (h.apart id (List.mem_cons_self ..))
  apart := notMem_cons_of_nodup h.chain.nodup h.apart
  unpinned := by
    rw [hr.pins]
    exact fun k hk => h.unpinned k (List.mem_cons_of_mem _ hk)
  count := by
    rw [pageCount_of_release hr]
    exact h.count

theorem freeChainFrom_post {out : Nat → MachineM Unit} (hs : Ready inTxn s) (h : Freeable s ids free data)
    (hnew : ∀ id ∈ ids, id ∉ visited) (hfuel : ids.length < fuel) :
    Post (freeChainFrom inTxn out fuel visited (ids.headD 0)) s (fun _ s' => Returned inTxn s ids free s')
      fun e s' => OnlyTouches (· ∈ ids) s s' ∧ Exhausted e ∧ Crowded s := by
  induction ids generalizing s data free visited fuel with
  | nil =>
      obtain ⟨fuel, rfl⟩ := Nat.exists_eq_succ_of_ne_zero (Nat.ne_zero_of_lt hfuel)
      exact ⟨hs, rfl, h.freelist, rfl, fun _ _ _ _ => rfl⟩
  | cons id ids ih =>
      obtain ⟨fuel, rfl⟩ := Nat.exists_eq_succ_of_ne_zero (Nat.ne_zero_of_lt hfuel)
      obtain ⟨hlo, hhi⟩ := h.chain.inFile id (List.mem_cons_self ..)
      obtain ⟨hnext, -⟩ := h.chain.linked
      rw [freeChainFrom, List.headD_cons, if_neg (by omega), if_neg (hnew id (List.mem_cons_self ..))]
      rcases fetch_cases hs id with ⟨s₁, -, hquiet, hrun⟩ | ⟨e, s₁, hwhy, hquiet, hrun⟩
      · refine Post.of_run_eq (hrun _) ?_
        rw [hnext]
        have h₁ := h.silent hquiet
        have hcount₁ := hquiet.pageCount
        have hread : OnlyTouches (· ∈ id :: ids) s s₁ := .of_shows hquiet.shows
        refine (freePage_ready hquiet.ready id).bind (fun _ s₂ hdone => ?_) ?_
        · obtain ⟨hr, hs₂⟩ := hdone
          have hcount₂ := pageCount_of_release hr
          have hfreed : OnlyTouches (· ∈ id :: ids) s₁ s₂ := fun k hk _ hkids =>
            hr.page k hk fun heq => hkids (heq ▸ List.mem_cons_self ..)
          have hlater : ∀ s₃, OnlyTouches (· ∈ ids) s₂ s₃ → OnlyTouches (· ∈ id :: ids) s s₃ := fun s₃ h₃ =>
            hread.trans (hfreed.trans h₃ hcount₂.ge fun k _ _ hmem => List.mem_cons_of_mem _ hmem) hcount₁.ge
              fun k _ _ hmem => hmem
          refine (ih hs₂ (h₁.release hr) (notMem_cons_of_nodup h.chain.nodup hnew)
            (Nat.lt_of_succ_lt_succ hfuel)).mono (fun _ s₃ hrest => ?_) ?_
          · refine ⟨hrest.ready, hrest.pins.trans (hr.pins.trans hquiet.pins), ?_,
              hrest.pageCount.trans (hcount₂.trans hcount₁), hlater s₃ hrest.others⟩
            rw [List.reverse_cons, List.append_assoc]
            exact hrest.freelist
          · rintro e s₃ ⟨hothers₃, he, hcrowded⟩
            exact ⟨hlater s₃ hothers₃, he, hquiet.crowded (hcrowded.congr hr.capacity.symm hr.pins.symm)⟩
        · rintro e s₂ ⟨hbut, hwhy⟩
          obtain ⟨he, hcrowded⟩ := hwhy hlo (by rwa [hcount₁]) (h₁.unpinned id (List.mem_cons_self ..))
            (h₁.freelist.trunk_le.trans_lt h₁.count)
          refine ⟨hread.trans (.of_showsBut hbut (List.mem_cons_self ..)) hcount₁.ge fun k _ _ hmem => hmem, he, ?_⟩
          exact hquiet.crowded hcrowded
      · unfold Post
        rw [hrun]
        exact ⟨.of_shows hquiet.shows, hwhy (by omega) hhi⟩

theorem freeOverflowChain_post (hs : Ready inTxn s) (h : Freeable s ids free data) :
    Post (freeOverflowChain inTxn (ids.headD 0)) s (fun _ s' => Returned inTxn s ids free s')
      fun e s' => OnlyTouches (· ∈ ids) s s' ∧ Exhausted e ∧ Crowded s :=
  freeChainFrom_post hs h (fun _ _ => List.not_mem_nil) (Nat.lt_succ_of_le h.chain.length_le)

/-- However the pages are linked, the loop ends before it runs out of turns. -/
theorem freeChainFrom_enough {out out' : Nat → MachineM Unit} (hs : Ready inTxn s) (hv : Slotted.Visits s visited)
    (current : Nat) (hfuel : s.header.pageCount < visited.length + fuel)
    (hfuel' : s.header.pageCount < visited.length + fuel') :
    freeChainFrom inTxn out fuel visited current s = freeChainFrom inTxn out' fuel' visited current s := by
  induction fuel generalizing s visited current fuel' with
  | zero =>
      have := hv.length_le
      omega
  | succ fuel ih =>
      cases fuel' with
      | zero =>
          have := hv.length_le
          omega
      | succ fuel' =>
          rw [freeChainFrom, freeChainFrom]
          split
          · rfl
          · split
            · rfl
            · rename_i hnew
              rcases fetch_cases hs current with ⟨s₁, hrange, hquiet, hrun⟩ | ⟨e, s₁, -, -, hrun⟩
              · refine (hrun _).trans (Eq.trans ?_ (hrun _).symm)
                refine bind_congr_at rfl fun _ s₂ hdone => ?_
                obtain ⟨hr, hs₂⟩ := (freePage_ready hquiet.ready current).ok hdone
                have hcount₂ : s₂.header.pageCount = s.header.pageCount :=
                  (pageCount_of_release hr).trans hquiet.pageCount
                have hvisits : Slotted.Visits s₂ (current :: visited) := by
                  refine ⟨(hv.cons hnew hrange).nodup, ?_⟩
                  rw [hcount₂]
                  exact (hv.cons hnew hrange).inFile
                refine ih hs₂ hvisits _ ?_ ?_
                · rw [hcount₂, List.length_cons]
                  omega
                · rw [hcount₂, List.length_cons]
                  omega
              · exact (hrun _).trans (hrun _).symm

/-! ## The three together -/

/-- Overflow chains over a pool in or outside of a transaction.  Writing, reading and
freeing do what they should, or raise `PoolExhaustedError`, which takes a pool with as
many pinned pages as it has room for; the walks over any links come to an end. -/
structure OverflowChains (inTxn : Bool) : Prop where
  write : ∀ (s : Machine) (free : List Nat) (data : Bytes), Ready inTxn s → BareFreelist s free →
    1 ≤ s.header.pageCount → data ≠ [] → s.header.pageCount + chainLength data.length < 2 ^ 32 →
      Post (writeOverflowChain inTxn data) s
        (fun first s' => ∃ ids, first = ids.headD 0 ∧ Written inTxn s free data ids s')
        fun e s' => OnlyTouches (· ∈ free) s s' ∧ Exhausted e ∧ Crowded s
  read : ∀ (s : Machine) (ids : List Nat) (data : Bytes), Ready inTxn s → OnChain s ids data →
    Post (readOverflowChain inTxn (ids.headD 0) data.length) s
      (fun bytes s' => bytes = data ∧ Silent inTxn s s')
      fun e s' => Silent inTxn s s' ∧ Exhausted e ∧ Crowded s
  free : ∀ (s : Machine) (ids free : List Nat) (data : Bytes), Ready inTxn s → OnChain s ids data →
    BareFreelist s free → (∀ id ∈ ids, id ∉ free) → (∀ id ∈ ids, s.pinsOn id = 0) →
    s.header.pageCount < 2 ^ 32 →
      Post (freeOverflowChain inTxn (ids.headD 0)) s (fun _ s' => Returned inTxn s ids free s')
        fun e s' => OnlyTouches (· ∈ ids) s s' ∧ Exhausted e ∧ Crowded s
  reads_end : ∀ (s : Machine) (first total : Nat) (out : Nat → MachineM Bytes) (fuel : Nat), Ready inTxn s →
    s.header.pageCount < fuel →
      readChainFrom inTxn out fuel [] first total s = readOverflowChain inTxn first total s
  frees_end : ∀ (s : Machine) (first : Nat) (out : Nat → MachineM Unit) (fuel : Nat), Ready inTxn s →
    s.header.pageCount < fuel →
      freeChainFrom inTxn out fuel [] first s = freeOverflowChain inTxn first s

theorem overflow_chains (inTxn : Bool) : OverflowChains inTxn where
  write _ _ _ hs hfree hone hdata hcount := writeOverflowChain_post hs hfree hone hdata hcount
  read _ _ _ hs hchain := readOverflowChain_post hs hchain
  free _ _ _ _ hs hchain hfree hapart hunpinned hcount :=
    freeOverflowChain_post hs ⟨hchain, hfree, hapart, hunpinned, hcount⟩
  reads_end s first total _ _ hs hfuel := by
    refine readChainFrom_enough hs .nil first total ?_ ?_
    · rwa [List.length_nil, Nat.zero_add]
    · rw [List.length_nil, Nat.zero_add]
      exact Nat.lt_succ_self _
  frees_end s first _ _ hs hfuel := by
    refine freeChainFrom_enough hs .nil first ?_ ?_
    · rwa [List.length_nil, Nat.zero_add]
    · rw [List.length_nil, Nat.zero_add]
      exact Nat.lt_succ_self _

/-- The free page 2, and no page in the pool. -/
def emptyPool : Machine := Session.oneTrunk 0 (u32 0 ++ u32 0)

theorem emptyPool_ready : Ready false emptyPool where
  consistent := ⟨⟨List.nodup_nil, nofun, nofun⟩, nofun⟩
  wired := fun h => absurd h Bool.false_ne_true

theorem emptyPool_freelist : BareFreelist emptyPool [2] where
  valid := Session.oneTrunk_bare
  bare := fun id hid => by
    obtain rfl := List.mem_singleton.mp hid
    rfl

/-- 5000 bytes. -/
@[irreducible] def longTail : Bytes := List.replicate 5000 7

theorem longTail_length : longTail.length = 5000 := by
  rw [longTail, List.length_replicate]

theorem longTail_ne_nil : longTail ≠ [] := by
  rw [longTail, ne_eq, List.replicate_eq_nil_iff]
  decide

/-- A chain of the free page and a new one: it reads back as what was written, and
freed it leaves both on the freelist. -/
theorem overflow_chains_twoPages : ∃ s ids, writeOverflowChain false longTail emptyPool = (.ok 2, s) ∧
    ids.length = 2 ∧ OnChain s ids longTail ∧
    (readOverflowChain false (ids.headD 0) longTail.length s).1 = .ok longTail ∧
    ∃ s', freeOverflowChain false (ids.headD 0) s = (.ok (), s') ∧ BareFreelist s' (ids.reverse ++ []) := by
  obtain ⟨s, hs⟩ : ∃ s, s = (writeOverflowChain false longTail).exec emptyPool := ⟨_, rfl⟩
  have hwrite : writeOverflowChain false longTail emptyPool = (.ok 2, s) := hs ▸ apply_eq (by decide +kernel)
  have hfew : emptyPool.header.pageCount + chainLength longTail.length < 2 ^ 32 := by
    rw [longTail_length]
    decide
  have hpost := (overflow_chains false).write emptyPool [2] longTail emptyPool_ready
    emptyPool_freelist (by decide) longTail_ne_nil hfew
  obtain ⟨ids, hfirst, hwritten⟩ := hpost.ok hwrite
  have hcount : ids.length = 2 := by
    rw [hwritten.count, longTail_length]
    rfl
  have hread : ((readOverflowChain false 2 longTail.length s).1).isOk = true := by
    rw [hs]
    decide +kernel
  have hfree : (freeOverflowChain false 2 s).1 = .ok () := by
    rw [hs]
    decide +kernel
  rw [hfirst] at hread hfree
  refine ⟨s, ids, hwrite, hcount, hwritten.chain, ?_, _, apply_eq hfree, ?_⟩
  · cases hrun : readOverflowChain false (ids.headD 0) longTail.length s with
    | mk result s' =>
        rw [hrun] at hread
        cases result with
        | error e => cases hread
        | ok bytes =>
            exact congrArg Except.ok
              (((overflow_chains false).read s ids longTail hwritten.ready hwritten.chain).ok hrun).1
  · have hempty : [2].drop ids.length = [] := by rw [hcount]; rfl
    have hfreelist := hwritten.freelist
    rw [hempty] at hfreelist
    have hpins : ∀ id ∈ ids, s.pinsOn id = 0 := fun id _ => by
      rw [hwritten.pins]
      rfl
    have hsmall : s.header.pageCount < 2 ^ 32 := by
      rw [hwritten.pageCount, hcount]
      decide
    exact (((overflow_chains false).free s ids [] longTail hwritten.ready hwritten.chain hfreelist
      (fun _ _ => List.not_mem_nil) hpins hsmall).ok (apply_eq hfree)).freelist

/-- A pool with room for one page, which is pinned. -/
def fullPool : Machine :=
  { Session.oneTrunk 0 (u32 0 ++ u32 0) with
    capacity := 1
    cache := [(3, ⟨Page.zero, 1, false⟩)] }

theorem fullPool_ready : Ready false fullPool where
  consistent := by
    have honly : ∀ k f, fullPool.cache.lookup k = some f → k = 3 ∧ f = ⟨Page.zero, 1, false⟩ := by
      intro k f hf
      obtain ⟨hk, hf⟩ := Prod.mk.inj (List.mem_singleton.mp (Dict.mem_of_lookup hf))
      exact ⟨hk, hf⟩
    refine ⟨⟨List.nodup_singleton 3, fun k f hf => ?_, fun k f hf _ => ?_⟩, fun k f hf => ?_⟩
    · obtain ⟨rfl, -⟩ := honly k f hf
      decide
    · obtain ⟨rfl, rfl⟩ := honly k f hf
      rfl
    · obtain ⟨rfl, -⟩ := honly k f hf
      exact le_rfl
  wired := fun h => absurd h Bool.false_ne_true

theorem fullPool_freelist : BareFreelist fullPool [2] where
  valid := Session.oneTrunk_bare.congr rfl fun id hid => by
    obtain rfl := List.mem_singleton.mp hid
    rfl
  bare := fun id hid => by
    obtain rfl := List.mem_singleton.mp hid
    rfl

/-- Its pages are in order, there is a free page, and no chain can be written. -/
theorem writeOverflowChain_full : Ready false fullPool ∧ BareFreelist fullPool [2] ∧
    1 ≤ fullPool.header.pageCount ∧
    (writeOverflowChain false [1] fullPool).1 =
      .error (.poolExhausted "every cached page is pinned; nothing to evict") :=
  ⟨fullPool_ready, fullPool_freelist, by decide, rfl⟩

end Overflow

end QuillDb
