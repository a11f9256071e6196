/-
  Txn/Freelist.lean --- allocating and freeing pages over any SQLite freelist.

  Source: `allocate_page` and `free_page` of `quilldb/storage/bufferpool.py`; the
  format is the one `Pager._allocate_page` of `quilldb/storage/pager.py` describes.

  The file format has trunk pages that list leaf pages.  The pool takes the head
  trunk and follows its next pointer, whatever leaves the trunk lists, and goes by
  the count of the header, which counts the leaves too.
-/
import QuillDb.Lib.FreeChain
import QuillDb.Txn.PoolView

set_option autoImplicit false

namespace QuillDb

open Prog Machine FreeChain

namespace Machine

variable {s s' : Machine} {id : Nat}

/-- A freelist page as the file format reads it: the next trunk, and the leaves. -/
def trunkNode (p : Page) : Node Nat where
  next := fromBytes (p.bytes.take 4)
  leaves := (List.range (fromBytes (slice p.bytes 4 4))).map fun i =>
    fromBytes (slice p.bytes (8 + 4 * i) 4)

/-- The header once the head trunk is taken. -/
def popped (h : FileHeader) (p : Page) : FileHeader :=
  { h with freelistTrunk := (trunkNode p).next, freelistCount := h.freelistCount - 1 }

/-- The header once a page is the head trunk. -/
def pushed (h : FileHeader) (id : Nat) : FileHeader :=
  { h with freelistTrunk := id, freelistCount := h.freelistCount + 1 }

/-- The header of a file with one more page. -/
def grown (h : FileHeader) : FileHeader := { h with pageCount := h.pageCount + 1 }

/-- What an allocation that returned did. -/
inductive Allocated (s : Machine) : Nat → Machine → Prop
  | reused {s' : Machine} (hcount : 0 < s.header.freelistCount) (hs' : s'.Coherent)
      (hheader : s'.header = popped s.header (s.page s.header.freelistTrunk))
      (hpage : s'.page = s.page) : Allocated s s.header.freelistTrunk s'
  | grew {s' : Machine} (hcount : s.header.freelistCount = 0) (hs' : s'.Coherent)
      (hheader : s'.header = grown s.header)
      (hpage : ∀ k, k ≠ s.header.pageCount + 1 → s'.page k = s.page k) :
      Allocated s (s.header.pageCount + 1) s'

theorem allocatePage_spec (hs : s.Coherent) :
    Post allocatePage s (Allocated s) fun _ s' => SameView s s' := by
  unfold allocatePage BufferPool.allocatePage
  simp only [post_bind, post_state]
  split
  · rename_i hcount
    simp only [post_bind]
    refine (getPageForWrite_view hs _).mono (fun p s₁ hpinned => ?_) fun _ _ he => he
    obtain ⟨hview, hp, f, hf, hpin, -, -⟩ := hpinned
    rw [post_setHeader]
    obtain ⟨hdrop, hreturns⟩ :=
      unpin_view (hview.coherent.withHeader (popped s₁.header p)) s.header.freelistTrunk
    refine Post.of_eq (apply_eq (hreturns f hf hpin)) (.reused hcount hdrop.coherent ?_ ?_)
    · exact hdrop.header.trans (by rw [withHeader_header, hview.header, hp])
    · exact hdrop.page.trans hview.page
  · rename_i hcount
    simp only [post_bind, post_setHeader]
    refine .grew (Nat.eq_zero_of_not_pos hcount) ⟨Dict.nodup_put hs.keys _ _, ?_, ?_⟩ rfl ?_
    · intro k f hf
      have hf : (s.cache.put (s.header.pageCount + 1) ⟨Page.zero, 0, true⟩).lookup k = some f := hf
      rw [Dict.lookup_put] at hf
      split at hf
      · omega
      · exact hs.one_le k f hf
    · intro k f hf
      have hf : (s.cache.put (s.header.pageCount + 1) ⟨Page.zero, 0, true⟩).lookup k = some f := hf
      rw [Dict.lookup_put] at hf
      split at hf
      · cases hf
        intro hclean
        cases hclean
      · exact hs.clean k f hf
    · intro k hk
      exact page_with_cache ((Dict.lookup_put s.cache _ k _).trans (if_neg hk))

/-- What freeing a page did, when it returned. -/
structure Freed (id : Nat) (s s' : Machine) : Prop where
  coherent : s'.Coherent
  ne_one : id ≠ 1
  one_le : 1 ≤ id
  le_count : id ≤ s.header.pageCount
  trunk_lt : s.header.freelistTrunk < 2 ^ 32
  header : s'.header = pushed s.header id
  freed : s'.page id = freePageImage s.header.freelistTrunk
  page : ∀ k, k ≠ id → s'.page k = s.page k

theorem freePage_spec (hs : s.Coherent) (id : Nat) :
    Post (freePage id) s (fun _ s' => Freed id s s') fun _ s' => SameBut id s s' := by
  unfold freePage BufferPool.freePage
  simp only [post_bind, post_state]
  split
  · exact (SameView.refl hs).sameBut id
  · rename_i hone
    split
    · exact (SameView.refl hs).sameBut id
    · rename_i hcount
      have hdropped : Post (discard id) s (fun _ s₁ => SameBut id s s₁) fun _ s₁ => SameBut id s s₁ := by
        have hview := discard_view hs id
        unfold Post
        rcases hrun : discard id s with ⟨e | u, s₁⟩ <;> rw [hrun] at hview <;> exact hview
      refine hdropped.bind (fun _ s₁ hdrop => ?_) fun _ _ he => he
      refine (getPageForWrite_view hdrop.coherent id).bind (fun p s₂ hpin => ?_)
        fun _ _ he => hdrop.trans (he.sameBut id)
      obtain ⟨hview, hp, f, hf, hpos, hdirty, hdata⟩ := hpin
      have hsame := hdrop.trans (hview.sameBut id)
      refine (post_bind _ _).mpr (post_lift.mpr ⟨fun _ hfits => ?_, fun _ _ => hsame⟩)
      obtain ⟨htrunk, -⟩ := toBytes4_eq_ok hfits
      refine (mutate_post hview.coherent hf hpos hdirty _).bind (fun _ s₃ hwritten => ?_)
        fun _ _ he => he.elim
      obtain ⟨hwrite, hpage, f₃, hf₃, hpos₃⟩ := hwritten
      obtain ⟨hunpin, hreturns⟩ := unpin_view hwrite.coherent id
      rw [post_bind]
      refine Post.of_eq (apply_eq (hreturns f₃ hf₃ hpos₃)) ?_
      have hlast := (hsame.trans hwrite).trans (hunpin.sameBut id)
      exact {
        coherent := hunpin.coherent.withHeader _
        ne_one := hone
        one_le := hview.coherent.one_le id f hf
        le_count := by omega
        trunk_lt := htrunk
        header := congrArg (fun h => pushed h id) hlast.header
        freed := (congrFun hunpin.page id).trans hpage
        page := hlast.page }

/-! ## The free list of a file -/

/-- The header and the pages hold a freelist of the file format: a chain of trunks, each
with its leaves, all of them pages of the file, none twice, and counted by the header. -/
structure ValidFreelist (s : Machine) (free : List Nat) : Prop where
  chain : Chain (fun id => trunkNode (s.page id)) 0 s.header.freelistTrunk free
  nodup : free.Nodup
  inFile : ∀ id ∈ free, 2 ≤ id ∧ id ≤ s.header.pageCount
  count : s.header.freelistCount = free.length

/-- A page of the file that is not free. -/
def InUse (s : Machine) (free : List Nat) (id : Nat) : Prop :=
  1 ≤ id ∧ id ≤ s.header.pageCount ∧ id ∉ free

variable {free : List Nat}

theorem ValidFreelist.unique {free' : List Nat} (h : ValidFreelist s free)
    (h' : ValidFreelist s free') : free = free' :=
  h.chain.unique h'.chain

/-- The free pages show the same and the header names the same list. -/
theorem ValidFreelist.congr (h : ValidFreelist s free) (hheader : s'.header = s.header)
    (hpage : ∀ id ∈ free, s'.page id = s.page id) : ValidFreelist s' free where
  chain := by
    rw [hheader]
    exact h.chain.congr fun id hid => congrArg trunkNode (hpage id hid)
  nodup := h.nodup
  inFile := by
    rw [hheader]
    exact h.inFile
  count := by
    rw [hheader]
    exact h.count

theorem SameBut.validFreelist (hsame : SameBut id s s') (h : ValidFreelist s free)
    (hid : id ∉ free) : ValidFreelist s' free :=
  h.congr hsame.header fun k hk => hsame.page k fun heq => hid (heq ▸ hk)

/-- While pages are counted there is a head trunk, and it is free. -/
theorem ValidFreelist.uncons (h : ValidFreelist s free) (hcount : 0 < s.header.freelistCount) :
    ∃ rest, free = s.header.freelistTrunk ::
        ((trunkNode (s.page s.header.freelistTrunk)).leaves ++ rest) ∧
      Chain (fun id => trunkNode (s.page id)) 0
        (trunkNode (s.page s.header.freelistTrunk)).next rest := by
  refine h.chain.uncons fun hzero => ?_
  have hnil := h.chain.eq_nil_iff.mpr hzero
  have hlen := h.count
  rw [hnil, List.length_nil] at hlen
  omega

/-- An allocation returns a free page or a new one, whatever the trunks list. -/
theorem Allocated.notInUse (ha : Allocated s id s') (h : ValidFreelist s free) :
    (id ∈ free ∨ id = s.header.pageCount + 1) ∧ id ≠ 0 ∧ ¬ InUse s free id := by
  cases ha with
  | reused hcount _ _ _ =>
      obtain ⟨rest, hfree, -⟩ := h.uncons hcount
      have hmem : s.header.freelistTrunk ∈ free := hfree ▸ List.mem_cons_self ..
      have hrange := (h.inFile _ hmem).1
      exact ⟨.inl hmem, by omega, fun huse => huse.2.2 hmem⟩
  | grew _ _ _ _ => exact ⟨.inr rfl, Nat.succ_ne_zero _, fun huse => by have := huse.2.1; omega⟩

/-- The head trunk lists no leaves, or nothing is free. -/
def HeadIsBare (s : Machine) : Prop :=
  s.header.freelistCount = 0 ∨ (trunkNode (s.page s.header.freelistTrunk)).leaves = []

/-- Taking a bare head trunk leaves the list of the others. -/
theorem Allocated.validFreelist (ha : Allocated s id s') (h : ValidFreelist s free)
    (hbare : HeadIsBare s) :
    (∃ rest, free = id :: rest ∧ ValidFreelist s' rest ∧
        s'.header.pageCount = s.header.pageCount) ∨
      (id = s.header.pageCount + 1 ∧ s'.header.pageCount = id ∧ ValidFreelist s' free) := by
  cases ha with
  | reused hcount hs' hheader hpage =>
      obtain ⟨rest, hfree, hrest⟩ := h.uncons hcount
      rw [hbare.resolve_left (by omega), List.nil_append] at hfree
      refine .inl ⟨rest, hfree, ⟨?_, ?_, ?_, ?_⟩, by rw [hheader]; rfl⟩
      · rw [hheader, hpage]
        exact hrest
      · exact (List.nodup_cons.mp (hfree ▸ h.nodup)).2
      · rw [hheader]
        exact fun k hk => h.inFile k (hfree ▸ List.mem_cons_of_mem _ hk)
      · have hlen := h.count
        rw [hfree, List.length_cons] at hlen
        rw [hheader]
        show s.header.freelistCount - 1 = rest.length
        omega
  | grew hcount hs' hheader hpage =>
      have hold : ∀ k ∈ free, k ≠ s.header.pageCount + 1 := fun k hk => by
        have := (h.inFile k hk).2
        omega
      refine .inr ⟨rfl, by rw [hheader]; rfl, ⟨?_, h.nodup, fun k hk => ?_, ?_⟩⟩
      · rw [hheader]
        exact h.chain.congr fun k hk => congrArg trunkNode (hpage k (hold k hk))
      · obtain ⟨hlo, hhi⟩ := h.inFile k hk
        rw [hheader]
        exact ⟨hlo, Nat.le_succ_of_le hhi⟩
      · rw [hheader]
        exact h.count

theorem trunkNode_freePageImage {next : Nat} (h : next < 2 ^ 32) :
    trunkNode (freePageImage next) = ⟨next, []⟩ := by
  have hnext : (freePageImage next).bytes.take 4 = u32 next :=
    List.take_left' (u32_length next)
  have hleaves : slice (freePageImage next).bytes 4 4 = zeros 4 := by
    rw [freePageImage, slice_append_right (u32_length next).symm]
    rfl
  unfold trunkNode
  rw [hnext, hleaves, fromBytes_u32 h]
  rfl

/-- A page that was not free becomes the head trunk. -/
theorem Freed.validFreelist (hf : Freed id s s') (h : ValidFreelist s free) (hid : id ∉ free) :
    ValidFreelist s' (id :: free) where
  chain := by
    rw [hf.header]
    refine h.chain.push ?_ ?_ fun k hk => ?_
    · have := hf.one_le
      show id ≠ 0
      omega
    · show trunkNode (s'.page id) = _
      rw [hf.freed, trunkNode_freePageImage hf.trunk_lt]
    · exact congrArg trunkNode (hf.page k fun heq => hid (heq ▸ hk))
  nodup := List.nodup_cons.mpr ⟨hid, h.nodup⟩
  inFile := by
    rw [hf.header]
    intro k hk
    rcases List.mem_cons.mp hk with rfl | hk
    · have := hf.one_le
      have := hf.ne_one
      exact ⟨by omega, hf.le_count⟩
    · exact h.inFile k hk
  count := by
    rw [hf.header, List.length_cons, ← h.count]
    rfl

end Machine

/-! ## Runs -/

/-- A machine, and what its callers hold of the pages it handed out. -/
structure Session where
  machine : Machine
  ledger : Ledger Nat

namespace Session

def start (s : Machine) : Session := ⟨s, .empty⟩

/-- What an allocation returned is held: a page of the free list, or a new one. -/
def noteAllocated (pageCount : Nat) (l : Ledger Nat) : Except DbError Nat → Ledger Nat
  | .ok id => if pageCount < id then l.grow id else l.take id
  | .error _ => l

/-- What was freed is held no more. -/
def noteFreed (id : Nat) (l : Ledger Nat) : Except DbError Unit → Ledger Nat
  | .ok _ => l.give id
  | .error _ => l

/-- One operation, and what the ledger makes of it. -/
def call (x : Session) : Op → Session
  | .allocatePage =>
      ⟨allocatePage.exec x.machine,
        noteAllocated x.machine.header.pageCount x.ledger (allocatePage x.machine).1⟩
  | .freePage id =>
      ⟨(freePage id).exec x.machine, noteFreed id x.ledger (freePage id x.machine).1⟩
  | op => ⟨op.run.exec x.machine, x.ledger⟩

theorem call_allocatePage (x : Session) :
    x.call .allocatePage = ⟨(allocatePage x.machine).2,
      noteAllocated x.machine.header.pageCount x.ledger (allocatePage x.machine).1⟩ := rfl

theorem call_freePage (x : Session) (id : Nat) :
    x.call (.freePage id) = ⟨(freePage id x.machine).2,
      noteFreed id x.ledger (freePage id x.machine).1⟩ := rfl

/-- A run goes on after an operation that raised. -/
def run (ops : List Op) (x : Session) : Session := ops.foldl call x

/-- The books of a session that began with the pages of `first` free: the file has a
freelist, every page is free or held as it should be, and the next allocation returns
a free page or a new one, never page 0, a page in use or a page that is held. -/
def Sound (first : List Nat) (x : Session) : Prop :=
  ∃ free, ValidFreelist x.machine free ∧ x.ledger.Balanced first free ∧
    ∀ id s', allocatePage x.machine = (.ok id, s') →
      (id ∈ free ∨ id = x.machine.header.pageCount + 1) ∧ id ≠ 0 ∧
        ¬ InUse x.machine free id ∧ id ∉ x.ledger.held

/-- What a session owes the next operation: the pages it holds are pages of the file. -/
structure Kept (first : List Nat) (x : Session) (free : List Nat) : Prop where
  coherent : x.machine.Coherent
  valid : ValidFreelist x.machine free
  balanced : x.ledger.Balanced first free
  inFile : ∀ id ∈ x.ledger.held, 1 ≤ id ∧ id ≤ x.machine.header.pageCount

variable {first free : List Nat} {x : Session}

theorem Kept.sound (h : Kept first x free) : Sound first x := by
  refine ⟨free, h.valid, h.balanced, fun id s' hrun => ?_⟩
  have halloc := (allocatePage_spec h.coherent).ok hrun
  obtain ⟨hsource, hzero, huse⟩ := halloc.notInUse h.valid
  refine ⟨hsource, hzero, huse, ?_⟩
  rcases hsource with hfree | rfl
  · exact h.balanced.not_held hfree
  · intro hheld
    have := (h.inFile _ hheld).2
    omega

/-- The books do not see what only moves pins, recency or the journal. -/
theorem Kept.sameBut (h : Kept first x free) {id : Nat} {s : Machine}
    (hsame : SameBut id x.machine s) (hid : id ∉ free) : Kept first ⟨s, x.ledger⟩ free where
  coherent := hsame.coherent
  valid := hsame.validFreelist h.valid hid
  balanced := h.balanced
  inFile := by
    show ∀ id ∈ x.ledger.held, 1 ≤ id ∧ id ≤ s.header.pageCount
    rw [hsame.header]
    exact h.inFile

theorem Kept.sameView (h : Kept first x free) {s : Machine} (hsame : SameView x.machine s) :
    Kept first ⟨s, x.ledger⟩ free :=
  h.sameBut (hsame.sameBut 0) fun hzero => by have := (h.valid.inFile 0 hzero).1; omega

/-- An allocation under a bare head trunk. -/
theorem Kept.allocated (h : Kept first x free) {id : Nat} {s : Machine}
    (halloc : Allocated x.machine id s) (hbare : HeadIsBare x.machine) :
    ∃ free', Kept first
      ⟨s, noteAllocated x.machine.header.pageCount x.ledger (.ok id)⟩ free' := by
  have hcoherent : s.Coherent := by cases halloc <;> assumption
  rcases halloc.validFreelist h.valid hbare with ⟨rest, rfl, hvalid, hcount⟩ | ⟨hid, hcount, hvalid⟩
  · obtain ⟨hlo, hhi⟩ := h.valid.inFile id (List.mem_cons_self ..)
    have hnote : noteAllocated x.machine.header.pageCount x.ledger (.ok id) = x.ledger.take id :=
      if_neg (by omega)
    rw [hnote]
    refine ⟨rest, hcoherent, hvalid, h.balanced.take, fun k hk => ?_⟩
    rcases List.mem_cons.mp hk with rfl | hk
    · exact ⟨by omega, hcount ▸ hhi⟩
    · exact hcount ▸ h.inFile k hk
  · have hnote : noteAllocated x.machine.header.pageCount x.ledger (.ok id) = x.ledger.grow id :=
      if_pos (by omega)
    rw [hnote]
    have hfresh : id ∉ free := fun hmem => by have := (h.valid.inFile id hmem).2; omega
    have hunheld : id ∉ x.ledger.held := fun hmem => by have := (h.inFile id hmem).2; omega
    refine ⟨free, hcoherent, hvalid, h.balanced.grow hfresh hunheld, fun k hk => ?_⟩
    show 1 ≤ k ∧ k ≤ s.header.pageCount
    rcases List.mem_cons.mp hk with rfl | hk
    · omega
    · have := h.inFile k hk
      omega

theorem mem_held_give {l : Ledger Nat} {id k : Nat} (hk : k ∈ (l.give id).held) : k ∈ l.held := by
  unfold Ledger.give at hk
  split at hk
  · exact List.mem_of_mem_erase hk
  · exact hk

/-- Freeing a page that is not free. -/
theorem Kept.freed (h : Kept first x free) {id : Nat} {s : Machine}
    (hfreed : Freed id x.machine s) (hid : id ∉ free) :
    Kept first ⟨s, x.ledger.give id⟩ (id :: free) where
  coherent := hfreed.coherent
  valid := hfreed.validFreelist h.valid hid
  balanced := h.balanced.give hid
  inFile := by
    intro k hk
    show 1 ≤ k ∧ k ≤ s.header.pageCount
    rw [hfreed.header]
    exact h.inFile k (mem_held_give hk)

/-- Where the branch that goes wrong is not taken: an allocation finds the head trunk
bare, and nobody frees or writes a page that is free. -/
def Meets (s : Machine) : Op → Prop
  | .allocatePage => HeadIsBare s
  | .freePage id => ∀ free, ValidFreelist s free → id ∉ free
  | .mutate id _ => ∀ free, ValidFreelist s free → id ∉ free
  | _ => True

theorem exec_of_post {α : Type} {m : MachineM α} {s : Machine} {P : Machine → Prop}
    (h : Post m s (fun _ => P) fun _ => P) : P (m.exec s) := by
  unfold Post at h
  unfold Prog.exec
  rcases hrun : m s with ⟨e | a, s'⟩ <;> rw [hrun] at h <;> exact h

/-- One operation keeps the books. -/
theorem Kept.call (h : Kept first x free) {op : Op} (hmeets : Meets x.machine op) :
    ∃ free', Kept first (x.call op) free' := by
  cases op with
  | allocatePage =>
      have hspec := allocatePage_spec h.coherent
      unfold Post at hspec
      rw [call_allocatePage]
      rcases hrun : allocatePage x.machine with ⟨e | id, s⟩ <;> rw [hrun] at hspec
      · exact ⟨free, h.sameView hspec⟩
      · exact h.allocated hspec hmeets
  | freePage id =>
      have hspec := freePage_spec h.coherent id
      have hid := hmeets free h.valid
      unfold Post at hspec
      rw [call_freePage]
      rcases hrun : freePage id x.machine with ⟨e | u, s⟩ <;> rw [hrun] at hspec
      · exact ⟨free, h.sameBut hspec hid⟩
      · exact ⟨id :: free, h.freed hspec hid⟩
  | mutate id p => exact ⟨free, h.sameBut (mutate_view h.coherent id p) (hmeets free h.valid)⟩
  | getPage id =>
      refine ⟨free, h.sameView (exec_of_post ?_)⟩
      exact (getPage_view h.coherent id).bind (fun _ _ hview => hview.1) fun _ _ he => he
  | getPageForWrite id =>
      refine ⟨free, h.sameView (exec_of_post ?_)⟩
      exact (getPageForWrite_view h.coherent id).bind (fun _ _ hview => hview.1) fun _ _ he => he
  | unpin id => exact ⟨free, h.sameView (unpin_view h.coherent id).1⟩
  | evict => exact ⟨free, h.sameView (evictOne_view h.coherent).1⟩
  | bumpSchemaCookie =>
      exact ⟨free, h.coherent.withHeader _, ⟨h.valid.chain, h.valid.nodup, h.valid.inFile,
        h.valid.count⟩, h.balanced, h.inFile⟩

/-- Every operation of a run meets the condition where it stands. -/
def RunMeets (x : Session) : List Op → Prop
  | [] => True
  | op :: ops => Meets x.machine op ∧ RunMeets (x.call op) ops

theorem Kept.run (h : Kept first x free) {ops : List Op} (hmeets : RunMeets x ops) :
    ∃ free', Kept first (run ops x) free' := by
  induction ops generalizing x free with
  | nil => exact ⟨free, h⟩
  | cons op ops ih =>
      obtain ⟨free', hnext⟩ := h.call hmeets.1
      exact ih hnext hmeets.2

theorem kept_start {s : Machine} (hs : s.Coherent) (hfree : ValidFreelist s free) :
    Kept free (start s) free where
  coherent := hs
  valid := hfree
  balanced := Ledger.balanced_empty hfree.nodup
  inFile := fun _ hk => nomatch hk

/-! ## What goes wrong otherwise -/

/-- An allocation that returned keeps a freelist exactly when the head trunk was bare. -/
theorem allocated_valid_iff {s s' : Machine} {id : Nat} (halloc : Allocated s id s')
    (hvalid : ValidFreelist s free) : (∃ free', ValidFreelist s' free') ↔ HeadIsBare s := by
  constructor
  · rintro ⟨free', h'⟩
    cases halloc with
    | grew hcount _ _ _ => exact .inl hcount
    | reused hcount hs' hheader hpage =>
        obtain ⟨rest, hfree, hrest⟩ := hvalid.uncons hcount
        have hchain := h'.chain
        rw [hheader, hpage] at hchain
        obtain rfl := hrest.unique hchain
        have hold := hvalid.count
        have hnew := h'.count
        rw [hheader] at hnew
        change s.header.freelistCount - 1 = rest.length at hnew
        rw [hfree, List.length_cons, List.length_append] at hold
        exact .inr (List.length_eq_zero_iff.mp (by omega))
  · intro hbare
    rcases halloc.validFreelist hvalid hbare with ⟨rest, -, h', -⟩ | ⟨-, -, h'⟩
    · exact ⟨rest, h'⟩
    · exact ⟨free, h'⟩

/-- A free that returned keeps a freelist exactly when the page was not free. -/
theorem freed_valid_iff {s s' : Machine} {id : Nat} (hfreed : Freed id s s')
    (hvalid : ValidFreelist s free) : (∃ free', ValidFreelist s' free') ↔ id ∉ free := by
  constructor
  · rintro ⟨free', h'⟩ hmem
    have hnode : trunkNode (s'.page id) = ⟨s.header.freelistTrunk, []⟩ := by
      rw [hfreed.freed, trunkNode_freePageImage hfreed.trunk_lt]
    have hhead : s'.header.freelistTrunk = id := by rw [hfreed.header]; rfl
    have hone := hfreed.one_le
    obtain ⟨rest, hfree, hrest⟩ := h'.chain.uncons (by rw [hhead]; omega)
    rw [hhead, hnode] at hfree hrest
    rw [List.nil_append] at hfree
    -- The rest of the new list never meets `id`, so it is the old list.
    have hfresh : id ∉ rest := (List.nodup_cons.mp (hfree ▸ h'.nodup)).1
    have hold : Chain (fun k => trunkNode (s.page k)) 0 s.header.freelistTrunk rest :=
      hrest.congr fun k hk => congrArg trunkNode (hfreed.page k fun heq => hfresh (heq ▸ hk)).symm
    exact hfresh (hvalid.chain.unique hold ▸ hmem)
  · exact fun hid => ⟨id :: free, hfreed.validFreelist hvalid hid⟩

end Session

/-- Over any freelist of the file format, every run whose operations all meet the
condition ends with the books in order. -/
theorem freelist_sound {s : Machine} {free : List Nat} (hs : s.Coherent)
    (hfree : ValidFreelist s free) (ops : List Op)
    (hmeets : Session.RunMeets (Session.start s) ops) :
    Session.Sound free (Session.run ops (Session.start s)) := by
  obtain ⟨free', hkept⟩ := (Session.kept_start hs hfree).run hmeets
  exact hkept.sound

namespace Session

/-- A file of three pages at the start of a transaction.  Its only trunk is page 2. -/
def oneTrunk (leaves : Nat) (trunk : Bytes) : Machine where
  storage := ⟨⟨[Page.zero.overwrite (FileHeader.layout
      { pageCount := 3, freelistTrunk := 2, freelistCount := leaves + 1 } ++
        [0x0d, 0, 0, 0, 0, 0x10, 0, 0]),
    Page.zero.overwrite trunk, Page.zero], []⟩, none,
    { pageCount := 3, freelistTrunk := 2, freelistCount := leaves + 1 }⟩
  capacity := 128
  cache := []
  txn := ⟨none, [], 3, false⟩
  entropy := 7

theorem oneTrunk_coherent (leaves : Nat) (trunk : Bytes) : (oneTrunk leaves trunk).Coherent :=
  ⟨List.nodup_nil, nofun, nofun⟩

theorem oneTrunk_chain (leaves : Nat) (trunk : Bytes) (free : List Nat)
    (hnode : trunkNode ((oneTrunk leaves trunk).page 2) = ⟨0, free⟩) :
    Chain (fun id => trunkNode ((oneTrunk leaves trunk).page id)) 0 2 (2 :: (free ++ [])) :=
  .of_node (by decide) hnode .nil

/-- A bare trunk, as `free_page` leaves it. -/
theorem oneTrunk_bare : ValidFreelist (oneTrunk 0 (u32 0 ++ u32 0)) [2] where
  chain := oneTrunk_chain 0 (u32 0 ++ u32 0) [] rfl
  nodup := List.nodup_singleton 2
  inFile := by decide
  count := rfl

/-- A trunk that lists page 3, as sqlite3 may leave it. -/
theorem oneTrunk_leaf : ValidFreelist (oneTrunk 1 (u32 0 ++ u32 1 ++ u32 3)) [2, 3] where
  chain := oneTrunk_chain 1 (u32 0 ++ u32 1 ++ u32 3) [3] rfl
  nodup := by decide
  inFile := by decide
  count := rfl

end Session

/-- Freeing page 3 of a file with a bare trunk and allocating three times. -/
theorem freelist_sound_bare :
    Session.Sound [2] (Session.run [.freePage 3, .allocatePage, .allocatePage, .allocatePage]
      (Session.start (Session.oneTrunk 0 (u32 0 ++ u32 0)))) :=
  freelist_sound (Session.oneTrunk_coherent _ _) Session.oneTrunk_bare _
    ⟨fun free hfree => by rw [hfree.unique Session.oneTrunk_bare]; decide,
      .inr rfl, .inr rfl, .inl rfl, trivial⟩

/-- A trunk that lists page 3: taking the trunk loses the leaf, and the next allocation
asks for page 0. -/
theorem freelist_loses_leaf :
    (Session.oneTrunk 1 (u32 0 ++ u32 1 ++ u32 3)).Coherent ∧
      ValidFreelist (Session.oneTrunk 1 (u32 0 ++ u32 1 ++ u32 3)) [2, 3] ∧
      ¬ Session.Sound [2, 3] (Session.run [.allocatePage]
        (Session.start (Session.oneTrunk 1 (u32 0 ++ u32 1 ++ u32 3)))) ∧
      (allocatePage (Session.run [.allocatePage]
        (Session.start (Session.oneTrunk 1 (u32 0 ++ u32 1 ++ u32 3)))).machine).1 =
          .error (.pageOutOfRange "") := by
  refine ⟨Session.oneTrunk_coherent _ _, Session.oneTrunk_leaf, ?_, rfl⟩
  rintro ⟨free, hvalid, -⟩
  have hrun : allocatePage (Session.oneTrunk 1 (u32 0 ++ u32 1 ++ u32 3)) =
      (.ok 2, allocatePage.exec (Session.oneTrunk 1 (u32 0 ++ u32 1 ++ u32 3))) := apply_eq rfl
  have halloc := (allocatePage_spec (Session.oneTrunk_coherent _ _)).ok hrun
  have hbare := (Session.allocated_valid_iff halloc Session.oneTrunk_leaf).mp ⟨free, hvalid⟩
  rcases hbare with hzero | hleaves
  · cases hzero
  · cases hleaves

end QuillDb
