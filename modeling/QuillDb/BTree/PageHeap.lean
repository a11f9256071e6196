/-
  BTree/PageHeap.lean --- which pages of a store are in use, and for what.

  `Live s img` says that the pages of the list `img` are in use, with that
  content, each once and none of them on the freelist.  The list counts up to
  permutation, so that an operation is specified by the entries it touches and
  the rest is its frame; a page that it forgets is lost, as after an exception.
  `E` collects the exceptions an operation may raise.
-/
import QuillDb.BTree.PageStore
import Mathlib.Data.List.Perm.Subperm
import Mathlib.Data.List.Range

set_option autoImplicit false

namespace QuillDb

/-- Pages with their content. -/
abbrev Image : Type := List (Nat × PageContent)

/-- The packing of a page number that needs more than four bytes. -/
def tooBig : DbError := .overflowError "int too big to convert"

/-- A body that was serialized did fit. -/
def PageContent.Fits : PageContent → Prop
  | .body b => b.usedBytes ≤ pageSize
  | .link _ _ => True

/-- A b-tree page with at least one cell, or another page. -/
def PageContent.HasCells : PageContent → Prop
  | .body b => b.cellSizes ≠ []
  | .link _ _ => True

instance : (content : PageContent) → Decidable content.Fits
  | .body b => inferInstanceAs (Decidable (b.usedBytes ≤ pageSize))
  | .link _ _ => .isTrue trivial

instance : (content : PageContent) → Decidable content.HasCells
  | .body b => inferInstanceAs (Decidable (b.cellSizes ≠ []))
  | .link _ _ => .isTrue trivial

/-- No b-tree page among them is empty. -/
def Celled (img : Image) : Prop := ∀ p ∈ img, p.2.HasCells

instance (img : Image) : Decidable (Celled img) :=
  inferInstanceAs (Decidable (∀ p ∈ img, p.2.HasCells))

/-- The free pages, from the head of the list; their numbers fit four bytes. -/
def FreeList (pages : Nat → PageContent) : Nat → List Nat → Prop
  | trunk, [] => trunk < 2 ^ 32
  | trunk, id :: ids => trunk = id ∧ id < 2 ^ 32 ∧
      ∃ next content, pages id = .link next content ∧ FreeList pages next ids

/-- So are they, and the last of them points at `stop`. -/
def FreeListTo (stop : Nat) (pages : Nat → PageContent) : Nat → List Nat → Prop
  | trunk, [] => trunk = stop ∧ stop < 2 ^ 32
  | trunk, id :: ids => trunk = id ∧ id < 2 ^ 32 ∧
      ∃ next content, pages id = .link next content ∧ FreeListTo stop pages next ids

/-- The page numbers fit four bytes. -/
def Small (img : Image) : Prop := ∀ i ∈ img.map Prod.fst, i < 2 ^ 32

instance (img : Image) : Decidable (Small img) :=
  inferInstanceAs (Decidable (∀ i ∈ img.map Prod.fst, i < 2 ^ 32))

/-- They do but for that of `r`, which no pointer holds yet. -/
def SmallBut (r : Nat) (img : Image) : Prop := ∀ i ∈ img.map Prod.fst, i ≠ r → i < 2 ^ 32

theorem SmallBut.small {r : Nat} {img : Image} (h : SmallBut r img) (hr : r < 2 ^ 32) : Small img := by
  intro i hi
  by_cases heq : i = r
  · exact heq ▸ hr
  · exact h i hi heq

/-- The pages of `img` are in use, besides the header page. -/
structure Live (s : PageStore) (img : Image) : Prop where
  free : ∃ fl lost, s.freelistCount = fl.length ∧ FreeList s.pages s.freelistTrunk fl ∧
    (1 :: (img.map Prod.fst ++ (fl ++ lost))).Perm (List.range' 1 s.pageCount)
  holds : ∀ p ∈ img, s.pages p.1 = p.2
  fits : ∀ p ∈ img, p.2.Fits

/-- What no operation on the trees touches: page 1, pages that nothing refers to,
and the pointer of the last free page. -/
structure Residue where
  header : PageContent
  pages : List Nat
  stop : Nat

/-- The pages of `img` are in use, and none but those of `lost` is lost. -/
structure LiveBut (lost : Residue) (s : PageStore) (img : Image) : Prop where
  free : ∃ fl, s.freelistCount = fl.length ∧ FreeListTo lost.stop s.pages s.freelistTrunk fl ∧
    (1 :: (img.map Prod.fst ++ (fl ++ lost.pages))).Perm (List.range' 1 s.pageCount)
  holds : ∀ p ∈ img, s.pages p.1 = p.2
  fits : ∀ p ∈ img, p.2.Fits
  header : s.pages 1 = lost.header

theorem FreeListTo.freeList {stop : Nat} {pages : Nat → PageContent} {trunk : Nat} {fl : List Nat}
    (h : FreeListTo stop pages trunk fl) : FreeList pages trunk fl := by
  induction fl generalizing trunk with
  | nil => exact h.1 ▸ h.2
  | cons id ids ih =>
      obtain ⟨htrunk, hsmall, next, content, hid, hrest⟩ := h
      exact ⟨htrunk, hsmall, next, content, hid, ih hrest⟩

theorem FreeList.exists_stop {pages : Nat → PageContent} {trunk : Nat} {fl : List Nat}
    (h : FreeList pages trunk fl) : ∃ stop, FreeListTo stop pages trunk fl := by
  induction fl generalizing trunk with
  | nil => exact ⟨trunk, rfl, h⟩
  | cons id ids ih =>
      obtain ⟨htrunk, hsmall, next, content, hid, hrest⟩ := h
      exact (ih hrest).imp fun _ hstop => ⟨htrunk, hsmall, next, content, hid, hstop⟩

theorem FreeListTo.trunk_lt {stop : Nat} {pages : Nat → PageContent} {trunk : Nat} {fl : List Nat}
    (h : FreeListTo stop pages trunk fl) : trunk < 2 ^ 32 := by
  cases fl with
  | nil => exact h.1 ▸ h.2
  | cons id ids => exact h.1 ▸ h.2.1

theorem FreeListTo.congr {stop : Nat} {pages pages' : Nat → PageContent} {trunk : Nat}
    {fl : List Nat} (h : FreeListTo stop pages trunk fl) (heq : ∀ i ∈ fl, pages' i = pages i) :
    FreeListTo stop pages' trunk fl := by
  induction fl generalizing trunk with
  | nil => exact h
  | cons id ids ih =>
      obtain ⟨htrunk, hsmall, next, content, hid, hrest⟩ := h
      refine ⟨htrunk, hsmall, next, content, ?_,
        ih hrest fun i hi => heq i (List.mem_cons_of_mem _ hi)⟩
      rw [heq id (List.mem_cons_self ..), hid]

namespace LiveBut

variable {lost : Residue} {s : PageStore} {img img' : Image} {id : Nat} {c : PageContent}

theorem live (h : LiveBut lost s img) : Live s img := by
  obtain ⟨fl, hcount, hlist, hids⟩ := h.free
  exact ⟨⟨fl, lost.pages, hcount, hlist.freeList, hids⟩, h.holds, h.fits⟩

theorem perm (h : LiveBut lost s img) (hperm : img.Perm img') : LiveBut lost s img' := by
  obtain ⟨fl, hcount, hlist, hids⟩ := h.free
  refine ⟨⟨fl, hcount, hlist, ?_⟩, fun p hp => h.holds p (hperm.mem_iff.mpr hp),
    fun p hp => h.fits p (hperm.mem_iff.mpr hp), h.header⟩
  exact (((hperm.map Prod.fst).append_right (fl ++ lost.pages)).cons 1).symm.trans hids

end LiveBut

namespace Live

variable {s : PageStore} {img img' : Image} {id : Nat} {c : PageContent}

theorem exists_lost (h : Live s img) : ∃ lost, LiveBut lost s img := by
  obtain ⟨fl, lost, hcount, hlist, hids⟩ := h.free
  obtain ⟨stop, hstop⟩ := hlist.exists_stop
  exact ⟨⟨s.pages 1, lost, stop⟩, ⟨fl, hcount, hstop, hids⟩, h.holds, h.fits, rfl⟩

theorem perm (h : Live s img) (hperm : img.Perm img') : Live s img' := by
  obtain ⟨lost, hlost⟩ := h.exists_lost
  exact (hlost.perm hperm).live

/-- Losing track of pages. -/
theorem forget (gone : Image) (h : Live s (gone ++ img)) : Live s img := by
  obtain ⟨fl, lost, hcount, hlist, hids⟩ := h.free
  refine ⟨⟨fl, gone.map Prod.fst ++ lost, hcount, hlist, List.Perm.trans ?_ hids⟩,
    fun p hp => h.holds p (List.mem_append_right _ hp),
    fun p hp => h.fits p (List.mem_append_right _ hp)⟩
  rw [List.map_append, List.perm_iff_count]
  intro i
  simp only [List.count_cons, List.count_append]
  omega

theorem forget_right (h : Live s (img ++ img')) : Live s img :=
  (h.perm List.perm_append_comm).forget img'

theorem tail {p : Nat × PageContent} (h : Live s (p :: img)) : Live s img :=
  h.forget [p]

theorem ids_nodup (h : Live s img) : (img.map Prod.fst).Nodup := by
  obtain ⟨fl, lost, -, -, hids⟩ := h.free
  have hnodup := hids.nodup_iff.mpr List.nodup_range'
  exact (List.nodup_append.mp (List.nodup_cons.mp hnodup).2).1

theorem mem_range (h : Live s img) (hid : id ∈ img.map Prod.fst) : 2 ≤ id ∧ id ≤ s.pageCount := by
  obtain ⟨fl, lost, -, -, hids⟩ := h.free
  have hne := (List.nodup_cons.mp (hids.nodup_iff.mpr List.nodup_range')).1
  have hmem := hids.mem_iff.mp (List.mem_cons_of_mem 1 (List.mem_append_left (fl ++ lost) hid))
  have hrange := List.mem_range'_1.mp hmem
  have hone : id ≠ 1 := by
    intro heq
    rw [heq] at hid
    exact hne (List.mem_append_left _ hid)
  omega

/-- Pages in use are pages of the file. -/
theorem length_lt (h : Live s img) : img.length < s.pageCount := by
  obtain ⟨fl, lost, -, -, hids⟩ := h.free
  have hlen := hids.length_eq
  rw [List.length_cons, List.length_append, List.length_map, List.length_range'] at hlen
  omega

end Live

namespace LiveBut

variable {lost : Residue} {s : PageStore} {img img' : Image} {id : Nat} {c : PageContent}

/-- Losing track of more pages. -/
theorem forget (gone : Image) (h : LiveBut lost s (gone ++ img)) : Live s img := h.live.forget gone

theorem ids_nodup (h : LiveBut lost s img) : (img.map Prod.fst).Nodup := h.live.ids_nodup

theorem mem_range (h : LiveBut lost s img) (hid : id ∈ img.map Prod.fst) :
    2 ≤ id ∧ id ≤ s.pageCount := h.live.mem_range hid

theorem length_lt (h : LiveBut lost s img) : img.length < s.pageCount := h.live.length_lt

/-- Overwriting a page in use. -/
theorem set (h : LiveBut lost s ((id, c) :: img)) (c' : PageContent) (hfits : c'.Fits) :
    LiveBut lost (s.set id c') ((id, c') :: img) := by
  obtain ⟨fl, hcount, hlist, hids⟩ := h.free
  have hnodup := (List.nodup_cons.mp (hids.nodup_iff.mpr List.nodup_range')).2
  have hfree : ∀ i ∈ fl, (s.set id c').pages i = s.pages i := by
    intro i hi
    refine if_neg fun heq => ?_
    rw [heq] at hi
    exact (List.nodup_append.mp hnodup).2.2 id (List.mem_cons_self ..) id
      (List.mem_append_left lost.pages hi) rfl
  refine ⟨⟨fl, hcount, hlist.congr hfree, hids⟩, fun p hp => ?_, fun p hp => ?_, ?_⟩
  · rcases List.mem_cons.mp hp with rfl | hp
    · exact if_pos rfl
    · refine (if_neg fun heq => ?_).trans (h.holds p (List.mem_cons_of_mem _ hp))
      have hp' : id ∈ img.map Prod.fst := by
        rw [← heq]
        exact List.mem_map_of_mem hp
      exact (List.nodup_cons.mp h.ids_nodup).1 hp'
  · rcases List.mem_cons.mp hp with rfl | hp
    · exact hfits
    · exact h.fits p (List.mem_cons_of_mem _ hp)
  · have hrange := h.mem_range (List.mem_cons_self ..)
    exact (if_neg (by omega)).trans h.header

/-- Overwriting page 1. -/
theorem set_header (h : LiveBut lost s img) (c : PageContent) :
    LiveBut { lost with header := c } (s.set 1 c) img := by
  obtain ⟨fl, hcount, hlist, hids⟩ := h.free
  have hone := (List.nodup_cons.mp (hids.nodup_iff.mpr List.nodup_range')).1
  have hfree : ∀ i ∈ fl, (s.set 1 c).pages i = s.pages i := fun i hi => by
    refine if_neg fun heq => hone ?_
    rw [← heq]
    exact List.mem_append_right _ (List.mem_append_left _ hi)
  refine ⟨⟨fl, hcount, hlist.congr hfree, hids⟩, fun p hp => ?_, h.fits, rfl⟩
  have hne : p.1 ≠ 1 := fun heq => hone (heq ▸ List.mem_append_left _ (List.mem_map_of_mem hp))
  exact (if_neg hne).trans (h.holds p hp)

end LiveBut

namespace PageStore

open Prog

variable {lost : Residue} {s : PageStore} {img : Image} {id : Nat} {c : PageContent} {b : PageBody}
variable {E : DbError → PageStore → Prop}

/-! ## Single pages -/

theorem getPage_live (h : Live s img) (hmem : (id, c) ∈ img) : getPage id s = (.ok c, s) := by
  have hrange := h.mem_range (List.mem_map_of_mem hmem)
  have hin : 1 ≤ id ∧ id ≤ s.pageCount := ⟨by omega, hrange.2⟩
  rw [getPage, bind_of_ok (state_apply s), if_pos hin, h.holds _ hmem]
  rfl

theorem readBody_live (h : Live s img) (hmem : (id, .body b) ∈ img) :
    readBody id s = (.ok b, s) := by
  rw [readBody, bind_of_ok (getPage_live h hmem)]
  rfl

theorem post_toBytes4 {Q : Bytes → PageStore → Prop} {n : Nat} (hover : 2 ^ 32 ≤ n → E tooBig s)
    (hQ : n < 2 ^ 32 → Q (u32 n) s) : Post (lift (toBytes4 n)) s Q E := by
  unfold toBytes4
  split
  · exact hQ ‹_›
  · exact hover (Nat.le_of_not_lt ‹_›)

/-- Serializing a body that fits into a page in use. -/
theorem writeBody_post (hover : 2 ^ 32 ≤ b.rightChild → E tooBig s) (h : LiveBut lost s ((id, c) :: img))
    (hfit : pageSize < b.usedBytes → E (.pageFull "The current page body exceeded the limit") s) :
    Post (writeBody id b) s
      (fun _ s' => LiveBut lost s' ((id, .body b) :: img) ∧ b.rightChild < 2 ^ 32) E := by
  rw [writeBody, post_bind, post_raiseIf]
  refine ⟨hfit, fun hle => ?_⟩
  rw [post_bind]
  exact post_toBytes4 hover fun hsmall => ⟨h.set _ (Nat.le_of_not_lt hle), hsmall⟩

/-- Overwriting a page frees none. -/
theorem writeBody_count (id : Nat) (b : PageBody) :
    Post (writeBody id b) s (fun _ s' => s'.freelistCount = s.freelistCount) fun _ _ => True := by
  rw [writeBody, post_bind, post_raiseIf]
  refine ⟨fun _ => trivial, fun _ => ?_⟩
  rw [post_bind]
  exact post_toBytes4 (fun _ => trivial) fun _ => rfl

theorem initBody_post (hover : 2 ^ 32 ≤ b.rightChild → E tooBig s) (h : LiveBut lost s ((id, c) :: img))
    (hfit : pageSize < b.usedBytes → E (.pageFull "The current page body exceeded the limit") s) :
    Post (initBody id b) s
      (fun _ s' => LiveBut lost s' ((id, .body b) :: img) ∧ b.rightChild < 2 ^ 32) E := by
  rw [initBody, post_bind]
  exact Post.of_eq (getPage_live h.live (List.mem_cons_self ..)) (writeBody_post hover h hfit)

/-! ## Allocation -/

/-- A free page has a number of four bytes. -/
theorem allocatePage_counted (h : LiveBut lost s img) :
    Post allocatePage s (fun id s' => (∃ c, LiveBut lost s' ((id, c) :: img)) ∧
      (0 < s.freelistCount → id < 2 ^ 32 ∧ s'.freelistCount + 1 = s.freelistCount)) E := by
  obtain ⟨fl, hcount, hlist, hids⟩ := h.free
  rw [allocatePage, post_bind, post_state]
  rcases fl with _ | ⟨id, fl⟩
  · -- growth
    rw [if_neg (by rw [hcount]; exact Nat.lt_irrefl 0), post_bind, post_update, post_pure]
    have hnew : s.pageCount + 1 ∉ img.map Prod.fst := fun hmem => by
      have := (h.mem_range hmem).2
      omega
    have hpos : 0 < s.pageCount := Nat.lt_of_le_of_lt (Nat.zero_le _) h.length_lt
    refine ⟨⟨.link 0 [], ⟨[], hcount, hlist, ?_⟩, fun p hp => ?_, fun p hp => ?_,
      (if_neg (by omega)).trans h.header⟩, fun hfree => ?_⟩
    · show (1 :: (s.pageCount + 1) :: (img.map Prod.fst ++ ([] ++ lost.pages))).Perm
        (List.range' 1 (s.pageCount + 1))
      rw [List.range'_1_concat, Nat.add_comm 1 s.pageCount]
      refine (List.Perm.swap _ _ _).trans ((hids.cons _).trans ?_)
      exact (List.perm_append_singleton _ _).symm
    · rcases List.mem_cons.mp hp with rfl | hp
      · exact if_pos rfl
      · refine (if_neg fun heq => hnew ?_).trans (h.holds p hp)
        rw [← heq]
        exact List.mem_map_of_mem hp
    · rcases List.mem_cons.mp hp with rfl | hp
      · trivial
      · exact h.fits p hp
    · rw [hcount] at hfree
      exact absurd hfree (Nat.lt_irrefl 0)
  · -- reuse
    obtain ⟨htrunk, hid, next, content, hpage, hrest⟩ := hlist
    have hin : 1 ≤ id ∧ id ≤ s.pageCount := by
      have hmem := hids.mem_iff.mp (List.mem_cons_of_mem 1 (List.mem_append_right _
        (List.mem_append_left lost.pages (List.mem_cons_self (a := id) (l := fl)))))
      have := List.mem_range'_1.mp hmem
      omega
    rw [if_pos (by rw [hcount]; exact Nat.succ_pos _), post_bind, htrunk]
    have hget : getPage id s = (.ok (.link next content), s) := by
      rw [getPage, bind_of_ok (state_apply s), if_pos hin, hpage]
      rfl
    refine Post.of_eq hget ?_
    · rw [post_bind, post_update, post_pure]
      refine ⟨⟨.link next content, ⟨fl, ?_, hrest, ?_⟩, fun p hp => ?_, fun p hp => ?_, h.header⟩,
        fun hfree => ⟨hid, Nat.sub_add_cancel hfree⟩⟩
      · show s.freelistCount - 1 = fl.length
        rw [hcount, List.length_cons, Nat.add_sub_cancel]
      · refine List.Perm.trans (List.Perm.cons 1 ?_) hids
        exact List.perm_middle.symm
      · rcases List.mem_cons.mp hp with rfl | hp
        · exact hpage
        · exact h.holds p hp
      · rcases List.mem_cons.mp hp with rfl | hp
        · trivial
        · exact h.fits p hp

theorem allocatePage_post (h : LiveBut lost s img) :
    Post allocatePage s (fun id s' => ∃ c, LiveBut lost s' ((id, c) :: img)) E :=
  (allocatePage_counted h).mono (fun _ _ hs' => hs'.1) fun _ _ he => he

/-- Freeing a page in use does not raise. -/
theorem freePage_counted (h : LiveBut lost s ((id, c) :: img)) (hid : id < 2 ^ 32) :
    Post (freePage id) s (fun _ s' => LiveBut lost s' img ∧ s'.freelistCount = s.freelistCount + 1)
      E := by
  have hrange : 2 ≤ id ∧ id ≤ s.pageCount := h.mem_range (List.mem_cons_self ..)
  have htrunk : s.freelistTrunk < 2 ^ 32 := by
    obtain ⟨fl, -, hlist, -⟩ := h.free
    exact hlist.trunk_lt
  rw [freePage, post_bind, post_raiseIf]
  refine ⟨fun hone => by omega, fun _ => ?_⟩
  rw [post_bind, post_state, post_bind, post_raiseIf]
  refine ⟨fun hout => by omega, fun _ => ?_⟩
  rw [post_bind]
  refine Post.of_eq (getPage_live h.live (List.mem_cons_self ..)) ?_
  rw [post_bind]
  refine post_toBytes4 (fun hbig => absurd htrunk (Nat.not_lt.mpr hbig)) fun _ => ?_
  obtain ⟨fl, hcount, hlist, hids⟩ := (h.set (.link s.freelistTrunk []) trivial).free
  have hhead : (s.set id (.link s.freelistTrunk [])).pages id = .link s.freelistTrunk [] :=
    if_pos rfl
  have hset := h.set (.link s.freelistTrunk []) trivial
  refine ⟨⟨⟨id :: fl, ?_, ⟨rfl, hid, s.freelistTrunk, [], hhead, hlist⟩, ?_⟩,
    fun p hp => hset.holds p (List.mem_cons_of_mem _ hp),
    fun p hp => hset.fits p (List.mem_cons_of_mem _ hp), hset.header⟩, rfl⟩
  · show s.freelistCount + 1 = fl.length + 1
    exact congrArg (· + 1) hcount
  · exact (List.Perm.cons 1 List.perm_middle).trans hids

theorem freePage_post (h : LiveBut lost s ((id, c) :: img)) (hid : id < 2 ^ 32) :
    Post (freePage id) s (fun _ s' => LiveBut lost s' img) E :=
  (freePage_counted h hid).mono (fun _ _ hs' => hs'.1) fun _ _ he => he

/-- A page is serialized, and then another one is freed. -/
theorem writeBody_freePage_post {α : Type} {hole : Nat} {d : PageContent} {rest : StoreM α}
    {Q : α → PageStore → Prop} (h : LiveBut lost s ((hole, d) :: (id, c) :: img)) (hhole : hole < 2 ^ 32)
    (hright : b.rightChild < 2 ^ 32) (hfits : b.usedBytes ≤ pageSize)
    (hrest : ∀ s', LiveBut lost s' ((id, .body b) :: img) → Post rest s' Q E) :
    Post (writeBody id b >>= fun _ => freePage hole >>= fun _ => rest) s Q E := by
  refine (writeBody_post (fun hbig => absurd hright (Nat.not_lt.mpr hbig)) (h.perm (List.Perm.swap _ _ _))
    fun hlt => absurd hfits (Nat.not_le.mpr hlt)).bind (fun _ s₁ h₁ => ?_) fun _ _ he => he
  exact (freePage_post (h₁.1.perm (List.Perm.swap _ _ _)) hhole).bind (fun _ s₂ h₂ => hrest s₂ h₂)
    fun _ _ he => he

/-! ## Overflow chains -/

/-- The pages of a chain that holds `data`. -/
def chainImage : List Nat → Bytes → Image
  | [], _ => []
  | id :: ids, data =>
      (id, .link (ids.headD 0) (data.take contentPerPage)) ::
        chainImage ids (data.drop contentPerPage)

@[simp] theorem chainImage_ids (ids : List Nat) (data : Bytes) :
    (chainImage ids data).map Prod.fst = ids := by
  induction ids generalizing data with
  | nil => rfl
  | cons id ids ih => rw [chainImage, List.map_cons, ih]

/-- Chain pages are not b-tree pages. -/
theorem celled_chain (ids : List Nat) (data : Bytes) : Celled (chainImage ids data) := by
  induction ids generalizing data with
  | nil => exact fun p hp => by cases hp
  | cons id ids ih =>
      intro p hp
      rcases List.mem_cons.mp hp with rfl | hp
      · trivial
      · exact ih _ p hp

theorem chainLength_zero : chainLength 0 = 0 := by decide

theorem chainLength_succ {n k : Nat} (h : chainLength n = k + 1) :
    0 < n ∧ chainLength (n - contentPerPage) = k := by
  have hcpp : contentPerPage = 4092 := rfl
  unfold chainLength at h ⊢
  rw [hcpp] at h ⊢
  omega

theorem eq_zero_of_chainLength {n : Nat} (h : chainLength n = 0) : n = 0 := by
  have hcpp : contentPerPage = 4092 := rfl
  unfold chainLength at h
  rw [hcpp] at h
  omega

theorem allocatePages_post (n : Nat) (h : LiveBut lost s img) :
    Post (allocatePages n) s (fun ids s' => ids.length = n ∧
      (n ≤ s.freelistCount → ∀ i ∈ ids, i < 2 ^ 32) ∧ ∃ old : Image,
        old.map Prod.fst = ids ∧ LiveBut lost s' (old ++ img)) E := by
  induction n generalizing s img with
  | zero => exact ⟨rfl, fun _ => List.forall_mem_nil _, [], rfl, h⟩
  | succ n ih =>
      rw [allocatePages, post_bind]
      refine (allocatePage_counted (E := E) h).mono (fun id s₁ h₁ => ?_) fun _ _ he => he
      obtain ⟨⟨c, h₁⟩, hfree⟩ := h₁
      rw [post_bind]
      refine (ih h₁).mono (fun ids s₂ h₂ => ?_) fun _ _ he => he
      obtain ⟨hlen, hids, old, hold, h₂⟩ := h₂
      refine ⟨congrArg (· + 1) hlen, fun hroom => ?_, (id, c) :: old, ?_, h₂.perm List.perm_middle⟩
      · obtain ⟨hid, hcount⟩ := hfree (Nat.lt_of_lt_of_le (Nat.succ_pos n) hroom)
        exact List.forall_mem_cons.mpr ⟨hid, hids (by omega)⟩
      · rw [List.map_cons, hold]

theorem fillChain_post (old : Image)
    (hover : (∀ i ∈ old.map Prod.fst, i < 2 ^ 32) ∨ ∀ s', Live s' img → E tooBig s') (data : Bytes)
    (h : LiveBut lost s (old ++ img)) :
    Post (fillChain (old.map Prod.fst) data) s
      (fun _ s' => LiveBut lost s' (chainImage (old.map Prod.fst) data ++ img) ∧
        ∀ i ∈ (old.map Prod.fst).tail, i < 2 ^ 32) E := by
  induction old generalizing s img data with
  | nil => exact ⟨h, fun i hi => by cases hi⟩
  | cons p old ih =>
      obtain ⟨id, c⟩ := p
      rw [List.map_cons, fillChain, post_bind]
      refine Post.of_eq (getPage_live h.live (List.mem_cons_self ..)) ?_
      rw [post_bind]
      refine post_toBytes4 (fun hbig => ?_) fun hnext => ?_
      · refine (hover.resolve_left fun hsmall => ?_) s (h.forget _)
        have hzero : 0 < 2 ^ 32 := Nat.two_pow_pos 32
        rcases old with _ | ⟨⟨next, _⟩, old⟩
        · exact absurd hzero (Nat.not_lt.mpr hbig)
        · exact absurd (hsmall next (List.mem_cons_of_mem _ (List.mem_cons_self ..)))
            (Nat.not_lt.mpr hbig)
      rw [post_bind, post_update]
      have hset := h.set (.link ((old.map Prod.fst).headD 0) (data.take contentPerPage)) trivial
      refine (ih (hover.imp (fun hsmall i hi => hsmall i (List.mem_cons_of_mem _ hi))
        fun hover s' h' => hover s' h'.tail) (data.drop contentPerPage)
        (hset.perm List.perm_middle.symm)).mono (fun _ s' hs' => ?_) fun _ _ he => he
      obtain ⟨hlive, htail⟩ := hs'
      refine ⟨hlive.perm List.perm_middle, ?_⟩
      rw [List.tail_cons]
      generalize old.map Prod.fst = ids at hnext htail
      rcases ids with _ | ⟨next, ids⟩
      · exact fun i hi => by cases hi
      · intro i hi
        rcases List.mem_cons.mp hi with rfl | hi
        · exact hnext
        · exact htail i hi

/-- With free pages enough, no page number is too big. -/
theorem writeOverflowChain_post {data : Bytes}
    (hover : chainLength data.length ≤ s.freelistCount ∨ ∀ s', Live s' img → E tooBig s')
    (hne : data ≠ []) (h : LiveBut lost s img) :
    Post (writeOverflowChain data) s (fun first s' => ∃ ids, ids.length = chainLength data.length ∧
      first = ids.headD 0 ∧ (∀ i ∈ ids.tail, i < 2 ^ 32) ∧
        (chainLength data.length ≤ s.freelistCount → ∀ i ∈ ids, i < 2 ^ 32) ∧
          LiveBut lost s' (chainImage ids data ++ img)) E := by
  rw [writeOverflowChain, post_bind, post_raiseIf]
  refine ⟨fun heq => absurd heq hne, fun _ => ?_⟩
  rw [post_bind]
  refine (allocatePages_post (E := E) _ h).mono (fun ids s₁ h₁ => ?_) fun _ _ he => he
  obtain ⟨hlen, hids, old, rfl, h₁⟩ := h₁
  rw [post_bind]
  exact (fillChain_post old (hover.imp_left hids) data h₁).mono
    (fun _ s₂ h₂ => ⟨_, hlen, rfl, h₂.2, hids, h₂.1⟩) fun _ _ he => he

theorem readChainFrom_live (h : Live s img) {ids : List Nat} {data : Bytes} {fuel : Nat}
    {visited : List Nat} (hsub : chainImage ids data ⊆ img) (hlen : ids.length = chainLength data.length)
    (hfuel : ids.length < fuel) (hnodup : ids.Nodup) (hvisited : ∀ i ∈ ids, i ∉ visited) :
    readChainFrom fuel visited (ids.headD 0) data.length s = (.ok data, s) := by
  induction ids generalizing data fuel visited with
  | nil =>
      obtain ⟨fuel, rfl⟩ : ∃ n, fuel = n + 1 := ⟨fuel - 1, by omega⟩
      have hdata := List.length_eq_zero_iff.mp (eq_zero_of_chainLength hlen.symm)
      rw [hdata]
      rfl
  | cons id ids ih =>
      obtain ⟨fuel, rfl⟩ : ∃ n, fuel = n + 1 := ⟨fuel - 1, by omega⟩
      obtain ⟨hpos, hrest⟩ := chainLength_succ hlen.symm
      have hmem : (id, PageContent.link (ids.headD 0) (data.take contentPerPage)) ∈ img :=
        hsub (List.mem_cons_self ..)
      have hid := h.mem_range (List.mem_map_of_mem hmem)
      have hnot := List.nodup_cons.mp hnodup
      rw [readChainFrom, List.headD_cons, if_neg (by omega), if_neg (hvisited id (List.mem_cons_self ..)),
        bind_of_ok (getPage_live h hmem)]
      have htail : (data.drop contentPerPage).length = data.length - min contentPerPage data.length := by
        rw [List.length_drop]
        omega
      have hstep := @ih (data.drop contentPerPage) fuel (id :: visited)
        (fun p hp => hsub (List.mem_cons_of_mem _ hp)) (by rw [List.length_drop, hrest])
        (by rw [List.length_cons] at hfuel; omega) hnot.2 (fun i hi => by
          rw [List.mem_cons]
          rintro (rfl | hseen)
          · exact hnot.1 hi
          · exact hvisited i (List.mem_cons_of_mem _ hi) hseen)
      rw [htail] at hstep
      simp only [PageContent.firstWord, PageContent.content]
      rw [bind_of_ok hstep, pure_apply]
      have hchunk : (data.take contentPerPage ++ zeros (min contentPerPage data.length)).take
          (min contentPerPage data.length) = data.take contentPerPage := by
        rw [List.take_append_of_le_length (by rw [List.length_take]), List.take_take]
        rcases Nat.le_total contentPerPage data.length with hle | hle
        · rw [Nat.min_eq_left hle, Nat.min_self]
        · rw [Nat.min_eq_right hle, Nat.min_eq_left hle, List.take_length, List.take_of_length_le hle]
      rw [hchunk, List.take_append_drop]

/-- A chain reads back as what it was written from. -/
theorem readOverflowChain_live (h : Live s img) {ids : List Nat} {data : Bytes}
    (hsub : chainImage ids data ⊆ img) (hlen : ids.length = chainLength data.length)
    (hnodup : ids.Nodup) :
    readOverflowChain (ids.headD 0) data.length s = (.ok data, s) := by
  have hids : ids.length ≤ img.length := by
    have hsubset : ids ⊆ img.map Prod.fst := by
      rw [← chainImage_ids ids data]
      exact List.map_subset _ hsub
    have := (List.subperm_of_subset hnodup hsubset).length_le
    rwa [List.length_map] at this
  have hcount := h.length_lt
  rw [readOverflowChain, bind_of_ok (state_apply s)]
  exact readChainFrom_live h hsub hlen (by omega) hnodup fun i _ => List.not_mem_nil

theorem freeChainFrom_post {ids : List Nat} {data : Bytes} {fuel : Nat}
    {visited : List Nat} (h : LiveBut lost s (chainImage ids data ++ img)) (hsmall : ∀ i ∈ ids, i < 2 ^ 32)
    (hfuel : ids.length < fuel) (hvisited : ∀ i ∈ ids, i ∉ visited) :
    Post (freeChainFrom fuel visited (ids.headD 0)) s (fun _ s' => LiveBut lost s' img ∧
      s'.freelistCount = s.freelistCount + ids.length) E := by
  induction ids generalizing s data fuel visited with
  | nil =>
      obtain ⟨fuel, rfl⟩ : ∃ n, fuel = n + 1 := ⟨fuel - 1, by omega⟩
      exact ⟨h, rfl⟩
  | cons id ids ih =>
      obtain ⟨fuel, rfl⟩ : ∃ n, fuel = n + 1 := ⟨fuel - 1, by omega⟩
      have hid : 2 ≤ id ∧ id ≤ s.pageCount := h.mem_range (List.mem_cons_self ..)
      have hnodup := h.ids_nodup
      rw [List.map_append, chainImage_ids] at hnodup
      have hnot := List.nodup_cons.mp (List.nodup_append.mp hnodup).1
      rw [freeChainFrom, List.headD_cons, if_neg (by omega),
        if_neg (hvisited id (List.mem_cons_self ..)), post_bind]
      refine Post.of_eq (getPage_live h.live (List.mem_cons_self ..)) ?_
      rw [post_bind]
      refine (freePage_counted h (hsmall id (List.mem_cons_self ..))).mono (fun _ s₁ h₁ => ?_)
        fun _ _ he => he
      obtain ⟨h₁, hcount⟩ := h₁
      refine (ih h₁ (fun i hi => hsmall i (List.mem_cons_of_mem _ hi))
        (by rw [List.length_cons] at hfuel; omega) fun i hi => ?_).mono (fun _ s₂ h₂ => ⟨h₂.1, ?_⟩)
        fun _ _ he => he
      · rw [List.mem_cons]
        rintro (rfl | hseen)
        · exact hnot.1 hi
        · exact hvisited i (List.mem_cons_of_mem _ hi) hseen
      · rw [h₂.2, hcount, List.length_cons]
        omega

/-- Freeing a chain in use does not raise. -/
theorem freeOverflowChain_post {ids : List Nat} {data : Bytes}
    (h : LiveBut lost s (chainImage ids data ++ img)) (hsmall : ∀ i ∈ ids, i < 2 ^ 32) :
    Post (freeOverflowChain (ids.headD 0)) s (fun _ s' => LiveBut lost s' img ∧
      s'.freelistCount = s.freelistCount + ids.length) E := by
  have hlen := h.length_lt
  rw [List.length_append, ← List.length_map Prod.fst, chainImage_ids] at hlen
  rw [freeOverflowChain, post_bind, post_state]
  exact freeChainFrom_post h hsmall (by omega) fun i _ => List.not_mem_nil

end PageStore

end QuillDb
