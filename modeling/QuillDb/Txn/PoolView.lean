/-
  Txn/PoolView.lean --- what the operations of the pool leave visible.

  Pins, recency, evictions and the journal do not show in the header or in any
  page; a discard or a write shows in one page.
-/
import QuillDb.Txn.Commit

set_option autoImplicit false

namespace QuillDb

open Prog Machine

namespace Machine

/-! ## What the pool shows -/

/-- One cache entry a page, and a clean one holds what the file holds. -/
structure Coherent (s : Machine) : Prop where
  keys : (s.cache.map Prod.fst).Nodup
  one_le : ∀ id f, s.cache.lookup id = some f → 1 ≤ id
  clean : ∀ id f, s.cache.lookup id = some f → f.dirty = false → f.data = s.file.page id

/-- Nothing changed that a reader of the header or of a page could see. -/
structure SameView (s s' : Machine) : Prop where
  coherent : s'.Coherent
  header : s'.header = s.header
  page : s'.page = s.page

/-- Only the journal and the transaction's notes changed. -/
structure JournalOnly (s s' : Machine) : Prop where
  cache : s'.cache = s.cache
  header : s'.header = s.header
  file : s'.file = s.file

variable {s s' s'' : Machine} {id : Nat}

theorem SameView.refl (h : s.Coherent) : SameView s s := ⟨h, rfl, rfl⟩

theorem SameView.trans (h : SameView s s') (h' : SameView s' s'') : SameView s s'' :=
  ⟨h'.coherent, h'.header.trans h.header, h'.page.trans h.page⟩

instance : Progress JournalOnly where
  refl _ := ⟨rfl, rfl, rfl⟩
  trans h h' := ⟨h'.cache.trans h.cache, h'.header.trans h.header, h'.file.trans h.file⟩

theorem page_of_lookup {f : Frame} (h : s.cache.lookup id = some f) : s.page id = f.data := by
  rw [page, h]

theorem page_of_miss (h : s.cache.lookup id = none) : s.page id = s.file.page id := by
  rw [page, h]

/-- The same entry, or the same lack of one, shows the same page. -/
theorem page_with_cache {c : Cache} (h : c.lookup id = s.cache.lookup id) :
    Machine.page { s with cache := c } id = s.page id := by
  cases hf : s.cache.lookup id with
  | some f => rw [page_of_lookup hf, page_of_lookup (s := { s with cache := c }) (h.trans hf)]
  | none =>
      rw [page_of_miss hf, page_of_miss (s := { s with cache := c }) (h.trans hf)]
      rfl

theorem JournalOnly.sameView (h : JournalOnly s s') (hs : s.Coherent) : SameView s s' := by
  refine ⟨⟨?_, ?_, ?_⟩, h.header, ?_⟩
  · rw [h.cache]
    exact hs.keys
  · rw [h.cache]
    exact hs.one_le
  · rw [h.cache, h.file]
    exact hs.clean
  · funext id
    rw [page, page, h.cache, h.file]

/-- A cache that shows every page as before. -/
theorem sameView_cache {c : Cache} (hkeys : (c.map Prod.fst).Nodup)
    (hhit : ∀ id f, c.lookup id = some f →
      1 ≤ id ∧ f.data = s.page id ∧ (f.dirty = false → f.data = s.file.page id))
    (hmiss : ∀ id, c.lookup id = none → s.page id = s.file.page id) :
    SameView s { s with cache := c } := by
  refine ⟨⟨hkeys, fun id f hf => (hhit id f hf).1, fun id f hf => (hhit id f hf).2.2⟩, rfl, ?_⟩
  funext id
  cases hc : c.lookup id with
  | some f =>
      rw [page_of_lookup (s := { s with cache := c }) hc]
      exact (hhit id f hc).2.1
  | none =>
      rw [page_of_miss (s := { s with cache := c }) hc]
      exact (hmiss id hc).symm

theorem Coherent.hit (hs : s.Coherent) {f : Frame} (hf : s.cache.lookup id = some f) :
    1 ≤ id ∧ f.data = s.page id ∧ (f.dirty = false → f.data = s.file.page id) :=
  ⟨hs.one_le id f hf, (page_of_lookup hf).symm, hs.clean id f hf⟩

/-! ## Programs that only move pins, recency and the journal -/

theorem moves_onStorage {α : Type} {m : PagerM α}
    (h : Moves (fun st st' : Storage => st'.disk = st.disk ∧ st'.header = st.header) m) :
    Moves JournalOnly (onStorage m) := by
  intro s
  obtain ⟨hdisk, hheader⟩ := h s.storage
  exact ⟨rfl, hheader, congrArg Disk.file hdisk⟩

instance : Progress fun st st' : Storage => st'.disk = st.disk ∧ st'.header = st.header where
  refl _ := ⟨rfl, rfl⟩
  trans h h' := ⟨h'.1.trans h.1, h'.2.trans h.2⟩

theorem moves_readPage (id : Nat) :
    Moves (fun st st' : Storage => st'.disk = st.disk ∧ st'.header = st.header) (Pager.readPage id) :=
  Moves.state.bind fun _ => Moves.ite (Moves.raise _) (Moves.pure _)

theorem moves_recordOriginal (id : Nat) (p : Page) : Moves JournalOnly (recordOriginal id p) := by
  refine Moves.state.bind fun s => ?_
  split
  · refine (moves_onStorage ?_).bind fun _ => Moves.update fun _ => ⟨rfl, rfl, rfl⟩
    exact (Moves.lift _).bind fun _ => Moves.update fun _ => ⟨rfl, rfl⟩
  · exact Moves.raise _

theorem moves_promote : Moves JournalOnly promote := by
  refine Moves.state.bind fun s => ?_
  split
  · exact Moves.pure ()
  · refine (Moves.update fun _ => ⟨rfl, rfl, rfl⟩).bind fun _ =>
      (moves_onStorage ?_).bind fun _ => Moves.update fun _ => ⟨rfl, rfl, rfl⟩
    refine Moves.state.bind fun st => ?_
    split
    · exact Moves.raise _
    · exact (Moves.update fun _ => ⟨rfl, rfl⟩).bind fun _ => (Moves.lift _).bind fun _ =>
        Moves.update fun _ => ⟨rfl, rfl⟩

theorem moves_willModify (id : Nat) : Moves JournalOnly (willModify id) := by
  refine Moves.state.bind fun s => Moves.ite (Moves.pure ()) (Moves.ite ?_ ?_)
  · exact Moves.update fun _ => ⟨rfl, rfl, rfl⟩
  · exact moves_promote.bind fun _ => (moves_onStorage (moves_readPage id)).bind fun p =>
      (moves_recordOriginal id p).bind fun _ => Moves.update fun _ => ⟨rfl, rfl, rfl⟩

/-- Eviction drops a clean entry: the file shows the same page. -/
theorem evictOne_view (hs : s.Coherent) :
    SameView s (evictOne s).2 ∧
      ∀ id, s.cache.lookup id = none → (evictOne s).2.cache.lookup id = none := by
  unfold evictOne
  rw [bind_of_ok (state_apply s)]
  cases hfind : s.cache.find? fun e => e.2.pinCount = 0 ∧ ¬ e.2.dirty with
  | some e =>
      have hpred := List.find?_some hfind
      simp only [decide_eq_true_eq, Bool.not_eq_true] at hpred
      have hlook : s.cache.lookup e.1 = some e.2 :=
        Dict.lookup_of_mem hs.keys (List.mem_of_find?_eq_some hfind)
      constructor
      · refine sameView_cache (Dict.nodup_erase hs.keys e.1) (fun id f hf => ?_) fun id hmiss => ?_
        · rw [Dict.lookup_erase] at hf
          split at hf
          · cases hf
          · exact hs.hit hf
        · rw [Dict.lookup_erase] at hmiss
          split at hmiss
          · rename_i hid
            rw [hid, page_of_lookup hlook]
            exact hs.clean e.1 e.2 hlook hpred.2
          · exact page_of_miss hmiss
      · intro id hmiss
        show (s.cache.erase e.1).lookup id = none
        rw [Dict.lookup_erase, hmiss, ite_self]
  | none =>
      dsimp only
      split
      · exact ⟨SameView.refl hs, fun _ h => h⟩
      · exact ⟨SameView.refl hs, fun _ h => h⟩

theorem makeRoom_view (hs : s.Coherent) :
    SameView s (makeRoom s).2 ∧
      ∀ id, s.cache.lookup id = none → (makeRoom s).2.cache.lookup id = none := by
  unfold makeRoom BufferPool.makeRoom
  rw [bind_of_ok (state_apply s)]
  split
  · exact evictOne_view hs
  · exact ⟨SameView.refl hs, fun _ h => h⟩

/-- A pinned entry holds this page. -/
def Holds (s : Machine) (id : Nat) (p : Page) : Prop :=
  ∃ f, s.cache.lookup id = some f ∧ 0 < f.pinCount ∧ f.data = p

/-- Where a cached page is at hand, the next pin finds it. -/
theorem Coherent.pin_view (hs : s.Coherent) {f : Frame} (hf : s.cache.lookup id = some f) :
    SameView s { s with
      cache := s.cache.moveToEnd id { f with pinCount := f.pinCount + 1 } } := by
  refine sameView_cache (Dict.nodup_moveToEnd hs.keys id _) (fun k g hg => ?_) fun k hmiss => ?_
  · rw [Dict.lookup_moveToEnd] at hg
    split at hg
    · rename_i hk
      cases hg
      obtain ⟨hid, hdata, hclean⟩ := hs.hit hf
      exact hk ▸ ⟨hid, hdata, hclean⟩
    · exact hs.hit hg
  · rw [Dict.lookup_moveToEnd] at hmiss
    split at hmiss
    · cases hmiss
    · exact page_of_miss hmiss

/-- Changing an entry's pins or marking it dirty. -/
theorem Coherent.modify_view (hs : s.Coherent) (id : Nat) {g : Frame → Frame}
    (hdata : ∀ f, (g f).data = f.data) (hdirty : ∀ f, (g f).dirty = false → f.dirty = false) :
    SameView s { s with cache := s.cache.modify id g } := by
  refine sameView_cache (by rw [Dict.map_fst_modify]; exact hs.keys) (fun k f hf => ?_)
    fun k hmiss => ?_
  · rw [Dict.lookup_modify] at hf
    split at hf
    · obtain ⟨f', hf', rfl⟩ := Option.map_eq_some_iff.mp hf
      obtain ⟨hk, hdata', hclean⟩ := hs.hit hf'
      rw [hdata]
      exact ⟨hk, hdata', fun h => hclean (hdirty f' h)⟩
    · exact hs.hit hf
  · rw [Dict.lookup_modify] at hmiss
    split at hmiss
    · exact page_of_miss (Option.map_eq_none_iff.mp hmiss)
    · exact page_of_miss hmiss

/-- A page read from the file goes into the cache as it is there. -/
theorem Coherent.fill_view (hs : s.Coherent) (hmiss : s.cache.lookup id = none) (hid : 1 ≤ id) :
    SameView s { s with cache := s.cache ++ [(id, ⟨s.file.page id, 1, false⟩)] } := by
  refine sameView_cache (Dict.nodup_append_single hs.keys hmiss _) (fun k g hg => ?_)
    fun k hnone => ?_
  · rw [Dict.lookup_append_single] at hg
    cases hk : s.cache.lookup k with
    | some f =>
        rw [hk] at hg
        cases hg
        exact hs.hit hk
    | none =>
        rw [hk, Option.none_or] at hg
        split at hg
        · rename_i heq
          cases hg
          exact ⟨heq ▸ hid, by rw [page_of_miss hk, heq], fun _ => by rw [heq]⟩
        · cases hg
  · rw [Dict.lookup_append_single, Option.or_eq_none_iff] at hnone
    exact page_of_miss hnone.1

theorem readPage_post (s : Machine) (id : Nat) :
    Post (onStorage (Pager.readPage id)) s
      (fun p s' => s' = s ∧ p = s.file.page id ∧ 1 ≤ id ∧ id ≤ s.header.pageCount)
      fun _ s' => s' = s := by
  by_cases hrange : id < 1 ∨ s.storage.header.pageCount < id
  · have hrun : onStorage (Pager.readPage id) s = (.error (.pageOutOfRange ""), s) := by
      simp only [onStorage, Pager.readPage, bind_apply, state_apply]
      rw [if_pos hrange]
      rfl
    unfold Post
    rw [hrun]
  · have hrun : onStorage (Pager.readPage id) s = (.ok (s.file.page id), s) := by
      simp only [onStorage, Pager.readPage, bind_apply, state_apply]
      rw [if_neg hrange]
      rfl
    refine Post.of_eq hrun ⟨rfl, rfl, ?_⟩
    unfold header
    omega

/-- A pinned page is the one every reader sees. -/
theorem getPage_view (hs : s.Coherent) (id : Nat) :
    Post (getPage id) s (fun p s' => SameView s s' ∧ p = s.page id ∧ s'.Holds id p)
      fun _ s' => SameView s s' := by
  unfold getPage BufferPool.getPage
  simp only [post_bind, post_state]
  cases hf : s.cache.lookup id with
  | some f =>
      refine ⟨hs.pin_view hf, (page_of_lookup hf).symm, { f with pinCount := f.pinCount + 1 }, ?_,
        Nat.succ_pos _, rfl⟩
      rw [Dict.lookup_moveToEnd, if_pos rfl]
  | none =>
      obtain ⟨hroom, hstill⟩ := makeRoom_view hs
      have hmiss := hstill id hf
      have hmade : Post makeRoom s
          (fun _ s₁ => SameView s s₁ ∧ s₁.cache.lookup id = none) fun _ s₁ => SameView s s₁ := by
        unfold Post
        rcases hrun : makeRoom s with ⟨e | u, s₁⟩ <;> rw [hrun] at hroom hmiss
        · exact hroom
        · exact ⟨hroom, hmiss⟩
      refine hmade.bind (fun _ s₁ hs₁ => ?_) fun _ _ he => he
      obtain ⟨hview, hmiss₁⟩ := hs₁
      refine (readPage_post s₁ id).bind (fun p s₂ hp => ?_) fun _ s₂ he => he ▸ hview
      obtain ⟨rfl, rfl, hid, -⟩ := hp
      refine ⟨hview.trans (hview.coherent.fill_view hmiss₁ hid), ?_, ⟨s₂.file.page id, 1, false⟩, ?_,
        Nat.one_pos, rfl⟩
      · rw [← hview.page, page_of_miss hmiss₁]
      · rw [Dict.lookup_append_single, hmiss₁, if_pos rfl, Option.none_or]

theorem getPageForWrite_view (hs : s.Coherent) (id : Nat) :
    Post (getPageForWrite id) s (fun p s' => SameView s s' ∧ p = s.page id ∧
      ∃ f, s'.cache.lookup id = some f ∧ 0 < f.pinCount ∧ f.dirty = true ∧ f.data = p)
      fun _ s' => SameView s s' := by
  have hnotes : Post (willModify id) s (fun _ s' => SameView s s') fun _ s' => SameView s s' := by
    have hmoved := (moves_willModify id s).sameView hs
    unfold Post
    rcases hrun : willModify id s with ⟨e | u, s₁⟩ <;> rw [hrun] at hmoved <;> exact hmoved
  refine hnotes.bind (fun _ s₁ hview => ?_) fun _ _ he => he
  refine (getPage_view hview.coherent id).bind (fun p s₂ hpinned => ?_) fun _ _ he => hview.trans he
  obtain ⟨hview₂, hp, f, hf, hpin, hdata⟩ := hpinned
  have hmark := hview₂.coherent.modify_view id (g := fun f => { f with dirty := true })
    (fun _ => rfl) nofun
  refine ⟨hview.trans (hview₂.trans hmark), hp.trans (congrFun hview.page id),
    { f with dirty := true }, ?_, hpin, rfl, hdata⟩
  show (s₂.cache.modify id fun f => { f with dirty := true }).lookup id = _
  rw [Dict.lookup_modify, if_pos rfl, hf]
  rfl

/-- Unpinning a page that is pinned returns. -/
theorem unpin_view (hs : s.Coherent) (id : Nat) :
    SameView s (unpin id s).2 ∧
      ∀ f, s.cache.lookup id = some f → 0 < f.pinCount → (unpin id s).1 = .ok () := by
  have hdrop := hs.modify_view id (g := fun f => { f with pinCount := f.pinCount - 1 })
    (fun _ => rfl) fun _ h => h
  unfold unpin
  rw [bind_of_ok (state_apply s)]
  cases hf : s.cache.lookup id with
  | none => exact ⟨SameView.refl hs, nofun⟩
  | some f =>
      dsimp only
      split
      · rename_i hzero
        exact ⟨SameView.refl hs, fun g hg hpos => by cases hg; omega⟩
      · exact ⟨hdrop, fun _ _ _ => rfl⟩

/-- One page may show something else; the rest, and the header, do not. -/
structure SameBut (id : Nat) (s s' : Machine) : Prop where
  coherent : s'.Coherent
  header : s'.header = s.header
  page : ∀ k, k ≠ id → s'.page k = s.page k

theorem SameView.sameBut (h : SameView s s') (id : Nat) : SameBut id s s' :=
  ⟨h.coherent, h.header, fun k _ => congrFun h.page k⟩

theorem SameBut.trans (h : SameBut id s s') (h' : SameBut id s' s'') : SameBut id s s'' :=
  ⟨h'.coherent, h'.header.trans h.header, fun k hk => (h'.page k hk).trans (h.page k hk)⟩

/-- What is dropped unwritten shows as it is in the file. -/
theorem discard_view (hs : s.Coherent) (id : Nat) : SameBut id s (discard id s).2 := by
  unfold discard
  rw [bind_of_ok (state_apply s)]
  cases s.cache.lookup id with
  | none => exact (SameView.refl hs).sameBut id
  | some entry =>
      dsimp only
      split
      · exact (SameView.refl hs).sameBut id
      · refine ⟨⟨Dict.nodup_erase hs.keys id, fun k f hf => ?_, fun k f hf => ?_⟩, rfl, fun k hk => ?_⟩
        · have hf : (s.cache.erase id).lookup k = some f := hf
          rw [Dict.lookup_erase] at hf
          split at hf
          · cases hf
          · exact hs.one_le k f hf
        · have hf : (s.cache.erase id).lookup k = some f := hf
          rw [Dict.lookup_erase] at hf
          split at hf
          · cases hf
          · exact hs.clean k f hf
        · exact page_with_cache ((Dict.lookup_erase s.cache id k).trans (if_neg hk))

/-- Writing into a page that is pinned for writing. -/
theorem mutate_of_pinned {f : Frame} (hf : s.cache.lookup id = some f) (hpin : 0 < f.pinCount)
    (hdirty : f.dirty = true) (p : Page) :
    mutate id p s =
      (.ok (), { s with cache := s.cache.modify id fun f => { f with data := p } }) := by
  unfold mutate
  rw [bind_of_ok (state_apply s), hf]
  dsimp only
  rw [if_pos ⟨hpin, hdirty⟩]
  rfl

theorem mutate_view (hs : s.Coherent) (id : Nat) (p : Page) : SameBut id s (mutate id p s).2 := by
  cases hf : s.cache.lookup id with
  | none =>
      have hrun : mutate id p s = (.ok (), s) := by
        unfold mutate
        rw [bind_of_ok (state_apply s), hf]
        rfl
      rw [hrun]
      exact (SameView.refl hs).sameBut id
  | some f =>
      by_cases hpin : 0 < f.pinCount ∧ f.dirty = true
      · rw [mutate_of_pinned hf hpin.1 hpin.2]
        refine ⟨⟨by rw [Dict.map_fst_modify]; exact hs.keys, fun k g hg => ?_, fun k g hg => ?_⟩,
          rfl, fun k hk => ?_⟩
        · rw [Dict.lookup_modify] at hg
          split at hg
          · obtain ⟨g', hg', rfl⟩ := Option.map_eq_some_iff.mp hg
            exact hs.one_le k g' hg'
          · exact hs.one_le k g hg
        · rw [Dict.lookup_modify] at hg
          split at hg
          · rename_i hk
            rw [hk, hf] at hg
            cases hg
            intro hclean
            rw [hpin.2] at hclean
            cases hclean
          · exact hs.clean k g hg
        · exact page_with_cache ((Dict.lookup_modify s.cache id k _).trans (if_neg hk))
      · have hrun : mutate id p s = (.ok (), s) := by
          unfold mutate
          rw [bind_of_ok (state_apply s), hf]
          dsimp only
          rw [if_neg hpin]
          rfl
        rw [hrun]
        exact (SameView.refl hs).sameBut id

theorem mutate_post (hs : s.Coherent) {f : Frame} (hf : s.cache.lookup id = some f)
    (hpin : 0 < f.pinCount) (hdirty : f.dirty = true) (p : Page) :
    Post (mutate id p) s (fun _ s' => SameBut id s s' ∧ s'.page id = p ∧
      ∃ f, s'.cache.lookup id = some f ∧ 0 < f.pinCount) fun _ _ => False := by
  have hrun := mutate_of_pinned hf hpin hdirty p
  have hview := mutate_view hs id p
  rw [hrun] at hview
  have hlook : (s.cache.modify id fun f => { f with data := p }).lookup id =
      some { f with data := p } := by
    rw [Dict.lookup_modify, if_pos rfl, hf, Option.map_some]
  refine Post.of_eq hrun ⟨hview, ?_, _, hlook, hpin⟩
  exact page_of_lookup (s := { s with
    cache := s.cache.modify id fun f => { f with data := p } }) hlook

/-! ## The header -/

/-- The same machine under another header. -/
def withHeader (s : Machine) (h : FileHeader) : Machine :=
  { s with storage := { s.storage with header := h } }

@[simp] theorem withHeader_cache (h : FileHeader) : (s.withHeader h).cache = s.cache := rfl

@[simp] theorem withHeader_header (h : FileHeader) : (s.withHeader h).header = h := rfl

@[simp] theorem withHeader_page (h : FileHeader) : (s.withHeader h).page = s.page := rfl

@[simp] theorem post_setHeader {Q : Unit → Machine → Prop} {E : DbError → Machine → Prop}
    (f : FileHeader → FileHeader) :
    Post (setHeader f) s Q E ↔ Q () (s.withHeader (f s.header)) := Iff.rfl

theorem Coherent.withHeader (hs : s.Coherent) (h : FileHeader) : (s.withHeader h).Coherent :=
  ⟨hs.keys, hs.one_le, hs.clean⟩

end Machine

end QuillDb
