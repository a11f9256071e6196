/-
  Txn/ReadPool.lean --- a pool that is only read through.

  Readers pin, unpin and evict.  What a page shows, which pages are dirty and which
  pins others hold stay as they were, so that the pins of the readers decide alone
  whether another page can be fetched.
-/
import QuillDb.Txn.PoolView
import Mathlib.Data.Finset.Card

set_option autoImplicit false

namespace QuillDb

open Prog

namespace Machine

/-- One cache entry a page of the file, and a clean one holds what the file holds. -/
structure Consistent (s : Machine) : Prop extends s.Coherent where
  inFile : ∀ id f, s.cache.lookup id = some f → id ≤ s.header.pageCount

/-- The pins on a page. -/
def pinsOn (s : Machine) (id : Nat) : Nat := ((s.cache.lookup id).map Frame.pinCount).getD 0

/-- Whether a page is cached and dirty. -/
def dirtyAt (s : Machine) (id : Nat) : Bool := (s.cache.lookup id).any Frame.dirty

/-- How many pages the pool keeps when it has to evict for another one. -/
def slots (s : Machine) : Nat := max s.capacity s.cache.length

/-- The pages that are pinned. -/
def pinnedPages (s : Machine) : List Nat := (s.cache.filter fun e => 0 < e.2.pinCount).map Prod.fst

/-- These pages can be pinned all at once, on top of what is pinned: there are slots for
them, or else an unpinned dirty page, which makes the pool grow. -/
def CanPin (s : Machine) (pins : List Nat) : Prop :=
  (s.pinnedPages ++ pins).toFinset.card ≤ s.slots ∨
    ∃ id, s.dirtyAt id = true ∧ id ∉ s.pinnedPages ++ pins

/-- The pool that readers of `s` leave behind while they hold these pins. -/
structure Reading (s : Machine) (pins : List Nat) (s' : Machine) : Prop where
  base : s.Consistent
  file : s'.file = s.file
  header : s'.header = s.header
  capacity : s'.capacity = s.capacity
  keys : (s'.cache.map Prod.fst).Nodup
  shown : ∀ id f, s'.cache.lookup id = some f → f.data = s.page id ∧ f.dirty = s.dirtyAt id ∧
    f.pinCount = s.pinsOn id + pins.count id
  inFile : ∀ id f, s'.cache.lookup id = some f → 1 ≤ id ∧ id ≤ s.header.pageCount
  held : ∀ id, 0 < s.pinsOn id ∨ s.dirtyAt id = true ∨ id ∈ pins → id ∈ s'.cache.map Prod.fst
  room : s.slots ≤ s'.slots
  grown : (∀ id, s.dirtyAt id = false) → s'.slots = s.slots

variable {pins pins' : List Nat} {s s' s'' : Machine} {id : Nat}

theorem mem_keys {f : Frame} (h : s.cache.lookup id = some f) : id ∈ s.cache.map Prod.fst :=
  List.mem_map.mpr ⟨_, Dict.mem_of_lookup h, rfl⟩

theorem lookup_of_mem_keys (h : id ∈ s.cache.map Prod.fst) : ∃ f, s.cache.lookup id = some f := by
  obtain ⟨⟨k, f⟩, hmem, rfl⟩ := List.mem_map.mp h
  exact Dict.lookup_isSome_of_mem hmem

theorem pinsOn_of_lookup {f : Frame} (h : s.cache.lookup id = some f) : s.pinsOn id = f.pinCount := by
  rw [pinsOn, h]
  rfl

theorem dirtyAt_of_lookup {f : Frame} (h : s.cache.lookup id = some f) : s.dirtyAt id = f.dirty := by
  rw [dirtyAt, h]
  rfl

theorem mem_pinnedPages (h : s.Consistent) : id ∈ s.pinnedPages ↔ 0 < s.pinsOn id := by
  constructor
  · intro hid
    obtain ⟨⟨k, f⟩, hmem, rfl⟩ := List.mem_map.mp hid
    obtain ⟨hmem, hpos⟩ := List.mem_filter.mp hmem
    rw [pinsOn_of_lookup (Dict.lookup_of_mem h.keys hmem)]
    exact of_decide_eq_true hpos
  · intro hpos
    cases hf : s.cache.lookup id with
    | none =>
        rw [pinsOn, hf] at hpos
        exact absurd hpos (Nat.lt_irrefl 0)
    | some f =>
        rw [pinsOn_of_lookup hf] at hpos
        exact List.mem_map.mpr ⟨_, List.mem_filter.mpr ⟨Dict.mem_of_lookup hf, decide_eq_true hpos⟩, rfl⟩

/-- What is not dirty shows what the file holds. -/
theorem Consistent.page_of_not_dirty (h : s.Consistent) (hclean : s.dirtyAt id = false) :
    s.page id = s.file.page id := by
  cases hf : s.cache.lookup id with
  | none => exact page_of_miss hf
  | some f =>
      rw [page_of_lookup hf]
      exact h.clean id f hf ((dirtyAt_of_lookup hf).symm.trans hclean)

/-- Fewer pins are easier to hold. -/
theorem CanPin.mono (h : s.CanPin pins') (hsub : pins ⊆ pins') : s.CanPin pins := by
  have hall : ∀ id, id ∈ s.pinnedPages ++ pins → id ∈ s.pinnedPages ++ pins' := fun id hid =>
    List.mem_append.mpr ((List.mem_append.mp hid).imp_right fun hmem => hsub hmem)
  rcases h with hcard | ⟨id, hdirty, hid⟩
  · refine .inl ((Finset.card_le_card fun id hid => ?_).trans hcard)
    exact List.mem_toFinset.mpr (hall id (List.mem_toFinset.mp hid))
  · exact .inr ⟨id, hdirty, fun hmem => hid (hall id hmem)⟩

/-- A page on a path can be pinned alone. -/
theorem CanPin.alone (h : s.CanPin (id :: pins)) : s.CanPin [id] := by
  refine h.mono fun k hk => ?_
  rw [List.mem_singleton.mp hk]
  exact List.mem_cons_self ..

/-! ## Pools that readers leave -/

theorem Reading.refl (h : s.Consistent) : Reading s [] s where
  base := h
  file := rfl
  header := rfl
  capacity := rfl
  keys := h.keys
  shown id f hf := ⟨(page_of_lookup hf).symm, (dirtyAt_of_lookup hf).symm, (pinsOn_of_lookup hf).symm⟩
  inFile id f hf := ⟨h.one_le id f hf, h.inFile id f hf⟩
  held id hid := by
    rcases hid with hpin | hdirty | hnone
    · obtain ⟨e, he, rfl⟩ := List.mem_map.mp ((mem_pinnedPages h).mpr hpin)
      exact List.mem_map.mpr ⟨e, (List.mem_filter.mp he).1, rfl⟩
    · cases hf : s.cache.lookup id with
      | none =>
          rw [dirtyAt, hf] at hdirty
          cases hdirty
      | some f => exact mem_keys hf
    · cases hnone
  room := Nat.le_refl _
  grown _ := rfl

/-- Who holds the pins does not matter. -/
theorem Reading.perm (h : Reading s pins s') (hperm : pins.Perm pins') : Reading s pins' s' :=
  { h with
    shown := fun id f hf => by
      rw [← hperm.count_eq id]
      exact h.shown id f hf
    held := fun id hid => h.held id (by rwa [hperm.mem_iff]) }

/-- Which of the cached pages can go. -/
theorem Reading.unpinned_iff (h : Reading s pins s') {f : Frame} (hf : s'.cache.lookup id = some f) :
    f.pinCount = 0 ↔ id ∉ s.pinnedPages ++ pins := by
  rw [(h.shown id f hf).2.2, List.mem_append, mem_pinnedPages h.base, ← List.count_pos_iff]
  omega

/-- Pinned pages are cached. -/
theorem Reading.cached (h : Reading s pins s') (hid : id ∈ s.pinnedPages ++ pins) :
    id ∈ s'.cache.map Prod.fst := by
  rcases List.mem_append.mp hid with hother | hmine
  · exact h.held id (.inl ((mem_pinnedPages h.base).mp hother))
  · exact h.held id (.inr (.inr hmine))

/-- What the cache is when another page can go in. -/
structure MadeRoom (s : Machine) (pins : List Nat) (s' : Machine) (c : Cache) : Prop where
  keys : (c.map Prod.fst).Nodup
  old : ∀ id f, c.lookup id = some f → s'.cache.lookup id = some f
  kept : ∀ id f, s'.cache.lookup id = some f → id ∈ s.pinnedPages ++ pins ∨ f.dirty = true →
    c.lookup id = some f
  room : s.slots ≤ max s'.capacity (c.length + 1)
  grown : (∀ id, s.dirtyAt id = false) → max s'.capacity (c.length + 1) = s.slots

/-- An unpinned clean page goes. -/
theorem Reading.evicted (h : Reading s pins s') {f : Frame} (hf : s'.cache.lookup id = some f)
    (hfree : id ∉ s.pinnedPages ++ pins) (hclean : f.dirty = false) :
    MadeRoom s pins s' (s'.cache.erase id) := by
  have hlen := Dict.length_erase h.keys hf
  have hslots : max s'.capacity ((s'.cache.erase id).length + 1) = s'.slots := by
    rw [hlen, slots]
  refine ⟨Dict.nodup_erase h.keys id, fun k g hg => ?_, fun k g hg hkeep => ?_, ?_, fun hnone => ?_⟩
  · rw [Dict.lookup_erase] at hg
    split at hg
    · cases hg
    · exact hg
  · rw [Dict.lookup_erase, if_neg, hg]
    rintro rfl
    rcases hkeep with hpinned | hdirty
    · exact hfree hpinned
    · rw [hf] at hg
      obtain rfl := Option.some.inj hg
      rw [hclean] at hdirty
      cases hdirty
  · rw [hslots]
    exact h.room
  · rw [hslots, h.grown hnone]

/-- Nothing goes: there is a free slot, or a dirty page stands in the way. -/
theorem Reading.unevicted (h : Reading s pins s') (hfree : s'.cache.length < s'.capacity ∨
    ∃ id f, s'.cache.lookup id = some f ∧ f.dirty = true) : MadeRoom s pins s' s'.cache := by
  have hroom := h.room
  unfold slots at hroom
  refine ⟨h.keys, fun _ _ hf => hf, fun _ _ hf _ => hf, ?_, fun hclean => ?_⟩
  · unfold slots
    omega
  · rcases hfree with hlt | ⟨id, f, hf, hdirty⟩
    · have hgrown := h.grown hclean
      unfold slots at hgrown ⊢
      omega
    · rw [(h.shown id f hf).2.1, hclean id] at hdirty
      cases hdirty

/-- A full pool of pinned pages raises; any other has room for one more page. -/
theorem Reading.makeRoom (h : Reading s pins s') :
    Post makeRoom s' (fun _ s₁ => ∃ c, s₁ = { s' with cache := c } ∧ MadeRoom s pins s' c)
      fun _ _ => s'.capacity ≤ s'.cache.length ∧
        ∀ id ∈ s'.cache.map Prod.fst, id ∈ s.pinnedPages ++ pins := by
  unfold Machine.makeRoom BufferPool.makeRoom
  simp only [post_bind, post_state]
  split
  case isFalse hroom =>
    exact ⟨s'.cache, rfl, h.unevicted (.inl (Nat.lt_of_not_le hroom))⟩
  case isTrue hfull =>
    rw [show BufferPool.evictOne true = Machine.evictOne from rfl]
    unfold Machine.evictOne
    simp only [post_bind, post_state]
    cases hfind : s'.cache.find? fun e => e.2.pinCount = 0 ∧ ¬ e.2.dirty with
    | some e =>
        have hpred := List.find?_some hfind
        simp only [decide_eq_true_eq, Bool.not_eq_true] at hpred
        have hlook : s'.cache.lookup e.1 = some e.2 :=
          Dict.lookup_of_mem h.keys (List.mem_of_find?_eq_some hfind)
        exact ⟨_, rfl, h.evicted hlook ((h.unpinned_iff hlook).mp hpred.1) hpred.2⟩
    | none =>
        dsimp only
        split
        · -- an unpinned page is there, and it is dirty
          rename_i hany
          obtain ⟨e, he, hzero⟩ := List.any_eq_true.mp hany
          have hnone := List.find?_eq_none.mp hfind e he
          rw [decide_eq_true_eq] at hzero hnone
          have hdirty : e.2.dirty = true := by
            by_contra hclean
            exact hnone ⟨hzero, hclean⟩
          exact ⟨s'.cache, rfl, h.unevicted (.inr ⟨e.1, e.2, Dict.lookup_of_mem h.keys he, hdirty⟩)⟩
        · rename_i hany
          refine ⟨hfull, fun id hid => ?_⟩
          obtain ⟨f, hf⟩ := lookup_of_mem_keys hid
          by_contra hfree
          exact hany (List.any_eq_true.mpr ⟨(id, f), Dict.mem_of_lookup hf,
            decide_eq_true ((h.unpinned_iff hf).mpr hfree)⟩)

/-! ## Pinning -/

theorem Reading.pin (h : Reading s pins s') {f : Frame} (hf : s'.cache.lookup id = some f) :
    Reading s (id :: pins) { s' with
      cache := s'.cache.moveToEnd id { f with pinCount := f.pinCount + 1 } } := by
  have hlook : ∀ k g, (s'.cache.moveToEnd id { f with pinCount := f.pinCount + 1 }).lookup k = some g →
      k = id ∧ g = { f with pinCount := f.pinCount + 1 } ∨ k ≠ id ∧ s'.cache.lookup k = some g := by
    intro k g hg
    rw [Dict.lookup_moveToEnd] at hg
    split at hg
    · rename_i hk
      exact .inl ⟨hk, (Option.some.inj hg).symm⟩
    · rename_i hk
      exact .inr ⟨hk, hg⟩
  have hlen : (s'.cache.moveToEnd id { f with pinCount := f.pinCount + 1 }).length = s'.cache.length := by
    rw [Dict.moveToEnd, List.length_append, List.length_singleton]
    exact Dict.length_erase h.keys hf
  have hslots : slots { s' with
      cache := s'.cache.moveToEnd id { f with pinCount := f.pinCount + 1 } } = s'.slots :=
    congrArg (max s'.capacity) hlen
  refine ⟨h.base, h.file, h.header, h.capacity, Dict.nodup_moveToEnd h.keys id _, fun k g hg => ?_,
    fun k g hg => ?_, fun k hk => ?_, hslots ▸ h.room, fun hclean => hslots.trans (h.grown hclean)⟩
  · rcases hlook k g hg with ⟨rfl, rfl⟩ | ⟨hk, hg⟩
    · obtain ⟨hdata, hdirty, hpins⟩ := h.shown k f hf
      rw [List.count_cons_self, ← Nat.add_assoc, ← hpins]
      exact ⟨hdata, hdirty, rfl⟩
    · rw [List.count_cons_of_ne (Ne.symm hk)]
      exact h.shown k g hg
  · rcases hlook k g hg with ⟨rfl, rfl⟩ | ⟨-, hg⟩
    · exact h.inFile k f hf
    · exact h.inFile k g hg
  · show k ∈ (s'.cache.moveToEnd id _).map Prod.fst
    by_cases hkid : k = id
    · subst hkid
      exact Dict.key_mem_of_lookup ((Dict.lookup_moveToEnd s'.cache k k _).trans (if_pos rfl))
    · obtain ⟨g, hg⟩ := lookup_of_mem_keys (h.held k
        (hk.imp_right (Or.imp_right fun hmem => (List.mem_cons.mp hmem).resolve_left hkid)))
      exact Dict.key_mem_of_lookup
        (((Dict.lookup_moveToEnd s'.cache id k _).trans (if_neg hkid)).trans hg)

theorem Reading.fill (h : Reading s pins s') (hmiss : s'.cache.lookup id = none)
    (hid : 1 ≤ id ∧ id ≤ s.header.pageCount) {c : Cache} (hc : MadeRoom s pins s' c) :
    Reading s (id :: pins) { s' with cache := c ++ [(id, ⟨s'.file.page id, 1, false⟩)] } := by
  have hgone : c.lookup id = none := by
    cases hf : c.lookup id with
    | none => rfl
    | some f =>
        rw [hc.old id f hf] at hmiss
        cases hmiss
  have hlook : ∀ k g, (c ++ [(id, (⟨s'.file.page id, 1, false⟩ : Frame))]).lookup k = some g →
      k = id ∧ g = ⟨s'.file.page id, 1, false⟩ ∨ k ≠ id ∧ s'.cache.lookup k = some g := by
    intro k g hg
    rw [Dict.lookup_append_single] at hg
    by_cases hk : k = id
    · rw [hk, hgone, if_pos rfl, Option.none_or] at hg
      exact .inl ⟨hk, (Option.some.inj hg).symm⟩
    · rw [if_neg hk, Option.or_none] at hg
      exact .inr ⟨hk, hc.old k g hg⟩
  have huncached : id ∉ s'.cache.map Prod.fst := by
    intro hmem
    obtain ⟨f, hf⟩ := lookup_of_mem_keys hmem
    rw [hmiss] at hf
    cases hf
  have hunpinned : s.pinsOn id = 0 := by
    by_contra hpos
    exact huncached (h.held id (.inl (Nat.pos_of_ne_zero hpos)))
  have hclean : s.dirtyAt id = false := by
    by_contra hdirty
    exact huncached (h.held id (.inr (.inl (by rwa [Bool.not_eq_false] at hdirty))))
  have hfree : id ∉ pins := fun hmem => huncached (h.held id (.inr (.inr hmem)))
  have hslots : slots { s' with cache := c ++ [(id, ⟨s'.file.page id, 1, false⟩)] } =
      max s'.capacity (c.length + 1) := by
    show max s'.capacity (c ++ [_]).length = _
    rw [List.length_append, List.length_singleton]
  refine ⟨h.base, h.file, h.header, h.capacity, Dict.nodup_append_single hc.keys hgone _,
    fun k g hg => ?_, fun k g hg => ?_, fun k hk => ?_, hslots ▸ hc.room,
    fun hnone => hslots.trans (hc.grown hnone)⟩
  · rcases hlook k g hg with ⟨rfl, rfl⟩ | ⟨hk, hg⟩
    · rw [List.count_cons_self, List.count_eq_zero.mpr hfree, hunpinned,
        h.base.page_of_not_dirty hclean, hclean, h.file]
      exact ⟨rfl, rfl, rfl⟩
    · rw [List.count_cons_of_ne (Ne.symm hk)]
      exact h.shown k g hg
  · rcases hlook k g hg with ⟨rfl, rfl⟩ | ⟨-, hg⟩
    · exact hid
    · exact h.inFile k g hg
  · show k ∈ (c ++ [_]).map Prod.fst
    rw [List.map_append, List.mem_append]
    by_cases hkid : k = id
    · exact .inr (hkid ▸ List.mem_singleton_self _)
    · have hheld := hk.imp_right (Or.imp_right fun hmem => (List.mem_cons.mp hmem).resolve_left hkid)
      obtain ⟨g, hg⟩ := lookup_of_mem_keys (h.held k hheld)
      refine .inl (mem_keys (s := { s with cache := c }) (hc.kept k g hg ?_))
      rcases hheld with hother | hdirty | hmine
      · exact .inl (List.mem_append_left _ ((mem_pinnedPages h.base).mpr hother))
      · exact .inr ((h.shown k g hg).2.1.trans hdirty)
      · exact .inl (List.mem_append_right _ hmine)

/-- What a fetch that returns leaves. -/
theorem Reading.getPage (h : Reading s pins s') (id : Nat) :
    Post (getPage id) s' (fun p s₁ => p = s.page id ∧ (1 ≤ id ∧ id ≤ s.header.pageCount) ∧
        Reading s (id :: pins) s₁)
      fun _ _ => True := by
  unfold Machine.getPage BufferPool.getPage
  simp only [post_bind, post_state]
  cases hf : s'.cache.lookup id with
  | some f => exact ⟨(h.shown id f hf).1, h.inFile id f hf, h.pin hf⟩
  | none =>
      refine h.makeRoom.bind (fun _ s₁ hmade => ?_) fun _ _ _ => trivial
      obtain ⟨c, rfl, hc⟩ := hmade
      refine (readPage_post { s' with cache := c } id).bind (fun p s₂ hp => ?_) fun _ _ _ => trivial
      obtain ⟨rfl, rfl, hid⟩ := hp
      have hid : 1 ≤ id ∧ id ≤ s.header.pageCount := h.header ▸ hid
      have hfill := h.fill hf hid hc
      have hnew := hfill.shown id ⟨s'.file.page id, 1, false⟩ (by
        show (c ++ [_]).lookup id = _
        rw [Dict.lookup_append_single, if_pos rfl]
        cases hold : c.lookup id with
        | none => rfl
        | some f =>
            rw [hc.old id f hold] at hf
            cases hf)
      exact ⟨hnew.1, hid, hfill⟩

/-- Releasing a pin. -/
theorem Reading.unpin (h : Reading s (id :: pins) s') :
    ∃ s₁, Machine.unpin id s' = (.ok (), s₁) ∧ Reading s pins s₁ := by
  obtain ⟨f, hf⟩ := lookup_of_mem_keys (h.held id (.inr (.inr (List.mem_cons_self ..))))
  have hcount := (h.shown id f hf).2.2
  rw [List.count_cons_self] at hcount
  have hlook : ∀ k g, (s'.cache.modify id fun f => { f with pinCount := f.pinCount - 1 }).lookup k =
      some g → ∃ g₀, s'.cache.lookup k = some g₀ ∧
        g = if k = id then { g₀ with pinCount := g₀.pinCount - 1 } else g₀ := by
    intro k g hg
    rw [Dict.lookup_modify] at hg
    split at hg
    · rename_i hk
      obtain ⟨g₀, hg₀, rfl⟩ := Option.map_eq_some_iff.mp hg
      exact ⟨g₀, hg₀, by rw [if_pos hk]⟩
    · rename_i hk
      exact ⟨g, hg, by rw [if_neg hk]⟩
  have hkeys := Dict.map_fst_modify s'.cache id fun f => { f with pinCount := f.pinCount - 1 }
  have hslots : slots { s' with
      cache := s'.cache.modify id fun f => { f with pinCount := f.pinCount - 1 } } = s'.slots := by
    have hlen := congrArg List.length hkeys
    rw [List.length_map, List.length_map] at hlen
    exact congrArg (max s'.capacity) hlen
  refine ⟨{ s' with cache := s'.cache.modify id fun f => { f with pinCount := f.pinCount - 1 } }, ?_,
    h.base, h.file, h.header, h.capacity, hkeys ▸ h.keys, fun k g hg => ?_, fun k g hg => ?_,
    fun k hk => ?_, hslots ▸ h.room, fun hclean => hslots.trans (h.grown hclean)⟩
  · unfold Machine.unpin
    rw [bind_of_ok (state_apply s'), hf]
    dsimp only
    rw [if_neg (by omega)]
    rfl
  · obtain ⟨g₀, hg₀, rfl⟩ := hlook k g hg
    obtain ⟨hdata, hdirty, hpins⟩ := h.shown k g₀ hg₀
    split
    · rename_i hk
      rw [hk, List.count_cons_self] at hpins
      rw [hk] at hdata hdirty ⊢
      refine ⟨hdata, hdirty, ?_⟩
      show g₀.pinCount - 1 = _
      omega
    · rename_i hk
      rw [List.count_cons_of_ne (Ne.symm hk)] at hpins
      exact ⟨hdata, hdirty, hpins⟩
  · obtain ⟨g₀, hg₀, -⟩ := hlook k g hg
    exact h.inFile k g₀ hg₀
  · refine hkeys ▸ ?_
    exact h.held k (hk.imp_right (Or.imp_right (List.mem_cons_of_mem _)))

end Machine

end QuillDb
