/-
  BTree/Stored.lean --- payloads, on the page and spilled.

  Source: the spilling steps of `BTree.insert`, `BTree._split_leaf`,
  `IndexBTree.insert` and `IndexBTree._split_leaf`, and `TableCursor.record`.

  A stored payload knows the pages of its overflow chain; the cell part and the
  pages are computed from it.
-/
import QuillDb.BTree.PageHeap

set_option autoImplicit false

namespace QuillDb

/-! ## The source -/

/-- `local_payload_size(page_type, len(payload))` bytes stay on the page. -/
def localPart (pageType : PageType) (payload : Bytes) : Bytes :=
  payload.take (localPayloadSize pageType payload.length)

def spilledPart (pageType : PageType) (payload : Bytes) : Bytes :=
  payload.drop (localPayloadSize pageType payload.length)

/-- `spills`. -/
def spills (pageType : PageType) (payload : Bytes) : Bool :=
  localPayloadSize pageType payload.length < payload.length

/-- The cell part with page 1 standing for the overflow page: it has the size of
the real one. -/
def placeholder (pageType : PageType) (payload : Bytes) : Payload :=
  ⟨payload.length, localPart pageType payload, if spills pageType payload then 1 else 0⟩

open Prog PageStore in
/-- Write the overflow chain, if one is needed. -/
def spillPayload (pageType : PageType) (payload : Bytes) : StoreM Payload := do
  let overflow ← (if spills pageType payload then writeOverflowChain (spilledPart pageType payload)
    else pure 0 : StoreM Nat)
  return ⟨payload.length, localPart pageType payload, overflow⟩

open Prog PageStore in
/-- The whole payload of a cell (`TableCursor.record`, `IndexBTree._decode_key`). -/
def readPayload (p : Payload) : StoreM Bytes := do
  if p.overflow = 0 then return p.localPart
  else
    let rest ← readOverflowChain p.overflow (p.total - p.localPart.length)
    return p.localPart ++ rest

/-! ## Stored payloads -/

/-- A payload in the database: its bytes and the pages of its overflow chain. -/
structure Stored (pageType : PageType) where
  data : Bytes
  chain : List Nat
  chain_length : chain.length = PageStore.chainLength (spilledPart pageType data).length
  chain_pos : 0 ∉ chain

namespace Stored

variable {pageType : PageType}

/-- What the cell holds. -/
def payload (st : Stored pageType) : Payload :=
  ⟨st.data.length, localPart pageType st.data, st.chain.headD 0⟩

/-- The overflow pages. -/
def image (st : Stored pageType) : Image :=
  PageStore.chainImage st.chain (spilledPart pageType st.data)

theorem spills_iff (payload : Bytes) :
    spills pageType payload = true ↔ spilledPart pageType payload ≠ [] := by
  rw [spills, decide_eq_true_eq, spilledPart, Ne, List.drop_eq_nil_iff]
  exact Nat.not_le.symm

theorem chain_eq_nil (st : Stored pageType) : st.chain = [] ↔ spills pageType st.data = false := by
  rw [← Bool.not_eq_true, spills_iff, not_not, ← List.length_eq_zero_iff, st.chain_length,
    ← List.length_eq_zero_iff]
  constructor
  · exact PageStore.eq_zero_of_chainLength
  · intro h
    rw [h]
    exact PageStore.chainLength_zero

theorem overflow_eq_zero (st : Stored pageType) :
    st.payload.overflow = 0 ↔ spills pageType st.data = false := by
  rw [← chain_eq_nil]
  show st.chain.headD 0 = 0 ↔ _
  have hpos := st.chain_pos
  generalize st.chain = chain at hpos
  rcases chain with _ | ⟨id, ids⟩
  · exact iff_of_true rfl rfl
  · refine iff_of_false (fun h => hpos ?_) (List.cons_ne_nil _ _)
    have hid : id = 0 := h
    rw [hid]
    exact List.mem_cons_self ..

theorem placeholder_overflow (payload : Bytes) :
    (placeholder pageType payload).overflow = 0 ↔ spills pageType payload = false := by
  unfold placeholder
  cases spills pageType payload
  · exact iff_of_true rfl rfl
  · exact iff_of_false Nat.one_ne_zero (Bool.noConfusion)

/-- The placeholder has the size of the cell part that replaces it. -/
theorem size_placeholder (st : Stored pageType) :
    (placeholder pageType st.data).size = st.payload.size := by
  have hzero := st.overflow_eq_zero
  unfold Payload.size
  rw [if_congr ((placeholder_overflow st.data).trans hzero.symm) rfl rfl]
  rfl

theorem localPart_length (payload : Bytes) :
    (localPart pageType payload).length = localPayloadSize pageType payload.length := by
  rw [localPart, List.length_take, Nat.min_eq_left (localPayloadSize_le_total _ _)]

theorem requireValidSplit_iff {p : Payload} : requireValidSplit pageType p = .ok () ↔
    p.localPart.length = localPayloadSize pageType p.total ∧
      (p.overflow ≠ 0 ↔ p.localPart.length < p.total) := by
  unfold requireValidSplit
  simp only
  split
  · rename_i hlen
    exact iff_of_false nofun fun h => hlen h.1
  · rename_i hlen
    split
    · rename_i hflag
      exact iff_of_false nofun fun h => hflag (propext h.2)
    · rename_i hflag
      exact iff_of_true rfl ⟨not_not.mp hlen, iff_of_eq (not_not.mp hflag)⟩

theorem requireValidSplit_of {p : Payload} {payload : Bytes} (htotal : p.total = payload.length)
    (hlocal : p.localPart = localPart pageType payload)
    (hflag : p.overflow = 0 ↔ spills pageType payload = false) :
    requireValidSplit pageType p = .ok () := by
  rw [requireValidSplit_iff, htotal, hlocal, localPart_length]
  refine ⟨rfl, ?_⟩
  rw [Ne, hflag, Bool.not_eq_false, spills, decide_eq_true_eq]

theorem valid_placeholder (payload : Bytes) :
    requireValidSplit pageType (placeholder pageType payload) = .ok () :=
  requireValidSplit_of rfl rfl (placeholder_overflow payload)

theorem valid_payload (st : Stored pageType) : requireValidSplit pageType st.payload = .ok () :=
  requireValidSplit_of rfl rfl st.overflow_eq_zero

/-- A payload that fits on the page. -/
def unspilled (data : Bytes) (h : spills pageType data = false) : Stored pageType where
  data := data
  chain := []
  chain_length := by
    rw [← Bool.not_eq_true, spills_iff, not_not] at h
    rw [h]
    rfl
  chain_pos := List.not_mem_nil

theorem payload_unspilled (data : Bytes) (h : spills pageType data = false) :
    (unspilled data h).payload = placeholder pageType data := by
  rw [placeholder, h]
  rfl

/-- The pages of a chain whose links were packed. -/
theorem chain_small (st : Stored pageType) (hhead : st.payload.overflow < 2 ^ 32)
    (htail : ∀ i ∈ st.chain.tail, i < 2 ^ 32) : ∀ i ∈ st.chain, i < 2 ^ 32 := by
  have hhead : st.chain.headD 0 < 2 ^ 32 := hhead
  generalize st.chain = ids at hhead htail
  rcases ids with _ | ⟨id, ids⟩
  · exact fun i hi => by cases hi
  · intro i hi
    rcases List.mem_cons.mp hi with rfl | hi
    · exact hhead
    · exact htail i hi

theorem overflow_small (st : Stored pageType) (hsmall : ∀ i ∈ st.chain, i < 2 ^ 32) :
    st.payload.overflow < 2 ^ 32 := by
  show st.chain.headD 0 < 2 ^ 32
  generalize st.chain = ids at hsmall
  cases ids with
  | nil => exact Nat.two_pow_pos 32
  | cons i ids => exact hsmall i (List.mem_cons_self ..)

/-- The pages of a chain are too few for a length of 64 bits. -/
theorem total_lt (st : Stored pageType) (hnodup : st.chain.Nodup)
    (hsmall : ∀ i ∈ st.chain, i < 2 ^ 32) : st.data.length < 2 ^ 64 := by
  have hlength : st.chain.length ≤ 2 ^ 32 := by
    have hsub : st.chain ⊆ List.range (2 ^ 32) := fun i hi => List.mem_range.mpr (hsmall i hi)
    have hle := (List.subperm_of_subset hnodup hsub).length_le
    rwa [List.length_range] at hle
  have hchain := st.chain_length
  have hlocal := localPayloadSize_le pageType st.data.length
  have hmax : maxLocalPayload pageType ≤ 4096 := by cases pageType <;> decide
  have hcpp : PageStore.contentPerPage = 4092 := rfl
  rw [spilledPart, List.length_drop, PageStore.chainLength, hcpp] at hchain
  omega

@[simp] theorem image_ids (st : Stored pageType) : st.image.map Prod.fst = st.chain :=
  PageStore.chainImage_ids _ _

/-- A stored payload takes little of a page: it spills when it is long. -/
theorem payload_size_le (st : Stored pageType) :
    st.payload.size ≤ 13 + maxLocalPayload pageType := by
  have hvar := uvarintSize_le st.data.length
  have hlocal := localPayloadSize_le pageType st.data.length
  have hlen : st.payload.localPart.length = localPayloadSize pageType st.data.length :=
    localPart_length st.data
  have htotal : st.payload.total = st.data.length := rfl
  unfold Payload.size
  rw [htotal, hlen]
  split <;> omega

end Stored

open Prog PageStore

variable {lost : Residue} {s : PageStore} {img : Image} {pageType : PageType}
variable {E : DbError → PageStore → Prop}

/-- The free pages are enough for the chain of a payload. -/
def FreeFor (pageType : PageType) (payload : Bytes) (s : PageStore) : Prop :=
  chainLength (spilledPart pageType payload).length ≤ s.freelistCount

theorem spillPayload_post {payload : Bytes}
    (hover : FreeFor pageType payload s ∨ ∀ s', Live s' img → E tooBig s') (h : LiveBut lost s img) :
    Post (spillPayload pageType payload) s (fun p s' => ∃ st : Stored pageType,
      st.data = payload ∧ p = st.payload ∧ (∀ i ∈ st.chain.tail, i < 2 ^ 32) ∧
        (FreeFor pageType payload s → ∀ i ∈ st.chain, i < 2 ^ 32) ∧
          LiveBut lost s' (st.image ++ img)) E := by
  rw [spillPayload, post_bind]
  split
  · rename_i hspills
    refine (writeOverflowChain_post hover ((Stored.spills_iff payload).mp hspills) h).mono
      (fun first s' hs' => ?_) fun _ _ he => he
    obtain ⟨ids, hlen, rfl, htail, hsmall, hlive⟩ := hs'
    have hpos : 0 ∉ ids := fun hzero => by
      have hmem : 0 ∈ (chainImage ids (spilledPart pageType payload) ++ img).map Prod.fst := by
        rw [List.map_append, chainImage_ids]
        exact List.mem_append_left _ hzero
      have := hlive.mem_range hmem
      omega
    exact ⟨⟨payload, ids, hlen, hpos⟩, rfl, rfl, htail, hsmall, hlive⟩
  · rename_i hspills
    rw [Stored.spills_iff, not_not] at hspills
    refine ⟨⟨payload, [], ?_, List.not_mem_nil⟩, rfl, rfl, (fun i hi => by cases hi),
      (fun _ i hi => by cases hi), h⟩
    rw [hspills]
    rfl

/-- A payload without a chain is on the page. -/
theorem Stored.localPart_eq (st : Stored pageType) (hzero : st.payload.overflow = 0) :
    st.payload.localPart = st.data := by
  have hspills := st.overflow_eq_zero.mp hzero
  have hnil : spilledPart pageType st.data = [] := by
    rw [← not_not (a := spilledPart pageType st.data = []), ← Ne, ← Stored.spills_iff, hspills]
    exact Bool.false_ne_true
  have happend := List.take_append_drop (localPayloadSize pageType st.data.length) st.data
  rw [spilledPart] at hnil
  rwa [hnil, List.append_nil] at happend

/-- A stored payload reads back whole. -/
theorem readPayload_live (h : Live s img) (st : Stored pageType) (hsub : st.image ⊆ img)
    (hnodup : st.chain.Nodup) : readPayload st.payload s = (.ok st.data, s) := by
  unfold readPayload
  split
  · rename_i hzero
    rw [st.localPart_eq hzero]
    rfl
  · have hlen : st.payload.total - st.payload.localPart.length =
        (spilledPart pageType st.data).length := by
      show st.data.length - (localPart pageType st.data).length = _
      rw [Stored.localPart_length, spilledPart, List.length_drop]
    have hread := readOverflowChain_live h hsub st.chain_length hnodup
    have hover : st.payload.overflow = st.chain.headD 0 := rfl
    rw [hlen, hover, bind_of_ok hread]
    show (pure (localPart pageType st.data ++ spilledPart pageType st.data) : StoreM Bytes) s = _
    rw [localPart, spilledPart, List.take_append_drop]
    rfl

/-- Freeing the chain of a payload, if it has one. -/
theorem freeStored_counted (st : Stored pageType) (h : LiveBut lost s (st.image ++ img))
    (hsmall : ∀ i ∈ st.chain, i < 2 ^ 32) :
    Post (if st.payload.overflow ≠ 0 then freeOverflowChain st.payload.overflow else pure ()) s
      (fun _ s' => LiveBut lost s' img ∧ s'.freelistCount = s.freelistCount + st.chain.length) E := by
  split
  · exact freeOverflowChain_post h hsmall
  · rename_i hzero
    have hnil := st.chain_eq_nil.mpr (st.overflow_eq_zero.mp (not_not.mp hzero))
    rw [Stored.image, hnil] at h
    rw [hnil]
    exact ⟨h, rfl⟩

theorem freeStored_post (st : Stored pageType) (h : LiveBut lost s (st.image ++ img))
    (hsmall : ∀ i ∈ st.chain, i < 2 ^ 32) :
    Post (if st.payload.overflow ≠ 0 then freeOverflowChain st.payload.overflow else pure ()) s
      (fun _ s' => LiveBut lost s' img) E :=
  (freeStored_counted st h hsmall).mono (fun _ _ hs' => hs'.1) fun _ _ he => he

end QuillDb
