/-
  BTree/CellCut.lean --- where a parsed page cuts its cells.

  Source: `parse_page` of `quilldb/storage/page.py`, the decoders of
  `quilldb/btree/cells.py`.

  A cell says its own length, but `parse_page` never asks: it ends each cell where
  the one before it in key order starts.
-/
import QuillDb.BTree.CellCodec

set_option autoImplicit false

namespace QuillDb

namespace Slotted

/-! ## Cells at a place of a page -/

/-- A cell of one of the four formats. -/
inductive Cell where
  | leafTable (cell : TableLeafCell)
  | interiorTable (cell : InteriorCell Int)
  | leafIndex (cell : Payload)
  | interiorIndex (cell : InteriorCell Payload)
  deriving DecidableEq

/-- The `decode_*_cell` of a page type. -/
def decodeCell (pageType : PageType) (cell : Bytes) : Except DbError Cell :=
  match pageType with
  | .leafTable => (decodeLeafTableCell cell).map .leafTable
  | .interiorTable => (decodeInteriorTableCell cell).map .interiorTable
  | .leafIndex => (decodeLeafIndexCell cell).map .leafIndex
  | .interiorIndex => (decodeInteriorIndexCell cell).map .interiorIndex

/-- The cell at `p` takes `n` bytes: these decode and fewer do not. -/
structure CellAt (pageType : PageType) (data : Bytes) (p n : Nat) : Prop where
  decodes : ∃ cell, decodeCell pageType (slice data p n) = .ok cell
  shortest : ∀ m < n, ∀ cell, decodeCell pageType (slice data p m) ≠ .ok cell

section Decoders

variable {pageType : PageType} {cell post data : Bytes} {p n : Nat}

theorem map_eq_ok {α β : Type} {f : α → β} {m : Except DbError α} {b : β} :
    m.map f = .ok b ↔ ∃ a, m = .ok a ∧ f a = b := by
  cases m with
  | error e => exact ⟨fun h => (nomatch h), fun ⟨_, h, _⟩ => nomatch h⟩
  | ok a =>
      constructor
      · intro h
        exact ⟨a, rfl, Except.ok.inj h⟩
      · rintro ⟨a', ha, rfl⟩
        obtain rfl := Except.ok.inj ha
        rfl

theorem decodePayload_append {total headerLen : Nat} {payload : Payload} (hheader : headerLen ≤ cell.length)
    (h : decodePayload pageType cell total headerLen = .ok payload) :
    decodePayload pageType (cell ++ post) total headerLen = .ok payload := by
  rw [decodePayload] at h ⊢
  simp only at h ⊢
  split at h
  · cases h
  · rename_i hlocal
    have hroom : headerLen + localPayloadSize pageType total ≤ cell.length := by
      rw [slice, List.length_take, List.length_drop] at hlocal
      omega
    rw [slice_append_left hroom, if_neg hlocal]
    split at h
    · rename_i hspill
      split at h
      · cases h
      · rename_i hpage
        have hroom' : headerLen + localPayloadSize pageType total + 4 ≤ cell.length := by
          rw [slice, List.length_take, List.length_drop] at hpage
          omega
        rw [if_pos hspill, slice_append_left hroom', if_neg hpage]
        exact h
    · rename_i hspill
      rw [if_neg hspill]
      exact h

theorem decodeLeafTableCell_append {c : TableLeafCell} (h : decodeLeafTableCell cell = .ok c) :
    decodeLeafTableCell (cell ++ post) = .ok c := by
  obtain ⟨⟨total, n1⟩, htotal, hrest⟩ := Fallible.bind_eq_ok h
  obtain ⟨⟨raw, n2⟩, hrow, -⟩ := Fallible.bind_eq_ok hrest
  rw [decodeLeafTableCell_eq htotal hrow, map_eq_ok] at h
  obtain ⟨payload, hpayload, rfl⟩ := h
  rw [decodeLeafTableCell_eq (decodeUvarint_append htotal) (decodeUvarint_append hrow),
    decodePayload_append (decodeUvarint_ok hrow).2.2.2.2 hpayload]
  rfl

theorem decodeInteriorTableCell_append {c : InteriorCell Int} (h : decodeInteriorTableCell cell = .ok c) :
    decodeInteriorTableCell (cell ++ post) = .ok c := by
  unfold decodeInteriorTableCell at h ⊢
  split at h
  · cases h
  · rename_i hlen
    obtain ⟨r, hrow, h⟩ := Fallible.bind_eq_ok h
    rw [if_neg (by rw [List.length_append]; omega), decodeUvarint_append hrow,
      slice_append_left (by omega)]
    exact h

theorem decodeLeafIndexCell_append {c : Payload} (h : decodeLeafIndexCell cell = .ok c) :
    decodeLeafIndexCell (cell ++ post) = .ok c := by
  unfold decodeLeafIndexCell at h ⊢
  obtain ⟨r, htotal, h⟩ := Fallible.bind_eq_ok h
  have hroom := (decodeUvarint_ok htotal).2.2.2.2
  rw [decodeUvarint_append htotal]
  exact decodePayload_append (by omega) h

theorem decodeInteriorIndexCell_append {c : InteriorCell Payload} (h : decodeInteriorIndexCell cell = .ok c) :
    decodeInteriorIndexCell (cell ++ post) = .ok c := by
  unfold decodeInteriorIndexCell at h ⊢
  split at h
  · cases h
  · rename_i hlen
    obtain ⟨r, htotal, h⟩ := Fallible.bind_eq_ok h
    obtain ⟨payload, hpayload, h⟩ := Fallible.bind_eq_ok h
    rw [if_neg (by rw [List.length_append]; omega), decodeUvarint_append htotal,
      slice_append_left (by omega)]
    simp only [bind, Except.bind]
    rw [decodePayload_append (decodeUvarint_ok htotal).2.2.2.2 hpayload]
    exact h

/-- Bytes behind a cell do not matter. -/
theorem decodeCell_append {c : Cell} (h : decodeCell pageType cell = .ok c) :
    decodeCell pageType (cell ++ post) = .ok c := by
  cases pageType with
  | leafTable =>
      obtain ⟨d, hd, rfl⟩ := map_eq_ok.mp h
      exact map_eq_ok.mpr ⟨d, decodeLeafTableCell_append hd, rfl⟩
  | interiorTable =>
      obtain ⟨d, hd, rfl⟩ := map_eq_ok.mp h
      exact map_eq_ok.mpr ⟨d, decodeInteriorTableCell_append hd, rfl⟩
  | leafIndex =>
      obtain ⟨d, hd, rfl⟩ := map_eq_ok.mp h
      exact map_eq_ok.mpr ⟨d, decodeLeafIndexCell_append hd, rfl⟩
  | interiorIndex =>
      obtain ⟨d, hd, rfl⟩ := map_eq_ok.mp h
      exact map_eq_ok.mpr ⟨d, decodeInteriorIndexCell_append hd, rfl⟩

theorem decodeCell_nil (c : Cell) : decodeCell pageType [] ≠ .ok c := by
  cases pageType <;> exact fun h => nomatch h

theorem CellAt.pos (h : CellAt pageType data p n) : 0 < n := by
  obtain ⟨c, hc⟩ := h.decodes
  rcases Nat.eq_zero_or_pos n with rfl | hn
  · exact (decodeCell_nil c hc).elim
  · exact hn

theorem CellAt.unique (h : CellAt pageType data p n) {m : Nat} (h' : CellAt pageType data p m) : n = m := by
  obtain ⟨c, hc⟩ := h.decodes
  obtain ⟨c', hc'⟩ := h'.decodes
  rcases Nat.lt_trichotomy n m with hlt | heq | hlt
  · exact (h'.shortest n hlt c hc).elim
  · exact heq
  · exact (h.shortest m hlt c' hc').elim

/-- A cell lies inside its page. -/
theorem CellAt.room (h : CellAt pageType data p n) : p + n ≤ data.length := by
  have hpos := h.pos
  obtain ⟨c, hc⟩ := h.decodes
  by_contra hout
  refine h.shortest (data.length - p) (by omega) c ?_
  rw [← hc, slice, slice, List.take_of_length_le (by rw [List.length_drop]),
    List.take_of_length_le (by rw [List.length_drop]; omega)]

/-- Any cut that holds the cell decodes as the page from there on does. -/
theorem CellAt.decode_cut (h : CellAt pageType data p n) {m : Nat} (hm : n ≤ m) :
    decodeCell pageType (slice data p m) = decodeCell pageType (data.drop p) := by
  obtain ⟨c, hc⟩ := h.decodes
  have hcut (rest : Bytes) (hrest : rest.take n = slice data p n) : decodeCell pageType rest = .ok c := by
    rw [← hrest] at hc
    rw [← List.take_append_drop n rest]
    exact decodeCell_append hc
  rw [hcut (data.drop p) rfl]
  refine hcut (slice data p m) ?_
  rw [slice, slice, List.take_take, Nat.min_eq_left hm]

end Decoders

/-! ## Pages -/

/-- The bytes of a b-tree page, whose header starts the page or follows the file header. -/
structure RawPage where
  data : Bytes
  headerOffset : Nat
  pageType : PageType
  length_data : data.length = pageSize
  offset : headerOffset = 0 ∨ headerOffset = fileHeaderSize
  code : data[headerOffset]? = some (UInt8.ofNat pageType.code)

namespace RawPage

/-- The pointer array, as it stands. -/
def pointersFrom (data : Bytes) : Nat → Nat → List Nat
  | 0, _ => []
  | n + 1, offset => fromBytes (slice data offset 2) :: pointersFrom data n (offset + 2)

def cellCount (page : RawPage) : Nat := fromBytes (slice page.data (page.headerOffset + 3) 2)

def arrayStart (page : RawPage) : Nat := page.headerOffset + page.pageType.headerSize

def arrayEnd (page : RawPage) : Nat := page.arrayStart + 2 * page.cellCount

def pointers (page : RawPage) : List Nat := pointersFrom page.data page.cellCount page.arrayStart

/-- A whole cell lies at a pointer. -/
def HasCell (page : RawPage) (p : Nat) : Prop := ∃ n, CellAt page.pageType page.data p n

/-- The cells at two pointers do not overlap. -/
def Apart (page : RawPage) (p q : Nat) : Prop :=
  ∀ n m, CellAt page.pageType page.data p n → CellAt page.pageType page.data q m → p + n ≤ q ∨ q + m ≤ p

/-- Some cell reaches past the end of the page, or two of them overlap. -/
def Malformed (page : RawPage) : Prop :=
  (∃ p ∈ page.pointers, ¬ page.HasCell p) ∨ ¬ page.pointers.Pairwise page.Apart

/-- Whole cells behind the pointer array, apart from each other, in any order. -/
structure WellFormed (page : RawPage) : Prop where
  array : page.arrayEnd ≤ pageSize
  behind : ∀ p ∈ page.pointers, page.arrayEnd ≤ p
  cells : ∀ p ∈ page.pointers, page.HasCell p
  apart : page.pointers.Pairwise page.Apart

/-- Parsing gives one string for each pointer, which decodes as the page does there; and it
refuses a malformed page. -/
structure CutsRight (page : RawPage) : Prop where
  cells : page.WellFormed → ∃ body, parsePage page.data page.headerOffset = .ok body ∧
    List.Forall₂ (fun p cell => decodeCell page.pageType cell = decodeCell page.pageType (page.data.drop p))
      page.pointers body.cells
  refuses : page.Malformed →
    ∃ message, parsePage page.data page.headerOffset = .error (.malformedCell message)

/-- The array reaches past the page, or a pointer leads out of the space behind it. -/
def Escapes (page : RawPage) : Prop :=
  pageSize < page.arrayEnd ∨ ∃ p ∈ page.pointers, ¬ (page.arrayEnd ≤ p ∧ p ≤ pageSize)

end RawPage

section Parse

variable {data : Bytes} {arrayEnd n offset : Nat} {page : RawPage}

theorem readPointers_eq :
    (∀ p ∈ RawPage.pointersFrom data n offset, arrayEnd ≤ p ∧ p ≤ pageSize) ∧
        readPointers data arrayEnd n offset = .ok (RawPage.pointersFrom data n offset) ∨
      (∃ p ∈ RawPage.pointersFrom data n offset, ¬ (arrayEnd ≤ p ∧ p ≤ pageSize)) ∧
        readPointers data arrayEnd n offset = .error (.malformedCell "Corrupted") := by
  induction n generalizing offset with
  | zero => exact .inl ⟨fun _ hp => (nomatch hp), rfl⟩
  | succ n ih =>
      rw [RawPage.pointersFrom, readPointers]
      by_cases hin : arrayEnd ≤ fromBytes (slice data offset 2) ∧ fromBytes (slice data offset 2) ≤ pageSize
      · rw [if_neg (not_not.mpr hin)]
        rcases @ih (offset + 2) with ⟨hall, hread⟩ | ⟨⟨p, hp, hout⟩, hread⟩
        · rw [hread]
          exact .inl ⟨List.forall_mem_cons.mpr ⟨hin, hall⟩, rfl⟩
        · rw [hread]
          exact .inr ⟨⟨p, List.mem_cons_of_mem _ hp, hout⟩, rfl⟩
      · rw [if_pos hin]
        exact .inr ⟨⟨_, List.mem_cons_self .., hin⟩, rfl⟩

/-- `parse_page` looks at where the pointers lead, and at nothing else. -/
theorem parsePage_eq (page : RawPage) :
    page.Escapes ∧ parsePage page.data page.headerOffset = .error (.malformedCell "Corrupted") ∨
      ¬ page.Escapes ∧ ∃ body, parsePage page.data page.headerOffset = .ok body ∧
        body.cells = cutCells page.data pageSize page.pointers := by
  have hcode : PageType.ofCode (UInt8.ofNat page.pageType.code) = some page.pageType :=
    PageType.ofCode_code page.pageType
  rw [parsePage, page.code]
  simp only [hcode]
  by_cases harray : pageSize < page.arrayEnd
  · exact .inl ⟨.inl harray, if_pos harray⟩
  · have hread := @readPointers_eq page.data page.arrayEnd page.cellCount page.arrayStart
    rw [RawPage.arrayEnd, RawPage.arrayStart, RawPage.cellCount] at harray hread
    rw [if_neg harray]
    rcases hread with ⟨hall, hread⟩ | ⟨hout, hread⟩
    · rw [hread]
      refine .inr ⟨?_, _, rfl, rfl⟩
      rintro (h | ⟨p, hp, hout⟩)
      · exact harray h
      · exact hout (hall p hp)
    · rw [hread]
      exact .inl ⟨.inr hout, rfl⟩

/-- Cells cut from descending pointers are whole, and only then. -/
theorem cutCells_decode_iff {t : PageType} {pointers : List Nat} {stop : Nat}
    (hcells : ∀ p ∈ pointers, ∃ n, CellAt t data p n)
    (hstop : ∀ p ∈ pointers, ∀ n, CellAt t data p n → p + n ≤ stop ∨ stop ≤ p)
    (hapart : pointers.Pairwise fun p q =>
      ∀ n m, CellAt t data p n → CellAt t data q m → p + n ≤ q ∨ q + m ≤ p) :
    List.Forall₂ (fun p cell => decodeCell t cell = decodeCell t (data.drop p)) pointers
        (cutCells data stop pointers) ↔ (stop :: pointers).Pairwise (· > ·) := by
  induction pointers generalizing stop with
  | nil => exact iff_of_true .nil (List.pairwise_singleton _ _)
  | cons p pointers ih =>
      obtain ⟨n, hn⟩ := hcells p (List.mem_cons_self ..)
      rw [List.pairwise_cons] at hapart
      have hrest := @ih p (fun q hq => hcells q (List.mem_cons_of_mem _ hq))
        (fun q hq m hm => (hapart.1 q hq n m hn hm).symm.imp_right fun h => by omega) hapart.2
      rw [cutCells, List.forall₂_cons, hrest]
      have hwhole : decodeCell t (slice data p (stop - p)) = decodeCell t (data.drop p) ↔ p < stop := by
        constructor
        · intro heq
          by_contra hge
          have hempty : slice data p (stop - p) = [] := by
            rw [Nat.sub_eq_zero_of_le (Nat.not_lt.mp hge)]
            rfl
          obtain ⟨c, hc⟩ := hn.decodes
          rw [hempty, ← hn.decode_cut (Nat.le_refl n), hc] at heq
          exact decodeCell_nil c heq
        · intro hlt
          refine hn.decode_cut ?_
          have := hstop p (List.mem_cons_self ..) n hn
          omega
      rw [hwhole]
      constructor
      · rintro ⟨hlt, hdesc⟩
        refine List.pairwise_cons.mpr ⟨List.forall_mem_cons.mpr ⟨hlt, fun q hq => ?_⟩, hdesc⟩
        exact Nat.lt_trans ((List.pairwise_cons.mp hdesc).1 q hq) hlt
      · intro hdesc
        obtain ⟨hlt, hdesc⟩ := List.pairwise_cons.mp hdesc
        exact ⟨hlt p (List.mem_cons_self ..), hdesc⟩

end Parse

/-- A page is cut right exactly when the cells of a well-formed page lie in descending order
and a malformed page has a pointer that leads out of the content area. -/
theorem cutsRight_iff (page : RawPage) :
    page.CutsRight ↔ (page.WellFormed → page.pointers.Pairwise (· > ·)) ∧ (page.Malformed → page.Escapes) := by
  have hparse := parsePage_eq page
  have hcut (h : page.WellFormed) : List.Forall₂ (fun p cell => decodeCell page.pageType cell =
      decodeCell page.pageType (page.data.drop p)) page.pointers
        (cutCells page.data pageSize page.pointers) ↔ page.pointers.Pairwise (· > ·) := by
    have hroom : ∀ p ∈ page.pointers, ∀ n, CellAt page.pageType page.data p n → p + n ≤ pageSize :=
      fun p _ n hn => page.length_data ▸ hn.room
    rw [cutCells_decode_iff h.cells (fun p hp n hn => .inl (hroom p hp n hn)) h.apart, List.pairwise_cons,
      and_iff_right]
    intro p hp
    obtain ⟨n, hn⟩ := h.cells p hp
    have := hroom p hp n hn
    have := hn.pos
    omega
  have hstays (h : page.WellFormed) : ¬ page.Escapes := by
    rintro (harray | ⟨p, hp, hout⟩)
    · exact Nat.not_lt.mpr h.array harray
    · obtain ⟨n, hn⟩ := h.cells p hp
      have := page.length_data ▸ hn.room
      exact hout ⟨h.behind p hp, by omega⟩
  constructor
  · intro h
    constructor
    · intro hwell
      obtain ⟨body, hbody, hdecode⟩ := h.cells hwell
      rcases hparse with ⟨hescapes, -⟩ | ⟨-, body', hbody', hcells⟩
      · exact (hstays hwell hescapes).elim
      · obtain rfl := Except.ok.inj (hbody.symm.trans hbody')
        exact (hcut hwell).mp (hcells ▸ hdecode)
    · intro hbad
      obtain ⟨message, herror⟩ := h.refuses hbad
      rcases hparse with ⟨hescapes, -⟩ | ⟨-, body, hbody, -⟩
      · exact hescapes
      · rw [hbody] at herror
        cases herror
  · rintro ⟨hdesc, hescapes⟩
    rcases hparse with ⟨hout, hread⟩ | ⟨hin, body, hread, hcells⟩
    · exact ⟨fun hwell => (hstays hwell hout).elim, fun _ => ⟨_, hread⟩⟩
    · refine ⟨fun hwell => ⟨body, hread, ?_⟩, fun hbad => (hin (hescapes hbad)).elim⟩
      rw [hcells]
      exact (hcut hwell).mpr (hdesc hwell)

/-! ## Two rows in the order they were written -/

/-- The header of a leaf page of two rows, its pointers and the space behind them. -/
def twoRowsFront : Bytes := [0x0d, 0, 0, 0, 2, 0x0f, 0xf8, 0, 0x0f, 0xf8, 0x0f, 0xfc] ++ zeros 4076

/-- The rows of rowid 1 and 2, the first of them written first. -/
def twoRows : RawPage where
  data := twoRowsFront ++ ([2, 1, 0xaa, 0xab] ++ [2, 2, 0xba, 0xbb])
  headerOffset := 0
  pageType := .leafTable
  length_data := by
    rw [List.length_append, twoRowsFront, List.length_append, zeros_length]
    rfl
  offset := .inl rfl
  code := rfl

theorem twoRowsFront_length : twoRowsFront.length = 4088 := by
  rw [twoRowsFront, List.length_append, zeros_length]
  rfl

theorem twoRows_first : CellAt .leafTable twoRows.data 4088 4 := by
  have hslice (m : Nat) : slice twoRows.data 4088 m = [2, 1, 0xaa, 0xab, 2, 2, 0xba, 0xbb].take m :=
    slice_append_right twoRowsFront_length.symm
  refine ⟨⟨.leafTable ⟨1, 2, [0xaa, 0xab], 0⟩, ?_⟩, fun m hm c => ?_⟩
  · rw [hslice]
    rfl
  · rw [hslice]
    obtain rfl | rfl | rfl | rfl : m = 0 ∨ m = 1 ∨ m = 2 ∨ m = 3 := by omega
    all_goals exact fun h => nomatch h

theorem twoRows_second : CellAt .leafTable twoRows.data 4092 4 := by
  have hslice (m : Nat) : slice twoRows.data 4092 m = [2, 2, 0xba, 0xbb].take m := by
    have hdata : twoRows.data = (twoRowsFront ++ [2, 1, 0xaa, 0xab]) ++ [2, 2, 0xba, 0xbb] :=
      (List.append_assoc ..).symm
    rw [hdata]
    refine slice_append_right ?_
    rw [List.length_append, twoRowsFront_length]
    rfl
  refine ⟨⟨.leafTable ⟨2, 2, [0xba, 0xbb], 0⟩, ?_⟩, fun m hm c => ?_⟩
  · rw [hslice]
    rfl
  · rw [hslice]
    obtain rfl | rfl | rfl | rfl : m = 0 ∨ m = 1 ∨ m = 2 ∨ m = 3 := by omega
    all_goals exact fun h => nomatch h

theorem twoRows_wellFormed : twoRows.pointers = [4088, 4092] ∧ twoRows.WellFormed := by
  have hpointers : twoRows.pointers = [4088, 4092] := rfl
  refine ⟨hpointers, by decide, ?_, ?_, ?_⟩
  · rw [hpointers]
    decide
  · rw [hpointers]
    exact List.forall_mem_cons.mpr ⟨⟨4, twoRows_first⟩, List.forall_mem_singleton.mpr ⟨4, twoRows_second⟩⟩
  · rw [hpointers]
    refine List.pairwise_pair.mpr fun n m hn _ => .inl ?_
    obtain rfl := twoRows_first.unique hn
    decide

/-- Two rows whose cells lie in the order of their keys: the second is cut to nothing. -/
theorem cutsRight_fails_on_ascending_cells :
    twoRows.WellFormed ∧ ¬ twoRows.CutsRight ∧
      ∃ body, parsePage twoRows.data 0 = .ok body ∧ body.cells = [[2, 1, 0xaa, 0xab, 2, 2, 0xba, 0xbb], []] := by
  obtain ⟨hpointers, hwell⟩ := twoRows_wellFormed
  have hcut : cutCells twoRows.data pageSize twoRows.pointers =
      [[2, 1, 0xaa, 0xab, 2, 2, 0xba, 0xbb], []] := by
    have hslice : slice twoRows.data 4088 8 = [2, 1, 0xaa, 0xab, 2, 2, 0xba, 0xbb] :=
      slice_append_right twoRowsFront_length.symm
    rw [hpointers, cutCells, cutCells]
    exact congrArg (· :: [[]]) hslice
  rcases parsePage_eq twoRows with ⟨-, herror⟩ | ⟨-, body, hbody, hcells⟩
  · refine absurd herror ?_
    rw [parsePage, twoRows.code]
    intro h
    cases h
  · refine ⟨hwell, fun h => ?_, body, hbody, hcells.trans hcut⟩
    obtain ⟨body', hbody', hdecode⟩ := h.cells hwell
    obtain rfl := Except.ok.inj (hbody.symm.trans hbody')
    rw [hcells, hcut, hpointers] at hdecode
    cases hdecode with
    | cons _ hrest =>
        cases hrest with
        | cons hsecond _ =>
            obtain ⟨c, hc⟩ := twoRows_second.decodes
            have hplace := twoRows_second.decode_cut (Nat.le_refl 4)
            exact decodeCell_nil c (hsecond.trans (hplace.symm.trans hc))

end Slotted

end QuillDb
