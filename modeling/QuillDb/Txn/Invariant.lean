/-
  Txn/Invariant.lean --- what holds of a transaction before its barrier.

  The database file is untouched, a clean cached page agrees with it, a dirty
  one is journalled or new, and the journal file holds the original of every
  journalled page that existed before.  Each pool operation keeps this whether
  it returns or raises.
-/
import QuillDb.Txn.Pool

set_option autoImplicit false

namespace QuillDb

open Prog

/-- The database as a transaction found it. -/
structure Snapshot where
  file : DbFile
  header : FileHeader

namespace Snapshot

/-- `page_count_before`. -/
def pageCount (b : Snapshot) : Nat := b.header.pageCount

/-- The originals of the journalled pages that existed before. -/
def originals (b : Snapshot) (journalled : List Nat) : List (Nat × Page) :=
  (journalled.filter fun id => id ≤ b.pageCount).map fun id => (id, b.file.page id)

theorem mem_originals {b : Snapshot} {journalled : List Nat} {r : Nat × Page} :
    r ∈ b.originals journalled ↔
      r.1 ∈ journalled ∧ r.1 ≤ b.pageCount ∧ r.2 = b.file.page r.1 := by
  obtain ⟨id, page⟩ := r
  simp only [originals, List.mem_map, List.mem_filter, decide_eq_true_eq, Prod.mk.injEq]
  constructor
  · rintro ⟨i, ⟨hmem, hle⟩, rfl, rfl⟩
    exact ⟨hmem, hle, rfl⟩
  · rintro ⟨hmem, hle, rfl⟩
    exact ⟨id, ⟨hmem, hle⟩, rfl, rfl⟩

theorem originals_append_new {b : Snapshot} {journalled : List Nat} {id : Nat}
    (h : b.pageCount < id) : b.originals (journalled ++ [id]) = b.originals journalled := by
  simp [originals, List.filter_append, h]

theorem originals_append_old {b : Snapshot} {journalled : List Nat} {id : Nat}
    (h : id ≤ b.pageCount) :
    b.originals (journalled ++ [id]) = b.originals journalled ++ [(id, b.file.page id)] := by
  simp [originals, List.filter_append, h]

theorem originals_eq_nil {b : Snapshot} {journalled : List Nat}
    (h : ∀ id ∈ journalled, b.pageCount < id) : b.originals journalled = [] := by
  rw [originals, List.filter_eq_nil_iff.mpr, List.map_nil]
  intro id hid
  simpa using h id hid

end Snapshot

/-- Only the fields a transaction may change differ. -/
def FileHeader.SameFrame (h h' : FileHeader) : Prop :=
  ∃ pageCount trunk count cookie,
    h' = { h with
      pageCount := pageCount, freelistTrunk := trunk, freelistCount := count,
      schemaCookie := cookie }

theorem FileHeader.SameFrame.refl (h : FileHeader) : h.SameFrame h :=
  ⟨h.pageCount, h.freelistTrunk, h.freelistCount, h.schemaCookie, rfl⟩

/-! ## The cache -/

/-- Cached pages are in range, clean ones agree with the file, and a dirty one
is journalled or was allocated by this transaction. -/
def CacheInv (n count : Nat) (file : DbFile) (journalled : List Nat) (c : Cache) : Prop :=
  ∀ id f, c.lookup id = some f →
    1 ≤ id ∧ id ≤ count ∧ (f.dirty = false → f.data = file.page id) ∧
      (f.dirty = true → id ∈ journalled ∨ n < id)

namespace CacheInv

variable {n count : Nat} {file : DbFile} {journalled : List Nat} {c : Cache}

theorem erase (h : CacheInv n count file journalled c) (id : Nat) :
    CacheInv n count file journalled (c.erase id) := by
  intro k f hf
  rw [Dict.lookup_erase] at hf
  split at hf
  · cases hf
  · exact h k f hf

theorem moveToEnd (h : CacheInv n count file journalled c) {id : Nat} {f g : Frame}
    (hf : c.lookup id = some f) (hdata : g.data = f.data) (hdirty : g.dirty = f.dirty) :
    CacheInv n count file journalled (c.moveToEnd id g) := by
  intro k f' hk
  rw [Dict.lookup_moveToEnd] at hk
  split at hk
  · rename_i hkid
    obtain rfl := Option.some.inj hk
    have := h id f hf
    rw [hkid, hdata, hdirty]
    exact this
  · exact h k f' hk

theorem append (h : CacheInv n count file journalled c) {id : Nat} {pin : Nat}
    (hid : 1 ≤ id ∧ id ≤ count) :
    CacheInv n count file journalled (c ++ [(id, ⟨file.page id, pin, false⟩)]) := by
  intro k f hk
  rw [Dict.lookup_append_single] at hk
  cases hc : c.lookup k with
  | some g =>
      rw [hc] at hk
      obtain rfl := Option.some.inj hk
      exact h k g hc
  | none =>
      rw [hc, Option.none_or] at hk
      split at hk
      · rename_i hkid
        obtain rfl := Option.some.inj hk
        rw [hkid]
        exact ⟨hid.1, hid.2, fun _ => rfl, nofun⟩
      · cases hk

theorem modify (h : CacheInv n count file journalled c) {id : Nat} {g : Frame → Frame}
    (hg : ∀ f, c.lookup id = some f →
      ((g f).dirty = false → (g f).data = file.page id) ∧
      ((g f).dirty = true → id ∈ journalled ∨ n < id)) :
    CacheInv n count file journalled (c.modify id g) := by
  intro k f hk
  rw [Dict.lookup_modify] at hk
  split at hk
  · rename_i hkid
    subst hkid
    obtain ⟨f', hf', rfl⟩ := Option.map_eq_some_iff.mp hk
    obtain ⟨hlo, hhi, -, -⟩ := h k f' hf'
    exact ⟨hlo, hhi, hg f' hf'⟩
  · exact h k f hk

theorem put_new (h : CacheInv n count file journalled c) {id : Nat} {p : Page} {pin : Nat}
    (hid : 1 ≤ id ∧ id ≤ count) (hnew : n < id) :
    CacheInv n count file journalled (c.put id ⟨p, pin, true⟩) := by
  intro k f hk
  rw [Dict.lookup_put] at hk
  split at hk
  · rename_i hkid
    obtain rfl := Option.some.inj hk
    rw [hkid]
    exact ⟨hid.1, hid.2, nofun, fun _ => .inr hnew⟩
  · exact h k f hk

theorem mono (h : CacheInv n count file journalled c) {count' : Nat} {journalled' : List Nat}
    (hcount : count ≤ count') (hsub : ∀ id ∈ journalled, id ∈ journalled') :
    CacheInv n count' file journalled' c := by
  intro k f hk
  obtain ⟨hlo, hhi, hclean, hdirty⟩ := h k f hk
  exact ⟨hlo, hhi.trans hcount, hclean, fun hd => (hdirty hd).imp (hsub k) id⟩

end CacheInv

/-! ## The journal -/

namespace Journal

/-- A write that leaves a zero where the magic would begin. -/
def Write.Quiet (w : Write) : Prop := w.off = 0 → w.data.getD 0 0 = 0

/-- No crash of this file can leave a magic. -/
structure File.Quiet (f : File) : Prop where
  synced : f.synced.getD 0 0 = 0
  pending : ∀ w ∈ f.pending, w.Quiet

end Journal

/-- The journal file of a transaction that has begun its journal. -/
structure JournalInv (b : Snapshot) (journalled : List Nat) (h : JournalHandle)
    (f : Journal.File) : Prop where
  opened : h.file = .opened
  nonce_lt : h.nonce < 2 ^ 32
  nrec_eq : h.nrec = (b.originals journalled).length
  linked : f.unlinked = false
  content_eq : f.content =
    Journal.layout (zeros 8) 0 h.nonce b.pageCount (b.originals journalled)
  quiet : f.Quiet

/-- The transaction's journal, begun or not. -/
def JournalState (b : Snapshot) (t : Transaction) (file : Option Journal.File) : Prop :=
  match t.journal with
  | none => file = none ∧ ∀ id ∈ t.journalled, b.pageCount < id
  | some h => ∃ f, file = some f ∧ JournalInv b t.journalled h f

/-! ## The machine -/

/-- A machine before the barrier of a transaction that began at `b`. -/
structure InTxn (b : Snapshot) (s : Machine) : Prop where
  disk : s.storage.disk = ⟨b.file, []⟩
  before : s.txn.pageCountBefore = b.pageCount
  barrier : s.txn.barrierPassed = false
  count_le : b.pageCount ≤ s.header.pageCount
  count_lt : b.pageCount < 2 ^ 32
  frame : b.header.SameFrame s.header
  ids : ∀ id ∈ s.txn.journalled, 1 ≤ id
  cache : CacheInv b.pageCount s.header.pageCount b.file s.txn.journalled s.cache
  journal : JournalState b s.txn s.storage.journal

namespace InTxn

variable {b : Snapshot} {s : Machine}

theorem file_eq (h : InTxn b s) : s.file = b.file := by
  simp [Machine.file, h.disk, Disk.file]

/-- Only the cache changed. -/
theorem with_cache (h : InTxn b s) {c : Cache}
    (hc : CacheInv b.pageCount s.header.pageCount b.file s.txn.journalled c) :
    InTxn b { s with cache := c } :=
  { h with cache := hc }

/-- Only the header changed, and the page count did not shrink. -/
theorem with_header (h : InTxn b s) {d : FileHeader} (hframe : b.header.SameFrame d)
    (hcount : s.header.pageCount ≤ d.pageCount) :
    InTxn b { s with storage := { s.storage with header := d } } :=
  { h with
    count_le := h.count_le.trans hcount
    frame := hframe
    cache := h.cache.mono hcount fun _ hid => hid }

end InTxn

end QuillDb
