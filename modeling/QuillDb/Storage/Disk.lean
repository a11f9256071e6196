/-
  Storage/Disk.lean --- the database file, and what a crash leaves of it.

  The file is a whole number of pages: every write is one page at a page
  offset and every truncation is to a page boundary (`quilldb/storage/pager.py`).
  Operations since the last fsync are kept apart from the synced content, so
  that a crash may keep any subset of them.
-/
import QuillDb.Basic
import Mathlib.Data.List.GetD
import Mathlib.Data.List.Induction
import Mathlib.Data.List.Perm.Subperm

set_option autoImplicit false

namespace QuillDb

/-- The `PAGE_SIZE` bytes of one page. -/
structure Page where
  bytes : Bytes
  length_eq : bytes.length = pageSize
  deriving DecidableEq

namespace Page

/-- `bytearray(PAGE_SIZE)`. -/
def zero : Page := ⟨List.replicate pageSize 0, List.length_replicate⟩

instance : Inhabited Page := ⟨zero⟩

/-- `page[:len(front)] = front`. -/
def overwrite (p : Page) (front : Bytes) : Page :=
  ⟨(front ++ p.bytes.drop front.length).take pageSize, by
    simp only [List.length_take, List.length_append, List.length_drop, p.length_eq]; omega⟩

theorem take_overwrite (p : Page) {front : Bytes} (h : front.length ≤ pageSize) :
    (p.overwrite front).bytes.take front.length = front := by
  unfold overwrite
  rw [List.take_take, min_eq_left h, List.take_left]

theorem ext' {p q : Page} (h : p.bytes = q.bytes) : p = q := by
  cases p; cases q; cases h; rfl

end Page

/-- A database file: page `n` is the element at index `n - 1`. -/
abbrev DbFile : Type := List Page

namespace DbFile

/-- The page a read of `id` sees; past the end of the file it is all zeros. -/
def page (f : DbFile) (id : Nat) : Page := f.getD (id - 1) Page.zero

/-- `os.pwrite` of one page: a gap before it is filled with zeros. -/
def pwrite (f : DbFile) (id : Nat) (p : Page) : DbFile :=
  (f ++ List.replicate (id - f.length) Page.zero).set (id - 1) p

/-- `truncate(n * PAGE_SIZE)`: cuts, or extends with zeros. -/
def resize (f : DbFile) (n : Nat) : DbFile :=
  f.take n ++ List.replicate (n - f.length) Page.zero

theorem length_pwrite (f : DbFile) (id : Nat) (p : Page) :
    (f.pwrite id p).length = max f.length id := by
  simp only [pwrite, List.length_set, List.length_append, List.length_replicate]
  omega

theorem length_resize (f : DbFile) (n : Nat) : (f.resize n).length = n := by
  simp only [resize, List.length_append, List.length_take, List.length_replicate]
  omega

theorem page_append_zeros (f : DbFile) (k : Nat) (id : Nat) :
    (f ++ List.replicate k Page.zero).page id = f.page id := by
  unfold page
  by_cases h : id - 1 < f.length
  · rw [List.getD_append _ _ _ _ h]
  · rw [List.getD_append_right _ _ _ _ (by omega), List.getD_eq_default f _ (by omega)]
    by_cases h' : id - 1 - f.length < k
    · rw [List.getD_replicate _ h']
    · rw [List.getD_eq_default _ _ (by rw [List.length_replicate]; omega)]

theorem page_pwrite_self (f : DbFile) {id : Nat} (hid : 1 ≤ id) (p : Page) :
    (f.pwrite id p).page id = p := by
  unfold page pwrite
  rw [List.getD_eq_getElem _ _ (by simp; omega), List.getElem_set_self]

theorem page_pwrite_ne (f : DbFile) {id id' : Nat} (hid : 1 ≤ id) (hid' : 1 ≤ id')
    (hne : id' ≠ id) (p : Page) : (f.pwrite id p).page id' = f.page id' := by
  rw [← page_append_zeros f (id - f.length) id']
  unfold page pwrite
  simp only [List.getD_eq_getElem?_getD, List.getElem?_set]
  rw [if_neg (by omega)]

theorem page_resize (f : DbFile) {n : Nat} {id : Nat} (hid : 1 ≤ id) (hn : id ≤ n) :
    (f.resize n).page id = f.page id := by
  rw [resize, page_append_zeros]
  unfold page
  simp only [List.getD_eq_getElem?_getD, List.getElem?_take]
  rw [if_pos (by omega)]

/-- A file is determined by its length and its pages. -/
theorem ext_page {f g : DbFile} (hlen : f.length = g.length)
    (hpage : ∀ id, 1 ≤ id → id ≤ f.length → f.page id = g.page id) : f = g := by
  refine List.ext_getElem hlen fun i hf hg => ?_
  have h := hpage (i + 1) (by omega) (by omega)
  unfold page at h
  rwa [Nat.add_sub_cancel, List.getD_eq_getElem _ _ hf, List.getD_eq_getElem _ _ hg] at h

end DbFile

/-! ## Operations and crashes -/

/-- An operation on the database file that reaches the disk at the next fsync. -/
inductive FileOp where
  | write (id : Nat) (page : Page)
  | truncate (pageCount : Nat)

namespace FileOp

def apply (f : DbFile) : FileOp → DbFile
  | .write id page => f.pwrite id page
  | .truncate n => f.resize n

end FileOp

/-- The database file: its synced content and the operations since the last fsync. -/
structure Disk where
  synced : DbFile
  pending : List FileOp

namespace Disk

/-- What the running process reads. -/
def file (d : Disk) : DbFile := d.pending.foldl FileOp.apply d.synced

def issue (d : Disk) (op : FileOp) : Disk := { d with pending := d.pending ++ [op] }

/-- `os.fsync`. -/
def sync (d : Disk) : Disk := { synced := d.file, pending := [] }

/-- A crash keeps the synced content and any of the pending operations, in any order. -/
def CrashImage (d : Disk) (f : DbFile) : Prop :=
  ∃ kept : List FileOp, kept.Subperm d.pending ∧ f = kept.foldl FileOp.apply d.synced

@[simp] theorem file_issue (d : Disk) (op : FileOp) : (d.issue op).file = op.apply d.file := by
  simp [file, issue]

@[simp] theorem pending_issue (d : Disk) (op : FileOp) :
    (d.issue op).pending = d.pending ++ [op] := rfl

@[simp] theorem synced_issue (d : Disk) (op : FileOp) : (d.issue op).synced = d.synced := rfl

@[simp] theorem file_sync (d : Disk) : d.sync.file = d.file := rfl

/-- Nothing is on its way to the disk. -/
theorem eq_of_synced {d : Disk} (h : d.pending = []) : d = ⟨d.file, []⟩ := by
  obtain ⟨synced, pending⟩ := d
  obtain rfl : pending = [] := h
  rfl

/-- What every pending operation preserves holds of every crash image. -/
theorem CrashImage.induction {d : Disk} {f : DbFile} (hf : d.CrashImage f)
    (good : DbFile → Prop) (hsynced : good d.synced)
    (hstep : ∀ op ∈ d.pending, ∀ g, good g → good (op.apply g)) : good f := by
  obtain ⟨kept, hkept, rfl⟩ := hf
  have hmem : ∀ op ∈ kept, op ∈ d.pending := fun op hop => hkept.subset hop
  clear hkept
  induction kept using List.reverseRecOn with
  | nil => exact hsynced
  | append_singleton kept op ih =>
      rw [List.foldl_append]
      exact hstep op (hmem op (by simp)) _ (ih fun o ho => hmem o (by simp [ho]))

/-- With nothing pending a crash loses nothing. -/
theorem CrashImage.eq_synced {d : Disk} {f : DbFile} (hf : d.CrashImage f)
    (hpending : d.pending = []) : f = d.synced :=
  hf.induction (· = d.synced) rfl fun op hop => by simp [hpending] at hop

/-- The content the process reads, if every pending operation reached the disk. -/
theorem crashImage_file (d : Disk) : d.CrashImage d.file :=
  ⟨d.pending, List.Subperm.refl _, rfl⟩

end Disk

end QuillDb
