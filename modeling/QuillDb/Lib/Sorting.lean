/-
  Lib/Sorting.lean --- sorting and deduplication of lists.

  A comparison is often an order on some elements only: numbers that are not a NaN, rows of
  one width.  Where the elements of a list are such, `mergeSort` sorts it.
-/
import Mathlib.Data.List.Sort
import Mathlib.Data.List.Pairwise

set_option autoImplicit false

namespace Sorting

variable {α β : Type}

/-! ## Sorting -/

/-- The comparison is a total preorder of the elements with the property. -/
structure OrdersOn (p : α → Prop) (le : α → α → Bool) : Prop where
  trans : ∀ a b c, p a → p b → p c → le a b = true → le b c = true → le a c = true
  total : ∀ a b, p a → p b → le a b = true ∨ le b a = true

/-- A list of such elements is sorted by `mergeSort`. -/
theorem OrdersOn.pairwise_mergeSort {p : α → Prop} {le : α → α → Bool} (h : OrdersOn p le) {xs : List α}
    (hxs : ∀ x ∈ xs, p x) : (xs.mergeSort le).Pairwise fun a b => le a b = true := by
  let le' (a b : {x // p x}) : Bool := le a.1 b.1
  have hmap : ((xs.attachWith p hxs).mergeSort le').map Subtype.val = xs.mergeSort le := by
    rw [List.map_mergeSort (s := le) fun a _ b _ => rfl, List.attachWith_map_subtype_val]
  have hsorted : ((xs.attachWith p hxs).mergeSort le').Pairwise fun a b => le' a b = true := by
    apply List.pairwise_mergeSort
    · exact fun a b c => h.trans a.1 b.1 c.1 a.2 b.2 c.2
    · intro a b
      simpa using h.total a.1 b.1 a.2 b.2
  rw [← hmap, List.pairwise_map]
  exact hsorted

/-! ## Deduplication -/

/-- The elements that none of `seen` and none before them is the same as. -/
def distinctFrom (same : α → α → Bool) (seen : List α) : List α → List α
  | [] => []
  | x :: xs =>
      if seen.any (same x) then distinctFrom same seen xs
      else x :: distinctFrom same (x :: seen) xs

/-- What is left of a list without its repetitions: some of its elements in their order, no
later one the same as an earlier one, and each other element the same as one of them. -/
structure Deduplicated (same : α → α → Bool) (xs ys : List α) : Prop where
  sublist : ys.Sublist xs
  apart : ys.Pairwise fun a b => same b a = false
  covers : ∀ x ∈ xs, x ∈ ys ∨ ∃ y ∈ ys, same x y = true

theorem distinctFrom_sublist (same : α → α → Bool) (seen xs : List α) : (distinctFrom same seen xs).Sublist xs := by
  induction xs generalizing seen with
  | nil => exact List.Sublist.slnil
  | cons x xs ih =>
      rw [distinctFrom]
      split
      · exact (ih seen).cons x
      · exact (ih (x :: seen)).cons_cons x

theorem distinctFrom_new {same : α → α → Bool} {seen xs : List α} :
    ∀ y ∈ distinctFrom same seen xs, seen.any (same y) = false := by
  induction xs generalizing seen with
  | nil => simp [distinctFrom]
  | cons x xs ih =>
      rw [distinctFrom]
      split
      · exact ih
      · rename_i hnew
        intro y hy
        rcases List.mem_cons.mp hy with rfl | hy
        · simpa using hnew
        · have hlater := ih y hy
          rw [List.any_cons, Bool.or_eq_false_iff] at hlater
          exact hlater.2

theorem distinctFrom_apart (same : α → α → Bool) (seen xs : List α) :
    (distinctFrom same seen xs).Pairwise fun a b => same b a = false := by
  induction xs generalizing seen with
  | nil => exact .nil
  | cons x xs ih =>
      rw [distinctFrom]
      split
      · exact ih seen
      · refine List.pairwise_cons.mpr ⟨fun y hy => ?_, ih (x :: seen)⟩
        have hlater := distinctFrom_new y hy
        rw [List.any_cons, Bool.or_eq_false_iff] at hlater
        exact hlater.1

theorem distinctFrom_covers (same : α → α → Bool) (seen xs : List α) : ∀ x ∈ xs,
    x ∈ distinctFrom same seen xs ∨ ∃ y ∈ seen ++ distinctFrom same seen xs, same x y = true := by
  induction xs generalizing seen with
  | nil => simp
  | cons z xs ih =>
      intro x hx
      rw [distinctFrom]
      split
      · rename_i hseen
        rcases List.mem_cons.mp hx with rfl | hx
        · obtain ⟨y, hy, hsame⟩ := List.any_eq_true.mp hseen
          exact .inr ⟨y, List.mem_append_left _ hy, hsame⟩
        · exact ih seen x hx
      · rcases List.mem_cons.mp hx with rfl | hx
        · exact .inl (List.mem_cons_self ..)
        · rcases ih (z :: seen) x hx with hmem | ⟨y, hy, hsame⟩
          · exact .inl (List.mem_cons_of_mem _ hmem)
          · refine .inr ⟨y, ?_, hsame⟩
            simp only [List.cons_append, List.mem_cons, List.mem_append] at hy ⊢
            tauto

theorem deduplicated_distinctFrom (same : α → α → Bool) (xs : List α) :
    Deduplicated same xs (distinctFrom same [] xs) := by
  refine ⟨distinctFrom_sublist same [] xs, distinctFrom_apart same [] xs, fun x hx => ?_⟩
  simpa using distinctFrom_covers same [] xs x hx

end Sorting
