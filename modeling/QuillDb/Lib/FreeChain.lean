/-
  Lib/FreeChain.lean --- a two-level free list, and what its users owe it.

  A node of the list is itself free.  It names the next node and any number of
  further free items.  The ledger records what was handed out and from where, so
  that no item can be lost or counted twice.
-/
import Mathlib.Data.List.Perm.Basic
import Mathlib.Data.List.Nodup

set_option autoImplicit false

namespace FreeChain

variable {α : Type}

/-- A node: the next one, and the free items it lists. -/
structure Node (α : Type) where
  next : α
  leaves : List α

/-- The free items of the list that starts at an item, in the order the nodes list them. -/
inductive Chain (node : α → Node α) (last : α) : α → List α → Prop
  | nil : Chain node last last []
  | cons {a : α} {rest : List α} (hne : a ≠ last) (hrest : Chain node last (node a).next rest) :
      Chain node last a (a :: ((node a).leaves ++ rest))

namespace Chain

variable {node node' : α → Node α} {last head : α} {free free' : List α}

/-- A list has one reading. -/
theorem unique (h : Chain node last head free) (h' : Chain node last head free') :
    free = free' := by
  induction h generalizing free' with
  | nil =>
      cases h' with
      | nil => rfl
      | cons hne _ => exact absurd rfl hne
  | cons hne _ ih =>
      cases h' with
      | nil => exact absurd rfl hne
      | cons _ hrest => rw [ih hrest]

/-- Only the nodes of the list matter. -/
theorem congr (h : Chain node last head free) (hsame : ∀ a ∈ free, node' a = node a) :
    Chain node' last head free := by
  induction h with
  | nil => exact .nil
  | @cons a rest hne _ ih =>
      have ha := hsame a (List.mem_cons_self ..)
      have hrest := ih fun b hb => hsame b (List.mem_cons_of_mem _ (List.mem_append_right _ hb))
      have hcons : Chain node' last a (a :: ((node' a).leaves ++ rest)) := .cons hne (ha ▸ hrest)
      rwa [ha] at hcons

theorem eq_nil_iff (h : Chain node last head free) : free = [] ↔ head = last := by
  constructor
  · rintro rfl
    cases h
    rfl
  · rintro rfl
    cases h with
    | nil => rfl
    | cons hne _ => exact absurd rfl hne

/-- A head node and the list behind it. -/
theorem of_node {a next : α} {leaves rest : List α} (hne : a ≠ last) (ha : node a = ⟨next, leaves⟩)
    (hrest : Chain node last next rest) : Chain node last a (a :: (leaves ++ rest)) := by
  have hcons := Chain.cons hne (show Chain node last (node a).next rest by rw [ha]; exact hrest)
  rwa [ha] at hcons

/-- Taking the head node apart. -/
theorem uncons (h : Chain node last head free) (hne : head ≠ last) :
    ∃ rest, free = head :: ((node head).leaves ++ rest) ∧ Chain node last (node head).next rest := by
  cases h with
  | nil => exact absurd rfl hne
  | cons _ hrest => exact ⟨_, rfl, hrest⟩

/-- A new head node without further items. -/
theorem push {a : α} (h : Chain node last head free) (hne : a ≠ last)
    (ha : node' a = ⟨head, []⟩) (hsame : ∀ b ∈ free, node' b = node b) :
    Chain node' last a (a :: free) :=
  of_node hne ha (h.congr hsame)

end Chain

/-! ## The ledger -/

/-- What the users of an allocator hold, what was made for them, and what they gave
back of what was in use before. -/
structure Ledger (α : Type) where
  held : List α
  grown : List α
  returned : List α

namespace Ledger

/-- Nothing held, nothing made, nothing given back. -/
def empty : Ledger α := ⟨[], [], []⟩

/-- An item of the free list is handed out. -/
def take (l : Ledger α) (a : α) : Ledger α := { l with held := a :: l.held }

/-- A new item is handed out. -/
def grow (l : Ledger α) (a : α) : Ledger α :=
  { l with held := a :: l.held, grown := a :: l.grown }

/-- An item comes back. -/
def give [DecidableEq α] (l : Ledger α) (a : α) : Ledger α :=
  if a ∈ l.held then { l with held := l.held.erase a } else { l with returned := a :: l.returned }

/-- Every item that was free at first, was made or was given back is either free or
held, and none of them twice. -/
structure Balanced (l : Ledger α) (start free : List α) : Prop where
  nodup : (free ++ l.held).Nodup
  conserved : (free ++ l.held).Perm (start ++ l.grown ++ l.returned)

variable {l : Ledger α} {start free : List α} {a : α}

theorem balanced_empty (h : start.Nodup) : (empty : Ledger α).Balanced start start := by
  constructor
  · rwa [empty, List.append_nil]
  · rw [empty, List.append_nil, List.append_nil]

theorem Balanced.not_held (h : l.Balanced start free) (ha : a ∈ free) : a ∉ l.held :=
  fun hheld => (List.disjoint_of_nodup_append h.nodup) ha hheld

/-- What is taken off the front of the free list is held instead. -/
theorem Balanced.take (h : l.Balanced start (a :: free)) : (l.take a).Balanced start free := by
  have hmoved : (free ++ a :: l.held).Perm (a :: free ++ l.held) := List.perm_middle
  exact ⟨hmoved.nodup_iff.mpr h.nodup, hmoved.trans h.conserved⟩

theorem Balanced.grow (h : l.Balanced start free) (hfree : a ∉ free) (hheld : a ∉ l.held) :
    (l.grow a).Balanced start free := by
  have hmoved : (free ++ a :: l.held).Perm (a :: (free ++ l.held)) := List.perm_middle
  constructor
  · refine hmoved.nodup_iff.mpr (List.nodup_cons.mpr ⟨?_, h.nodup⟩)
    rw [List.mem_append]
    rintro (hmem | hmem)
    · exact hfree hmem
    · exact hheld hmem
  · refine hmoved.trans ((h.conserved.cons a).trans ?_)
    rw [Ledger.grow, List.append_assoc, List.append_assoc]
    exact List.perm_middle.symm

theorem Balanced.give [DecidableEq α] (h : l.Balanced start free) (hfree : a ∉ free) :
    (l.give a).Balanced start (a :: free) := by
  unfold Ledger.give
  split
  · rename_i hheld
    have hmoved : (a :: free ++ l.held.erase a).Perm (free ++ l.held) :=
      List.perm_middle.symm.trans ((List.perm_cons_erase hheld).symm.append_left free)
    exact ⟨hmoved.nodup_iff.mpr h.nodup, hmoved.trans h.conserved⟩
  · rename_i hheld
    constructor
    · rw [List.cons_append, List.nodup_cons, List.mem_append]
      exact ⟨fun hmem => hmem.elim hfree hheld, h.nodup⟩
    · exact (h.conserved.cons a).trans List.perm_middle.symm

end Ledger

end FreeChain
