/-
  Lib/CycleSearch.lean --- depth-first search for a cycle.

  The graph is a labelled successor function.  The search carries the path it
  came by and stops at the first node it meets twice.  What it finds is a cycle
  reachable from where it started; and if it starts in a set each of whose
  nodes has a successor in the set, it finds one.
-/
import Mathlib.Data.List.Chain
import Mathlib.Data.List.Nodup
import Mathlib.Data.List.Perm.Subperm
import Mathlib.Logic.Relation

set_option autoImplicit false

namespace CycleSearch

variable {ν ε : Type}

/-! ## Cycles -/

/-- The nodes of a closed walk of `R`, in order, the start listed once. -/
def IsCycle (R : ν → ν → Prop) : List ν → Prop
  | [] => False
  | a :: l => List.IsChain R (a :: l ++ [a])

variable {R R' : ν → ν → Prop} {c : List ν}

theorem IsCycle.ne_nil (h : IsCycle R c) : c ≠ [] := by
  rintro rfl
  exact h

/-- Every node of a cycle has a successor on it. -/
theorem IsCycle.successor (h : IsCycle R c) {x : ν} (hx : x ∈ c) : ∃ y ∈ c, R x y := by
  cases c with
  | nil => cases hx
  | cons a l =>
      obtain ⟨p, q, hpq⟩ := List.append_of_mem hx
      have hchain : List.IsChain R (p ++ (x :: (q ++ [a]))) := by
        have : List.IsChain R (a :: l ++ [a]) := h
        rwa [hpq, List.append_assoc, List.cons_append] at this
      have hstep := (List.isChain_append.mp hchain).2.1
      cases q with
      | nil =>
          refine ⟨a, List.mem_cons_self .., ?_⟩
          exact (List.isChain_cons_cons.mp hstep).1
      | cons y q =>
          refine ⟨y, ?_, (List.isChain_cons_cons.mp hstep).1⟩
          rw [hpq]
          simp

theorem IsCycle.imp_of_mem (h : IsCycle R c) (hR : ∀ a ∈ c, ∀ b ∈ c, R a b → R' a b) :
    IsCycle R' c := by
  cases c with
  | nil => exact h
  | cons a l =>
      have hmem : ∀ x ∈ a :: l ++ [a], x ∈ a :: l := by
        intro x hx
        rcases List.mem_append.mp hx with hx | hx
        · exact hx
        · rw [List.mem_singleton.mp hx]
          exact List.mem_cons_self ..
      exact List.IsChain.imp_of_mem_imp (fun x y hx hy => hR x (hmem x hx) y (hmem y hy)) h

theorem IsCycle.mono (h : IsCycle R c) (hR : ∀ a b, R a b → R' a b) : IsCycle R' c := by
  cases c with
  | nil => exact h
  | cons a l => exact List.IsChain.imp hR h

/-- A chain of detours is a longer chain. -/
theorem exists_chain {a z : ν} {l : List ν}
    (h : List.IsChain (Relation.TransGen R) (a :: (l ++ [z]))) :
    ∃ l', List.IsChain R (a :: (l' ++ [z])) ∧ l ⊆ l' := by
  have hpath : ∀ x y, Relation.TransGen R x y → ∃ mid, List.IsChain R (x :: (mid ++ [y])) := by
    intro x y hxy
    induction hxy with
    | single hstep => exact ⟨[], List.isChain_cons_cons.mpr ⟨hstep, List.isChain_singleton _⟩⟩
    | @tail b c _ hstep ih =>
        obtain ⟨mid, hmid⟩ := ih
        refine ⟨mid ++ [b], ?_⟩
        rw [← List.cons_append]
        refine List.isChain_append.mpr ⟨hmid, List.isChain_singleton _, ?_⟩
        intro w hw v hv
        rw [← List.cons_append, List.getLast?_append, List.getLast?_singleton, Option.some_or] at hw
        cases hw
        cases hv
        exact hstep
  induction l generalizing a with
  | nil =>
      obtain ⟨mid, hmid⟩ := hpath a z (List.isChain_cons_cons.mp h).1
      exact ⟨mid, hmid, List.nil_subset _⟩
  | cons b l ih =>
      obtain ⟨hab, hrest⟩ := List.isChain_cons_cons.mp h
      obtain ⟨l', hl', hsub⟩ := ih hrest
      obtain ⟨mid, hmid⟩ := hpath a b hab
      refine ⟨mid ++ b :: l', ?_, ?_⟩
      · rw [List.append_assoc, List.cons_append, ← List.cons_append]
        refine List.isChain_append.mpr ⟨?_, hl', ?_⟩
        · rw [← List.cons_append] at hmid
          exact (List.isChain_append.mp hmid).1
        · intro w hw v hv
          rw [← List.cons_append] at hmid
          cases hv
          exact (List.isChain_append.mp hmid).2.2 w hw b rfl
      · intro x hx
        rcases List.mem_cons.mp hx with rfl | hx
        · exact List.mem_append_right _ (List.mem_cons_self ..)
        · exact List.mem_append_right _ (List.mem_cons_of_mem _ (hsub hx))

/-- A cycle of detours is a longer cycle. -/
theorem IsCycle.exists_of_transGen (h : IsCycle (Relation.TransGen R) c) :
    ∃ d, IsCycle R d ∧ c ⊆ d := by
  cases c with
  | nil => exact h.elim
  | cons a l =>
      obtain ⟨l', hl', hsub⟩ := exists_chain h
      refine ⟨a :: l', hl', fun x hx => ?_⟩
      rcases List.mem_cons.mp hx with rfl | hx
      · exact List.mem_cons_self ..
      · exact List.mem_cons_of_mem _ (hsub hx)

/-- Mapping a cycle. -/
theorem IsCycle.map {μ : Type} {f : μ → ν} {S : μ → μ → Prop} {c : List μ} (h : IsCycle S c)
    (hR : ∀ a ∈ c, ∀ b ∈ c, S a b → R (f a) (f b)) : IsCycle R (c.map f) := by
  have h' : IsCycle (fun a b => R (f a) (f b)) c := h.imp_of_mem hR
  cases c with
  | nil => exact h'
  | cons a l =>
      have hmap : f a :: l.map f ++ [f a] = (a :: l ++ [a]).map f := by
        rw [List.map_append, List.map_cons, List.map_singleton]
      show List.IsChain R (f a :: l.map f ++ [f a])
      rw [hmap]
      exact List.isChain_map_of_isChain f (fun a b h => h) h'

/-! ## The search -/

/-- The edges of a labelled successor function. -/
def Edge (succ : ν → List (ε × ν)) (a b : ν) : Prop := ∃ e, (e, b) ∈ succ a

variable [DecidableEq ν]

/-- Search from `n`, having come along `path` and `edges`: the nodes and the
edges of the first cycle met. -/
def search (succ : ν → List (ε × ν)) :
    Nat → List ν → List (ν × ε × ν) → ν → Option (List ν × List (ν × ε × ν))
  | 0, _, _, _ => none
  | fuel + 1, path, edges, n =>
      if n ∈ path then
        some (path.drop (path.idxOf n), edges.drop (path.idxOf n))
      else
        (succ n).findSome? fun e =>
          search succ fuel (path ++ [n]) (edges ++ [(n, e.1, e.2)]) e.2

variable {succ : ν → List (ε × ν)} {edges es : List (ν × ε × ν)} {n : ν}

/-- Closing the path at a node it has visited leaves a cycle. -/
theorem isCycle_drop {path : List ν} (hchain : List.IsChain R (path ++ [n])) (hn : n ∈ path) :
    IsCycle R (path.drop (path.idxOf n)) := by
  have hlt : path.idxOf n < path.length := List.idxOf_lt_length_iff.mpr hn
  have hdrop : path.drop (path.idxOf n) = n :: path.drop (path.idxOf n + 1) := by
    rw [List.drop_eq_getElem_cons hlt, List.getElem_idxOf]
  have := hchain.drop (path.idxOf n)
  rw [List.drop_append_of_le_length hlt.le, hdrop] at this
  rw [hdrop]
  exact this

/-- What the search finds is a cycle, on nodes of the path or beyond `n`. -/
theorem search_sound {fuel : Nat} {path : List ν}
    (h : search succ fuel path edges n = some (c, es))
    (hchain : List.IsChain (Edge succ) (path ++ [n])) :
    IsCycle (Edge succ) c ∧
      ∀ x ∈ c, x ∈ path ∨ Relation.ReflTransGen (Edge succ) n x := by
  induction fuel generalizing path edges n with
  | zero => cases h
  | succ fuel ih =>
      rw [search] at h
      split at h
      · rename_i hn
        obtain ⟨rfl, -⟩ := Prod.mk.inj (Option.some.inj h)
        exact ⟨isCycle_drop hchain hn, fun x hx => .inl (List.mem_of_mem_drop hx)⟩
      · obtain ⟨⟨e, b⟩, hb, hrec⟩ := List.exists_of_findSome?_eq_some h
        have hedge : Edge succ n b := ⟨e, hb⟩
        have hchain' : List.IsChain (Edge succ) (path ++ [n] ++ [b]) := by
          refine List.isChain_append.mpr ⟨hchain, List.isChain_singleton _, ?_⟩
          intro x hx y hy
          rw [List.getLast?_append, List.getLast?_singleton, Option.some_or] at hx
          cases hx
          cases hy
          exact hedge
        obtain ⟨hcycle, hmem⟩ := ih hrec hchain'
        refine ⟨hcycle, fun x hx => ?_⟩
        rcases hmem x hx with hpath | hreach
        · rcases List.mem_append.mp hpath with hpath | hlast
          · exact .inl hpath
          · rw [List.mem_singleton.mp hlast]
            exact .inr .refl
        · exact .inr (.head hedge hreach)

/-- One labelled edge ends where the next begins. -/
def Follows (e e' : ν × ε × ν) : Prop := e.2.2 = e'.1

/-- The edges that the search returns are those of the cycle, in order. -/
theorem search_edges {fuel : Nat} {path : List ν}
    (h : search succ fuel path edges n = some (c, es)) (hpath : edges.map Prod.fst = path)
    (hedges : ∀ e ∈ edges, (e.2.1, e.2.2) ∈ succ e.1) (hchain : List.IsChain Follows edges)
    (hlast : ∀ e ∈ edges.getLast?, e.2.2 = n) :
    IsCycle Follows es ∧ es.map Prod.fst = c ∧ ∀ e ∈ es, (e.2.1, e.2.2) ∈ succ e.1 := by
  induction fuel generalizing path edges n with
  | zero => cases h
  | succ fuel ih =>
      rw [search] at h
      split at h
      · rename_i hn
        obtain ⟨rfl, rfl⟩ := Prod.mk.inj (Option.some.inj h)
        have hlt : path.idxOf n < edges.length := by
          rw [← List.length_map Prod.fst, hpath]
          exact List.idxOf_lt_length_iff.mpr hn
        refine ⟨?_, ?_, fun e he => hedges e (List.mem_of_mem_drop he)⟩
        · have hstart : (edges[path.idxOf n]).1 = n := by
            have hlt' : path.idxOf n < (edges.map Prod.fst).length := by
              rwa [List.length_map]
            have hget : (edges.map Prod.fst)[path.idxOf n] = n := by
              simp only [hpath, List.getElem_idxOf]
            rwa [List.getElem_map] at hget
          have hdrop := List.drop_eq_getElem_cons hlt
          rw [hdrop]
          refine List.isChain_append.mpr ⟨hdrop ▸ hchain.drop _, List.isChain_singleton _, ?_⟩
          intro x hx y hy
          rw [← hdrop] at hx
          have hx' : x ∈ edges.getLast? := by
            rw [List.getLast?_drop, if_neg (by omega)] at hx
            exact hx
          cases hy
          exact (hlast x hx').trans hstart.symm
        · rw [List.map_drop, hpath]
      · obtain ⟨⟨e, b⟩, hb, hrec⟩ := List.exists_of_findSome?_eq_some h
        refine ih hrec ?_ ?_ ?_ ?_
        · rw [List.map_append, hpath, List.map_singleton]
        · intro x hx
          rcases List.mem_append.mp hx with hx | hx
          · exact hedges x hx
          · rw [List.mem_singleton.mp hx]
            exact hb
        · refine List.isChain_append.mpr ⟨hchain, List.isChain_singleton _, ?_⟩
          intro x hx y hy
          cases hy
          exact hlast x hx
        · intro x hx
          rw [List.getLast?_append, List.getLast?_singleton, Option.some_or] at hx
          cases hx
          rfl

/-- In a set whose nodes all have a successor in the set the search cannot come
back empty, given fuel for every node that has a successor. -/
theorem search_complete {S : ν → Prop} {K : List ν}
    (hnodes : ∀ a, succ a ≠ [] → a ∈ K)
    (hS : ∀ a, S a → ∃ b, Edge succ a b ∧ S b) {fuel : Nat} {path : List ν}
    (hnodup : path.Nodup) (hpath : path ⊆ K) (hfuel : K.length < fuel + path.length)
    (hn : S n) : search succ fuel path edges n ≠ none := by
  induction fuel generalizing path edges n with
  | zero =>
      have := (hnodup.subperm hpath).length_le
      omega
  | succ fuel ih =>
      rw [search]
      split
      · exact Option.some_ne_none _
      · rename_i hnew
        obtain ⟨b, ⟨e, hb⟩, hSb⟩ := hS n hn
        have hmem : n ∈ K := hnodes n (List.ne_nil_of_mem hb)
        intro hnone
        refine ih ?_ ?_ ?_ hSb (List.findSome?_eq_none_iff.mp hnone (e, b) hb)
        · exact List.nodup_append.mpr ⟨hnodup, List.nodup_singleton _, by
            rintro x hx y hy rfl
            exact hnew (List.mem_singleton.mp hy ▸ hx)⟩
        · intro x hx
          rcases List.mem_append.mp hx with hx | hx
          · exact hpath hx
          · rw [List.mem_singleton.mp hx]
            exact hmem
        · rw [List.length_append, List.length_singleton]
          omega

/-- A nonempty finite set each of whose nodes has a successor in it holds a
cycle. -/
theorem exists_cycle {nodes : List ν} (hn : n ∈ nodes)
    (hsucc : ∀ a ∈ nodes, ∃ b ∈ nodes, R a b) :
    ∃ c, IsCycle R c ∧ c ⊆ nodes ∧ ∀ x ∈ c, Relation.ReflTransGen R n x := by
  classical
  let inside : ν → List (Unit × ν) := fun a =>
    if a ∈ nodes then (nodes.filter fun b => R a b).map fun b => ((), b) else []
  have hedge : ∀ a b, Edge inside a b ↔ a ∈ nodes ∧ b ∈ nodes ∧ R a b := by
    intro a b
    by_cases ha : a ∈ nodes <;> simp [Edge, inside, ha]
  have hfound : search inside (nodes.length + 1) [] [] n ≠ none := by
    refine search_complete (S := fun a => a ∈ nodes) (K := nodes) ?_ ?_ List.nodup_nil
      (List.nil_subset _) ?_ hn
    · intro a ha
      by_contra hout
      exact ha (if_neg hout)
    · intro a ha
      obtain ⟨b, hb, hR⟩ := hsucc a ha
      exact ⟨b, (hedge a b).mpr ⟨ha, hb, hR⟩, hb⟩
    · simp
  obtain ⟨⟨c, es⟩, hc⟩ := Option.ne_none_iff_exists'.mp hfound
  obtain ⟨hcycle, hreach⟩ := search_sound hc (List.isChain_singleton n)
  refine ⟨c, hcycle.mono fun a b h => ((hedge a b).mp h).2.2, fun x hx => ?_, fun x hx => ?_⟩
  · obtain ⟨y, -, hxy⟩ := hcycle.successor hx
    exact ((hedge x y).mp hxy).1
  · rcases hreach x hx with hnil | hpath
    · cases hnil
    · exact Relation.ReflTransGen.mono (fun a b h => ((hedge a b).mp h).2.2) _ _ hpath

end CycleSearch
