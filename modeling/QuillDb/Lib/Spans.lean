/-
  Lib/Spans.lean --- an interval cut at ascending dividers.

  An interval is open below and closed above, and either bound may be missing.  Each
  divider ends the span of its own item and starts the next; the last item has the rest.
-/
import Mathlib.Data.List.Nodup
import Mathlib.Data.List.Pairwise
import Mathlib.Order.Lattice

set_option autoImplicit false

namespace Spans

variable {κ γ β : Type}

section Cut

variable [LinearOrder κ]

/-- `low < k ≤ high`. -/
def Within (low high : Option κ) (k : κ) : Prop := (∀ l ∈ low, l < k) ∧ ∀ h ∈ high, k ≤ h

end Cut

/-- An item and the keys it is for. -/
structure Span (κ γ : Type) where
  low : Option κ
  high : Option κ
  item : γ

/-- The spans of the items. -/
def cut : Option κ → List (κ × γ) → γ → Option κ → List (Span κ γ)
  | low, [], last, high => [⟨low, high, last⟩]
  | low, (d, x) :: rest, last, high => ⟨low, some d, x⟩ :: cut (some d) rest last high

theorem cut_items (low high : Option κ) (dividers : List (κ × γ)) (last : γ) :
    (cut low dividers last high).map Span.item = dividers.map Prod.snd ++ [last] := by
  induction dividers generalizing low with
  | nil => rfl
  | cons p rest ih => rw [cut, List.map_cons, ih, List.map_cons, List.cons_append]

section Order

variable [LinearOrder κ] {low high : Option κ} {dividers rest : List (κ × γ)} {last : γ}

/-- Dividers that ascend within an interval. -/
structure Dividing (low high : Option κ) (dividers : List (κ × γ)) : Prop where
  ascending : (dividers.map Prod.fst).Pairwise (· < ·)
  within : ∀ p ∈ dividers, Within low high p.1

theorem Dividing.tail {d : κ} {x : γ} (h : Dividing low high ((d, x) :: rest)) :
    Dividing (some d) high rest := by
  obtain ⟨hd, hrest⟩ := List.pairwise_cons.mp h.ascending
  refine ⟨hrest, fun p hp => ⟨fun l hl => ?_, (h.within p (List.mem_cons_of_mem _ hp)).2⟩⟩
  obtain rfl := Option.some.inj hl
  exact hd p.1 (List.mem_map_of_mem hp)

/-- A span lies in the interval. -/
theorem Dividing.within_of_span (h : Dividing low high dividers) {span : Span κ γ}
    (hspan : span ∈ cut low dividers last high) {k : κ} (hk : Within span.low span.high k) :
    Within low high k := by
  induction dividers generalizing low with
  | nil =>
      obtain rfl := List.mem_singleton.mp hspan
      exact hk
  | cons p rest ih =>
      obtain ⟨d, x⟩ := p
      have hd := h.within (d, x) (List.mem_cons_self ..)
      rcases List.mem_cons.mp hspan with rfl | hspan
      · exact ⟨hk.1, fun b hb => (hk.2 d rfl).trans (hd.2 b hb)⟩
      · obtain ⟨hlow, hhigh⟩ := ih h.tail hspan
        exact ⟨fun l hl => (hd.1 l hl).trans (hlow d rfl), hhigh⟩

/-- The keys of a span come before those of the spans after it. -/
theorem Dividing.ordered (h : Dividing low high dividers) (last : γ) :
    (cut low dividers last high).Pairwise fun a b =>
      ∀ k l, Within a.low a.high k → Within b.low b.high l → k < l := by
  induction dividers generalizing low with
  | nil => exact List.pairwise_singleton _ _
  | cons p rest ih =>
      obtain ⟨d, x⟩ := p
      refine List.pairwise_cons.mpr ⟨fun b hb k l hk hl => ?_, ih h.tail⟩
      exact (hk.2 d rfl).trans_lt ((h.tail.within_of_span hb hl).1 d rfl)

/-- A key belongs to the span behind the last divider below it. -/
theorem cut_get {pre post : List (κ × γ)} (last : γ) {k : κ} (hk : Within low high k)
    (hpre : ∀ p ∈ pre, p.1 < k) (hpost : ∀ p ∈ post, k ≤ p.1) :
    ∃ span, (cut low (pre ++ post) last high)[pre.length]? = some span ∧
      Within span.low span.high k := by
  induction pre generalizing low with
  | nil =>
      cases post with
      | nil => exact ⟨_, rfl, hk⟩
      | cons p post =>
          refine ⟨_, rfl, hk.1, fun b hb => ?_⟩
          obtain rfl := Option.some.inj hb
          exact hpost p (List.mem_cons_self ..)
  | cons p pre ih =>
      obtain ⟨d, x⟩ := p
      refine ih ⟨fun l hl => ?_, hk.2⟩ fun q hq => hpre q (List.mem_cons_of_mem _ hq)
      obtain rfl := Option.some.inj hl
      exact hpre (d, x) (List.mem_cons_self ..)

/-! ## What the items hold -/

variable {f : γ → List β} {g : β → κ}

/-- The items hold keys of their spans, in ascending order; so does the whole. -/
theorem Dividing.flatMap_ascending (h : Dividing low high dividers) (last : γ)
    (hitem : ∀ span ∈ cut low dividers last high, ((f span.item).map g).Pairwise (· < ·) ∧
      ∀ b ∈ f span.item, Within span.low span.high (g b)) :
    (((dividers.map Prod.snd ++ [last]).flatMap f).map g).Pairwise (· < ·) ∧
      ∀ b ∈ (dividers.map Prod.snd ++ [last]).flatMap f, Within low high (g b) := by
  rw [← cut_items low high]
  constructor
  · rw [List.pairwise_map, List.pairwise_flatMap, List.pairwise_map]
    constructor
    · intro x hx
      obtain ⟨span, hspan, rfl⟩ := List.mem_map.mp hx
      exact List.pairwise_map.mp (hitem span hspan).1
    · refine (h.ordered last).imp_of_mem fun {a b} ha hb hab x hx y hy => ?_
      exact hab _ _ ((hitem a ha).2 x hx) ((hitem b hb).2 y hy)
  · intro b hb
    obtain ⟨x, hx, hb⟩ := List.mem_flatMap.mp hb
    obtain ⟨span, hspan, rfl⟩ := List.mem_map.mp hx
    exact h.within_of_span hspan ((hitem span hspan).2 b hb)

omit [LinearOrder κ] in
/-- Among distinct keys, a key finds what has it. -/
theorem find?_of_mem [DecidableEq κ] {xs : List β} (hnodup : (xs.map g).Nodup) {b : β} (hb : b ∈ xs) :
    xs.find? (fun x => decide (g x = g b)) = some b := by
  cases hfind : xs.find? fun x => decide (g x = g b) with
  | none => exact absurd (decide_eq_true rfl) (List.find?_eq_none.mp hfind b hb)
  | some x =>
      have hkey : g x = g b :=
        of_decide_eq_true (List.find?_some (p := fun x => decide (g x = g b)) hfind)
      exact congrArg some (List.inj_on_of_nodup_map hnodup (List.mem_of_find?_eq_some hfind) hb hkey)

end Order

end Spans
