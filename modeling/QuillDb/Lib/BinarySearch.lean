/-
  Lib/BinarySearch.lean --- binary searches of a half-open range.

  `search` narrows `[lo, hi)` to the leftmost index at which a predicate holds,
  provided that it keeps holding from there on; `find` looks for the index of one
  key.  The recursions are on fuel; the length of the range is enough.
-/
import Mathlib.Data.List.Basic
import Mathlib.Order.Lattice

set_option autoImplicit false

namespace BinarySearch

/-- The leftmost index of `[lo, hi)` where `p` holds, or `hi`. -/
def search (p : Nat → Bool) : Nat → Nat → Nat → Nat
  | 0, lo, _ => lo
  | fuel + 1, lo, hi =>
      if lo < hi then
        let mid := lo + (hi - lo) / 2
        if p mid then search p fuel lo mid else search p fuel (mid + 1) hi
      else lo

/-- The leftmost index of a list whose element satisfies `p`, or its length. -/
def lowerBound {α : Type} (p : α → Bool) (xs : List α) : Nat :=
  search (fun i => (xs[i]?).any p) xs.length 0 xs.length

/-- The index in `[lo, hi)` of the element whose key is `key`. -/
def find {α κ : Type} [LinearOrder κ] (f : α → κ) (key : κ) (xs : List α) :
    Nat → Nat → Nat → Option Nat
  | 0, _, _ => none
  | fuel + 1, lo, hi =>
      if lo < hi then
        let mid := lo + (hi - 1 - lo) / 2
        match xs[mid]? with
        | none => none
        | some a =>
            if f a = key then some mid
            else if f a < key then find f key xs fuel (mid + 1) hi
            else find f key xs fuel lo mid
      else none

theorem search_spec {p : Nat → Bool} {fuel lo hi : Nat} (hle : lo ≤ hi) (hfuel : hi - lo ≤ fuel)
    (hmono : ∀ i j, lo ≤ i → i ≤ j → j < hi → p i = true → p j = true) :
    lo ≤ search p fuel lo hi ∧ search p fuel lo hi ≤ hi ∧
      (∀ i, lo ≤ i → i < search p fuel lo hi → p i = false) ∧
      (∀ i, search p fuel lo hi ≤ i → i < hi → p i = true) := by
  induction fuel generalizing lo hi with
  | zero =>
      obtain rfl : lo = hi := by omega
      refine ⟨Nat.le_refl _, Nat.le_refl _, fun i h h' => ?_, fun i h h' => ?_⟩
      · exact absurd h' (Nat.not_lt.mpr h)
      · exact absurd h' (Nat.not_lt.mpr h)
  | succ fuel ih =>
      rw [search]
      split
      · rename_i hlt
        simp only
        have hmid : lo ≤ lo + (hi - lo) / 2 ∧ lo + (hi - lo) / 2 < hi := by omega
        split
        · rename_i hp
          obtain ⟨h₁, h₂, h₃, h₄⟩ := @ih lo (lo + (hi - lo) / 2) hmid.1 (by omega)
            fun i j h hij hj => hmono i j h hij (by omega)
          refine ⟨h₁, by omega, h₃, fun i h h' => ?_⟩
          by_cases him : i < lo + (hi - lo) / 2
          · exact h₄ i h him
          · exact hmono _ i hmid.1 (by omega) h' hp
        · rename_i hp
          have hp : p (lo + (hi - lo) / 2) = false := Bool.eq_false_iff.mpr hp
          obtain ⟨h₁, h₂, h₃, h₄⟩ := @ih (lo + (hi - lo) / 2 + 1) hi (by omega)
            (by omega) fun i j h hij hj => hmono i j (by omega) hij hj
          refine ⟨by omega, h₂, fun i h h' => ?_, h₄⟩
          by_cases him : lo + (hi - lo) / 2 < i
          · exact h₃ i him h'
          · -- were `p` true at `i`, it would be at the middle
            refine Bool.eq_false_iff.mpr fun hpi => ?_
            rw [hmono i _ h (by omega) hmid.2 hpi] at hp
            cases hp
      · rename_i hge
        obtain rfl : lo = hi := by omega
        exact ⟨Nat.le_refl _, Nat.le_refl _, fun i h h' => absurd h' (Nat.not_lt.mpr h),
          fun i h h' => absurd h' (Nat.not_lt.mpr h)⟩

/-- Whatever the predicate, the search stays in its range. -/
theorem search_le (p : Nat → Bool) {fuel lo hi : Nat} (hle : lo ≤ hi) : search p fuel lo hi ≤ hi := by
  induction fuel generalizing lo hi with
  | zero => exact hle
  | succ fuel ih =>
      rw [search]
      split
      · rename_i hlt
        simp only
        have hmid : lo ≤ lo + (hi - lo) / 2 ∧ lo + (hi - lo) / 2 < hi := by omega
        split
        · have hleft := @ih lo (lo + (hi - lo) / 2) hmid.1
          omega
        · exact ih (by omega)
      · exact hle

theorem lowerBound_le {α : Type} (p : α → Bool) (xs : List α) : lowerBound p xs ≤ xs.length :=
  search_le _ (Nat.zero_le _)

/-- `p` fails before the lower bound and holds from it on. -/
theorem lowerBound_spec {α : Type} {p : α → Bool} {xs : List α}
    (hmono : xs.Pairwise fun a b => p a = true → p b = true) :
    lowerBound p xs ≤ xs.length ∧ (∀ a ∈ xs.take (lowerBound p xs), p a = false) ∧
      ∀ a ∈ xs.drop (lowerBound p xs), p a = true := by
  have hat : ∀ i (hi : i < xs.length), (xs[i]?).any p = p xs[i] := by
    intro i hi
    rw [List.getElem?_eq_getElem hi, Option.any_some]
  obtain ⟨-, hle, hbefore, hafter⟩ := @search_spec (fun i => (xs[i]?).any p)
    xs.length 0 xs.length (Nat.zero_le xs.length) (by omega) (by
      intro i j _ hij hj hi
      rw [hat i (by omega)] at hi
      rw [hat j hj]
      rcases Nat.lt_or_eq_of_le hij with hlt | rfl
      · exact List.pairwise_iff_getElem.mp hmono i j (by omega) hj hlt hi
      · exact hi)
  refine ⟨hle, fun a ha => ?_, fun a ha => ?_⟩
  · obtain ⟨i, hi, rfl⟩ := List.mem_iff_getElem.mp ha
    have hlt : i < lowerBound p xs ∧ i < xs.length := by
      rw [List.length_take] at hi
      omega
    rw [List.getElem_take, ← hat i hlt.2]
    exact hbefore i (Nat.zero_le i) hlt.1
  · obtain ⟨i, hi, rfl⟩ := List.mem_iff_getElem.mp ha
    have hlt : lowerBound p xs + i < xs.length := by
      rw [List.length_drop] at hi
      omega
    rw [List.getElem_drop, ← hat _ hlt]
    exact hafter _ (Nat.le_add_right _ _) hlt

/-- A list that `p` cuts. -/
theorem lowerBound_append {α : Type} {p : α → Bool} {xs ys : List α} (hxs : ∀ a ∈ xs, p a = false)
    (hys : ∀ a ∈ ys, p a = true) : lowerBound p (xs ++ ys) = xs.length := by
  have hmono : (xs ++ ys).Pairwise fun a b => p a = true → p b = true := by
    refine List.pairwise_append.mpr ⟨?_, ?_, fun a ha _ _ htrue => ?_⟩
    · refine List.pairwise_of_forall_mem_list fun a ha _ _ htrue => ?_
      rw [hxs a ha] at htrue
      cases htrue
    · exact List.pairwise_of_forall_mem_list fun _ _ b hb _ => hys b hb
    · rw [hxs a ha] at htrue
      cases htrue
  obtain ⟨hle, hfalse, htrue⟩ := lowerBound_spec hmono
  generalize lowerBound p (xs ++ ys) = n at hle hfalse htrue ⊢
  rcases Nat.lt_trichotomy n xs.length with hlt | heq | hgt
  · have hmem : xs[n] ∈ (xs ++ ys).drop n := by
      rw [List.drop_append_of_le_length (Nat.le_of_lt hlt), List.drop_eq_getElem_cons hlt]
      exact List.mem_cons_self ..
    have := htrue _ hmem
    rw [hxs _ (List.getElem_mem hlt)] at this
    cases this
  · exact heq
  · rcases ys with _ | ⟨y, ys⟩
    · rw [List.append_nil] at hle
      exact absurd hle (Nat.not_le.mpr hgt)
    · have hmem : y ∈ (xs ++ y :: ys).take n := by
        obtain ⟨m, rfl⟩ := Nat.exists_eq_add_of_lt hgt
        rw [List.take_append, Nat.add_assoc, Nat.add_sub_cancel_left, List.take_succ_cons]
        exact List.mem_append_right _ (List.mem_cons_self ..)
      have := hfalse y hmem
      rw [hys y (List.mem_cons_self ..)] at this
      cases this

theorem lowerBound_map {α β : Type} (p : α → Bool) (f : β → α) (xs : List β) :
    lowerBound p (xs.map f) = lowerBound (fun b => p (f b)) xs := by
  unfold lowerBound
  rw [List.length_map]
  congr 1
  funext i
  rw [List.getElem?_map, Option.any_map]

/-- On a list with ascending keys, `find` finds the index of the key. -/
theorem find_spec {α κ : Type} [LinearOrder κ] {f : α → κ} {key : κ} {xs : List α}
    (hsorted : (xs.map f).Pairwise (· < ·)) {fuel lo hi : Nat} (hhi : hi ≤ xs.length)
    (hfuel : hi - lo ≤ fuel) (i : Nat) :
    find f key xs fuel lo hi = some i ↔ lo ≤ i ∧ i < hi ∧ (xs[i]?).map f = some key := by
  have hkey : ∀ i (hi : i < xs.length), (xs[i]?).map f = some (f xs[i]) := by
    intro i hi
    rw [List.getElem?_eq_getElem hi, Option.map_some]
  have hlt : ∀ i j (hi : i < xs.length) (hj : j < xs.length), i < j → f xs[i] < f xs[j] := by
    intro i j hi hj hij
    exact List.pairwise_iff_getElem.mp (List.pairwise_map.mp hsorted) i j hi hj hij
  induction fuel generalizing lo hi with
  | zero =>
      rw [find]
      constructor
      · intro h
        cases h
      · rintro ⟨h₁, h₂, -⟩
        omega
  | succ fuel ih =>
      rw [find]
      split
      · rename_i hlohi
        have hmid : lo ≤ lo + (hi - 1 - lo) / 2 ∧ lo + (hi - 1 - lo) / 2 < hi := by omega
        generalize lo + (hi - 1 - lo) / 2 = mid at hmid
        have hmidlen : mid < xs.length := by omega
        simp only [List.getElem?_eq_getElem hmidlen]
        split
        · rename_i heq
          constructor
          · intro h
            obtain rfl := Option.some.inj h
            exact ⟨hmid.1, hmid.2, by rw [hkey _ hmidlen, heq]⟩
          · rintro ⟨h₁, h₂, h₃⟩
            rw [hkey i (by omega), ← heq] at h₃
            have h₃ := Option.some.inj h₃
            rcases Nat.lt_trichotomy mid i with hcmp | rfl | hcmp
            · exact absurd h₃ (ne_of_gt (hlt _ _ hmidlen (by omega) hcmp))
            · rfl
            · exact absurd h₃ (ne_of_lt (hlt _ _ (by omega) hmidlen hcmp))
        · split
          · rename_i hne hbelow
            refine (@ih (mid + 1) hi hhi (by omega)).trans ?_
            constructor
            · rintro ⟨h₁, h₂, h₃⟩
              exact ⟨by omega, h₂, h₃⟩
            · rintro ⟨h₁, h₂, h₃⟩
              refine ⟨Nat.lt_of_not_le fun hle => ?_, h₂, h₃⟩
              rw [hkey i (by omega)] at h₃
              have h₃ := Option.some.inj h₃
              rcases Nat.lt_or_eq_of_le hle with hcmp | rfl
              · have := hlt _ _ (by omega) hmidlen hcmp
                rw [h₃] at this
                exact absurd hbelow (not_lt_of_gt this)
              · exact hne h₃
          · rename_i hne hnot
            refine (@ih lo mid (by omega) (by omega)).trans ?_
            constructor
            · rintro ⟨h₁, h₂, h₃⟩
              exact ⟨h₁, by omega, h₃⟩
            · rintro ⟨h₁, h₂, h₃⟩
              refine ⟨h₁, Nat.lt_of_not_le fun hle => ?_, h₃⟩
              rw [hkey i (by omega)] at h₃
              have h₃ := Option.some.inj h₃
              rcases Nat.lt_or_eq_of_le hle with hcmp | rfl
              · have := hlt _ _ hmidlen (by omega) hcmp
                rw [h₃] at this
                exact hnot this
              · exact hne h₃
      · constructor
        · intro h
          cases h
        · rintro ⟨h₁, h₂, -⟩
          omega

/-! ## Probes that may fail -/

section Probe

variable {ε : Type}

/-- `search`, with a predicate that may fail. -/
def searchE (p : Nat → Except ε Bool) : Nat → Nat → Nat → Except ε Nat
  | 0, lo, _ => .ok lo
  | fuel + 1, lo, hi =>
      if lo < hi then
        let mid := lo + (hi - lo) / 2
        match p mid with
        | .error e => .error e
        | .ok true => searchE p fuel lo mid
        | .ok false => searchE p fuel (mid + 1) hi
      else .ok lo

/-- `find`, with keys that may fail to be read. -/
def findE {κ : Type} [LinearOrder κ] (f : Nat → Except ε κ) (key : κ) :
    Nat → Nat → Nat → Except ε (Option Nat)
  | 0, _, _ => .ok none
  | fuel + 1, lo, hi =>
      if lo < hi then
        let mid := lo + (hi - 1 - lo) / 2
        match f mid with
        | .error e => .error e
        | .ok k =>
            if k = key then .ok (some mid)
            else if k < key then findE f key fuel (mid + 1) hi
            else findE f key fuel lo mid
      else .ok none

theorem searchE_eq {p : Nat → Except ε Bool} {q : Nat → Bool} {n fuel lo hi : Nat}
    (h : ∀ i, i < n → p i = .ok (q i)) (hhi : hi ≤ n) :
    searchE p fuel lo hi = .ok (search q fuel lo hi) := by
  induction fuel generalizing lo hi with
  | zero => rfl
  | succ fuel ih =>
      rw [searchE, search]
      split
      · simp only
        rw [h (lo + (hi - lo) / 2) (by omega)]
        cases hq : q (lo + (hi - lo) / 2) with
        | true => exact ih (by omega)
        | false => exact ih hhi
      · rfl

/-- A lower bound whose probes all succeed. -/
theorem searchE_lowerBound {α : Type} {p : Nat → Except ε Bool} {q : α → Bool} {xs : List α}
    (h : ∀ i x, xs[i]? = some x → p i = .ok (q x)) :
    searchE p xs.length 0 xs.length = .ok (lowerBound q xs) := by
  refine searchE_eq (fun i hi => ?_) (Nat.le_refl _)
  rw [List.getElem?_eq_getElem hi, Option.any_some]
  exact h i _ (List.getElem?_eq_getElem hi)

theorem findE_eq {α κ : Type} [LinearOrder κ] {f : Nat → Except ε κ} {g : α → κ} {key : κ}
    {xs : List α} {fuel lo hi : Nat} (h : ∀ i x, xs[i]? = some x → f i = .ok (g x))
    (hhi : hi ≤ xs.length) : findE f key fuel lo hi = .ok (find g key xs fuel lo hi) := by
  induction fuel generalizing lo hi with
  | zero => rfl
  | succ fuel ih =>
      rw [findE, find]
      split
      · have hmid : lo + (hi - 1 - lo) / 2 < xs.length := by omega
        simp only
        rw [h _ _ (List.getElem?_eq_getElem hmid), List.getElem?_eq_getElem hmid]
        simp only
        split
        · rfl
        · split
          · exact ih hhi
          · exact ih (by omega)
      · rfl

end Probe

end BinarySearch
