/-
  BTree/Key.lean --- the order of index keys.

  Source: `encode_index_key` and `compare_keys` of `quilldb/btree/index.py`, and
  Python's comparisons of numbers, strings and bytes.

  A float is compared as the exact number it stands for.  A NaN is neither below
  nor above nor equal to anything; without one, keys of the same length compare
  like lists of integers, the places of their values.
-/
import QuillDb.Codec.Record
import Mathlib.Data.List.Lex

set_option autoImplicit false

namespace QuillDb

/-! ## Numbers -/

/-- A number times `2 ^ 1074`, which makes every finite float an integer. -/
inductive Number where
  | negInf
  | finite (n : Int)
  | posInf
  | nan
  deriving DecidableEq, Repr

/-- The number that 64 bits stand for: sign, 11 bits of exponent, 52 of mantissa. -/
def realNumber (bits : BitVec 64) : Number :=
  let negative := 2 ^ 63 ≤ bits.toNat
  let exponent := bits.toNat / 2 ^ 52 % 2 ^ 11
  let mantissa := bits.toNat % 2 ^ 52
  if exponent = 2047 then
    if mantissa ≠ 0 then .nan
    else if negative then .negInf
    else .posInf
  else
    let magnitude : Nat := if exponent = 0 then mantissa else (2 ^ 52 + mantissa) * 2 ^ (exponent - 1)
    .finite (if negative then -(magnitude : Int) else magnitude)

namespace Number

/-- Python's `==`. -/
def eq : Number → Number → Bool
  | nan, _ => false
  | a, b => a = b

/-- Python's `<`. -/
def lt : Number → Number → Bool
  | nan, _ => false
  | _, nan => false
  | finite a, finite b => a < b
  | negInf, negInf => false
  | negInf, _ => true
  | finite _, posInf => true
  | _, _ => false

/-- Where a number that is not a NaN stands. -/
def place : Number → List Int
  | negInf => [-1]
  | finite n => [0, n]
  | posInf => [1]
  | nan => []

theorem eq_iff {a b : Number} (ha : a ≠ nan) : a.eq b = true ↔ a.place = b.place := by
  cases a <;> cases b <;> simp [eq, place] at ha ⊢

theorem lt_iff {a b : Number} (ha : a ≠ nan) (hb : b ≠ nan) :
    a.lt b = true ↔ a.place < b.place := by
  cases a <;> cases b <;>
    simp [lt, place, List.cons_lt_cons_iff, -not_lt, List.not_lt_nil] at ha hb ⊢

end Number

/-! ## The source -/

/-- The numbers of the code points. -/
def codePoints (s : String) : List Int := s.toList.map fun c => (c.toNat : Int)

namespace Value

/-- The number an int or a float stands for. -/
def number : Value → Option Number
  | int n => some (.finite (n * 2 ^ 1074))
  | real bits => some (realNumber bits)
  | _ => none

/-- Python's `==`. -/
def pyEq : Value → Value → Bool
  | null, null => true
  | text a, text b => a = b
  | blob a, blob b => a = b
  | a, b =>
      match a.number, b.number with
      | some x, some y => x.eq y
      | _, _ => false

/-- Python's `<` of two values of one storage class: strings go by code points,
bytes by their numbers. -/
def pyLt : Value → Value → Bool
  | text a, text b => codePoints a < codePoints b
  | blob a, blob b => a.map (fun x => (x.toNat : Int)) < b.map fun x => (x.toNat : Int)
  | a, b =>
      match a.number, b.number with
      | some x, some y => x.lt y
      | _, _ => false

/-- `_rank`: the storage class. -/
def rank : Value → Nat
  | null => 0
  | int _ => 1
  | real _ => 1
  | text _ => 2
  | blob _ => 3

def isNan (v : Value) : Prop := v.number = some .nan

instance (v : Value) : Decidable v.isNan := inferInstanceAs (Decidable (_ = _))

end Value

/-- `encode_index_key`. -/
def encodeIndexKey (values : List Value) (rowid : Int) : Except DbError Bytes :=
  encodeRecord (values ++ [.int rowid])

/-- `compare_keys`: column by column, as far as both keys go. -/
def compareKeys : List Value → List Value → Ordering
  | a :: as, b :: bs =>
      if a.pyEq b then compareKeys as bs
      else if a.rank ≠ b.rank then
        if a.rank < b.rank then .lt else .gt
      else if a.pyLt b then .lt
      else .gt
  | _, _ => .eq

/-! ## Places -/

namespace Value

/-- The storage class and the place in it. -/
def place : Value → List Int
  | null => [0]
  | int n => 1 :: (Number.finite (n * 2 ^ 1074)).place
  | real bits => 1 :: (realNumber bits).place
  | text s => 2 :: codePoints s
  | blob data => 3 :: data.map fun x => (x.toNat : Int)

theorem codePoints_inj {a b : String} : codePoints a = codePoints b ↔ a = b := by
  refine ⟨fun h => String.toList_injective (List.map_injective_iff.mpr (fun x y hxy => ?_) h),
    fun h => congrArg _ h⟩
  exact Char.toNat_inj.mp (Int.ofNat.inj hxy)

theorem bytes_inj {a b : Bytes} :
    a.map (fun x => (x.toNat : Int)) = b.map (fun x => (x.toNat : Int)) ↔ a = b := by
  refine ⟨fun h => List.map_injective_iff.mpr (fun x y hxy => ?_) h, fun h => congrArg _ h⟩
  exact UInt8.toNat_inj.mp (Int.ofNat.inj hxy)

/-- Values that are numbers. -/
theorem place_of_number {v : Value} {x : Number} (h : v.number = some x) : v.place = 1 :: x.place := by
  cases v with
  | int n =>
      obtain rfl := Option.some.inj h
      rfl
  | real bits =>
      obtain rfl := Option.some.inj h
      rfl
  | null => cases h
  | text s => cases h
  | blob data => cases h

theorem ne_nan {v : Value} {x : Number} (hv : ¬ v.isNan) (h : v.number = some x) : x ≠ .nan := by
  rintro rfl
  exact hv h

theorem exists_place (v : Value) : ∃ rest, v.place = (v.rank : Int) :: rest := by
  cases v <;> exact ⟨_, rfl⟩

theorem number_pyEq {a b : Value} {x y : Number} (ha : a.number = some x) (hb : b.number = some y) :
    a.pyEq b = x.eq y := by
  cases a <;> cases b <;> first | cases ha; done | cases hb; done | skip
  all_goals
    obtain rfl := Option.some.inj ha
    obtain rfl := Option.some.inj hb
    rfl

theorem number_pyLt {a b : Value} {x y : Number} (ha : a.number = some x) (hb : b.number = some y) :
    a.pyLt b = x.lt y := by
  cases a <;> cases b <;> first | cases ha; done | cases hb; done | skip
  all_goals
    obtain rfl := Option.some.inj ha
    obtain rfl := Option.some.inj hb
    rfl

/-- Only numbers have their rank. -/
theorem exists_number {v : Value} (h : v.rank = 1) : ∃ x, v.number = some x := by
  cases v with
  | int n => exact ⟨_, rfl⟩
  | real bits => exact ⟨_, rfl⟩
  | null => cases h
  | text s => cases h
  | blob data => cases h

theorem rank_of_number {v : Value} {x : Number} (h : v.number = some x) : v.rank = 1 := by
  cases v <;> first | rfl | cases h

theorem pyEq_of_rank_ne {a b : Value} (h : a.rank ≠ b.rank) : a.pyEq b = false := by
  cases a <;> cases b <;> first | rfl | exact absurd rfl h

theorem pyEq_iff {a b : Value} (ha : ¬ a.isNan) (hb : ¬ b.isNan) :
    a.pyEq b = true ↔ a.place = b.place := by
  by_cases hrank : a.rank = b.rank
  · by_cases hone : a.rank = 1
    · obtain ⟨x, hx⟩ := exists_number hone
      obtain ⟨y, hy⟩ := exists_number (hrank ▸ hone)
      rw [number_pyEq hx hy, Number.eq_iff (ne_nan ha hx), place_of_number hx, place_of_number hy,
        List.cons_inj_right]
    · cases a <;> cases b <;> simp [rank, pyEq, place, codePoints_inj, bytes_inj] at hrank hone ⊢
  · rw [pyEq_of_rank_ne hrank]
    refine iff_of_false Bool.false_ne_true fun hplace => hrank ?_
    obtain ⟨_, hplaceA⟩ := a.exists_place
    obtain ⟨_, hplaceB⟩ := b.exists_place
    rw [hplaceA, hplaceB] at hplace
    exact Int.ofNat.inj (List.cons.inj hplace).1

theorem place_lt_of_rank_lt {a b : Value} (h : a.rank < b.rank) : a.place < b.place := by
  obtain ⟨_, hplaceA⟩ := a.exists_place
  obtain ⟨_, hplaceB⟩ := b.exists_place
  rw [hplaceA, hplaceB]
  exact List.cons_lt_cons_iff.mpr (.inl (Int.ofNat_lt.mpr h))

theorem pyLt_iff {a b : Value} (ha : ¬ a.isNan) (hb : ¬ b.isNan) (hrank : a.rank = b.rank) :
    a.pyLt b = true ↔ a.place < b.place := by
  by_cases hone : a.rank = 1
  · obtain ⟨x, hx⟩ := exists_number hone
    obtain ⟨y, hy⟩ := exists_number (hrank ▸ hone)
    rw [number_pyLt hx hy, Number.lt_iff (ne_nan ha hx) (ne_nan hb hy), place_of_number hx,
      place_of_number hy, List.cons_lt_cons_iff]
    exact ⟨fun h => .inr ⟨rfl, h⟩, fun h => h.resolve_left (lt_irrefl _) |>.2⟩
  · cases a <;> cases b <;> simp [rank, pyLt, place, number] at hrank hone ⊢

end Value

/-- The places of the columns. -/
def keyPlace (key : List Value) : List (List Int) := key.map Value.place

/-- A key that can be compared: one of `n` columns, and none a NaN. -/
def Comparable (n : Nat) (key : List Value) : Prop := key.length = n ∧ ∀ v ∈ key, ¬ v.isNan

theorem comparable_singleton {v : Value} (h : ¬ v.isNan) : Comparable 1 [v] :=
  ⟨rfl, fun _ hw => List.mem_singleton.mp hw ▸ h⟩

/-- Keys of one length compare like their places. -/
theorem compareKeys_cases {n : Nat} {a b : List Value} (ha : Comparable n a) (hb : Comparable n b) :
    match compareKeys a b with
    | .lt => keyPlace a < keyPlace b
    | .eq => keyPlace a = keyPlace b
    | .gt => keyPlace b < keyPlace a := by
  induction a generalizing n b with
  | nil =>
      obtain rfl : b = [] := List.length_eq_zero_iff.mp (hb.1.trans ha.1.symm)
      rfl
  | cons x a ih =>
      rcases b with _ | ⟨y, b⟩
      · have hlen := ha.1.trans hb.1.symm
        cases hlen
      · have hx := ha.2 x (List.mem_cons_self ..)
        have hy := hb.2 y (List.mem_cons_self ..)
        have hlen := ha.1.trans hb.1.symm
        rw [compareKeys, keyPlace, keyPlace, List.map_cons, List.map_cons]
        by_cases heq : x.pyEq y = true
        · have hrest := @ih b.length b ⟨Nat.succ.inj hlen, fun v hv => ha.2 v (List.mem_cons_of_mem _ hv)⟩
            ⟨rfl, fun v hv => hb.2 v (List.mem_cons_of_mem _ hv)⟩
          rw [if_pos heq, (Value.pyEq_iff hx hy).mp heq]
          cases hcmp : compareKeys a b with
          | lt =>
              rw [hcmp] at hrest
              exact List.cons_lt_cons_iff.mpr (.inr ⟨rfl, hrest⟩)
          | eq =>
              rw [hcmp] at hrest
              exact congrArg _ hrest
          | gt =>
              rw [hcmp] at hrest
              exact List.cons_lt_cons_iff.mpr (.inr ⟨rfl, hrest⟩)
        · have hne : x.place ≠ y.place := fun h => heq ((Value.pyEq_iff hx hy).mpr h)
          rw [if_neg heq]
          by_cases hrank : x.rank = y.rank
          · rw [if_neg (not_not.mpr hrank)]
            by_cases hlt : x.pyLt y = true
            · rw [if_pos hlt]
              exact List.cons_lt_cons_iff.mpr (.inl ((Value.pyLt_iff hx hy hrank).mp hlt))
            · rw [if_neg hlt]
              have hge := not_lt.mp fun h => hlt ((Value.pyLt_iff hx hy hrank).mpr h)
              exact List.cons_lt_cons_iff.mpr (.inl (lt_of_le_of_ne hge (Ne.symm hne)))
          · rw [if_pos hrank]
            by_cases hlt : x.rank < y.rank
            · rw [if_pos hlt]
              exact List.cons_lt_cons_iff.mpr (.inl (Value.place_lt_of_rank_lt hlt))
            · rw [if_neg hlt]
              exact List.cons_lt_cons_iff.mpr (.inl (Value.place_lt_of_rank_lt (by omega)))

theorem compareKeys_le {n : Nat} {a b : List Value} (ha : Comparable n a) (hb : Comparable n b) :
    compareKeys a b ≠ .gt ↔ keyPlace a ≤ keyPlace b := by
  have hcases := compareKeys_cases ha hb
  cases hcmp : compareKeys a b with
  | lt =>
      rw [hcmp] at hcases
      exact iff_of_true (by decide) hcases.le
  | eq =>
      rw [hcmp] at hcases
      exact iff_of_true (by decide) hcases.le
  | gt =>
      rw [hcmp] at hcases
      exact iff_of_false (fun h => h rfl) (not_le.mpr hcases)

theorem compareKeys_eq {n : Nat} {a b : List Value} (ha : Comparable n a) (hb : Comparable n b) :
    compareKeys a b = .eq ↔ keyPlace a = keyPlace b := by
  have hcases := compareKeys_cases ha hb
  cases hcmp : compareKeys a b with
  | lt =>
      rw [hcmp] at hcases
      exact iff_of_false (by decide) hcases.ne
  | eq =>
      rw [hcmp] at hcases
      exact iff_of_true rfl hcases
  | gt =>
      rw [hcmp] at hcases
      exact iff_of_false (by decide) hcases.ne'

/-! ## Probes

A probe may have fewer columns than the keys, and both may hold a NaN, which is
above every number and below none. -/

theorem compareKeys_cons (a b : Value) (as bs : List Value) :
    compareKeys (a :: as) (b :: bs) = (compareKeys [a] [b]).then (compareKeys as bs) := by
  rw [compareKeys, compareKeys]
  split
  · rfl
  · split
    · split <;> rfl
    · split <;> rfl

/-- Further columns of the key do not matter. -/
theorem compareKeys_single (a b : Value) (bs : List Value) :
    compareKeys [a] (b :: bs) = compareKeys [a] [b] := by
  rw [compareKeys_cons]
  cases compareKeys [a] [b] <;> rfl

theorem compareKeys_append {as bs : List Value} (h : as.length = bs.length) (as' bs' : List Value) :
    compareKeys (as ++ as') (bs ++ bs') = (compareKeys as bs).then (compareKeys as' bs') := by
  induction as generalizing bs with
  | nil =>
      obtain rfl : bs = [] := List.length_eq_zero_iff.mp h.symm
      rfl
  | cons a as ih =>
      obtain ⟨b, bs, rfl⟩ : ∃ b bs', bs = b :: bs' :=
        List.exists_cons_of_ne_nil (List.ne_nil_of_length_pos (h ▸ Nat.succ_pos _))
      rw [List.cons_append, List.cons_append, compareKeys_cons, compareKeys_cons a b as bs,
        ih (Nat.succ.inj h), Ordering.then_assoc]

namespace Value

theorem rank_of_isNan {v : Value} (h : v.isNan) : v.rank = 1 := rank_of_number h

theorem pyEq_of_isNan {a b : Value} (h : a.isNan ∨ b.isNan) : a.pyEq b = false := by
  by_cases hrank : a.rank = b.rank
  · rcases h with h | h
    · obtain ⟨y, hy⟩ := exists_number (hrank ▸ rank_of_isNan h)
      rw [number_pyEq h hy]
      rfl
    · obtain ⟨x, hx⟩ := exists_number (hrank.trans (rank_of_isNan h))
      rw [number_pyEq hx h]
      cases x <;> rfl
  · exact pyEq_of_rank_ne hrank

theorem pyLt_of_isNan {a b : Value} (h : a.isNan ∨ b.isNan) (hrank : a.rank = b.rank) :
    a.pyLt b = false := by
  rcases h with h | h
  · obtain ⟨y, hy⟩ := exists_number (hrank ▸ rank_of_isNan h)
    rw [number_pyLt h hy]
    rfl
  · obtain ⟨x, hx⟩ := exists_number (hrank.trans (rank_of_isNan h))
    rw [number_pyLt hx h]
    cases x <;> rfl

/-- Beside a NaN only the storage classes count. -/
theorem compare_of_isNan {a b : Value} (h : a.isNan ∨ b.isNan) :
    compareKeys [a] [b] = if a.rank < b.rank then .lt else .gt := by
  rw [compareKeys, pyEq_of_isNan h, if_neg Bool.false_ne_true]
  by_cases hrank : a.rank = b.rank
  · rw [if_neg (not_not.mpr hrank), pyLt_of_isNan h hrank, if_neg Bool.false_ne_true,
      if_neg (Nat.not_lt.mpr hrank.ge)]
  · rw [if_pos hrank]

theorem compare_cases {a b : Value} (ha : ¬ a.isNan) (hb : ¬ b.isNan) :
    match compareKeys [a] [b] with
    | .lt => a.place < b.place
    | .eq => a.place = b.place
    | .gt => b.place < a.place := by
  have hcases := @compareKeys_cases 1 [a] [b] ⟨rfl, fun v hv => List.mem_singleton.mp hv ▸ ha⟩
    ⟨rfl, fun v hv => List.mem_singleton.mp hv ▸ hb⟩
  have hsingle : ∀ {x y : List Int}, [x] < [y] → x < y := fun h =>
    (List.cons_lt_cons_iff.mp h).resolve_right fun h => List.not_lt_nil _ h.2
  cases hcmp : compareKeys [a] [b] with
  | lt =>
      rw [hcmp] at hcases
      exact hsingle hcases
  | eq =>
      rw [hcmp] at hcases
      exact (List.cons.inj hcases).1
  | gt =>
      rw [hcmp] at hcases
      exact hsingle hcases

theorem compare_eq_iff {a b : Value} :
    compareKeys [a] [b] = .eq ↔ ¬ a.isNan ∧ ¬ b.isNan ∧ a.place = b.place := by
  by_cases hnan : a.isNan ∨ b.isNan
  · rw [compare_of_isNan hnan]
    refine iff_of_false (by split <;> decide) fun h => ?_
    exact hnan.elim h.1 h.2.1
  · obtain ⟨ha, hb⟩ := not_or.mp hnan
    have hcases := compare_cases ha hb
    cases hcmp : compareKeys [a] [b] with
    | lt =>
        rw [hcmp] at hcases
        exact iff_of_false (by decide) fun h => hcases.ne h.2.2
    | eq =>
        rw [hcmp] at hcases
        exact iff_of_true rfl ⟨ha, hb, hcases⟩
    | gt =>
        rw [hcmp] at hcases
        exact iff_of_false (by decide) fun h => hcases.ne' h.2.2

theorem compare_lt_iff {a b : Value} :
    compareKeys [a] [b] = .lt ↔ a.rank < b.rank ∨ ¬ a.isNan ∧ ¬ b.isNan ∧ a.place < b.place := by
  by_cases hnan : a.isNan ∨ b.isNan
  · rw [compare_of_isNan hnan]
    by_cases hlt : a.rank < b.rank
    · rw [if_pos hlt]
      exact iff_of_true rfl (.inl hlt)
    · rw [if_neg hlt]
      refine iff_of_false (by decide) ?_
      rintro (h | h)
      · exact hlt h
      · exact hnan.elim h.1 h.2.1
  · obtain ⟨ha, hb⟩ := not_or.mp hnan
    have hcases := compare_cases ha hb
    cases hcmp : compareKeys [a] [b] with
    | lt =>
        rw [hcmp] at hcases
        exact iff_of_true rfl (.inr ⟨ha, hb, hcases⟩)
    | eq =>
        rw [hcmp] at hcases
        refine iff_of_false (by decide) ?_
        rintro (h | h)
        · exact (place_lt_of_rank_lt h).ne hcases
        · exact h.2.2.ne hcases
    | gt =>
        rw [hcmp] at hcases
        refine iff_of_false (by decide) ?_
        rintro (h | h)
        · exact (place_lt_of_rank_lt h).asymm hcases
        · exact h.2.2.asymm hcases

theorem rank_le_of_place_le {a b : Value} (h : a.place ≤ b.place) : a.rank ≤ b.rank := by
  by_contra hlt
  exact not_le.mpr (place_lt_of_rank_lt (not_le.mp hlt)) h

theorem compare_trans {a b c : Value} (h : compareKeys [b] [c] ≠ .gt) :
    (compareKeys [a] [b] = .lt → compareKeys [a] [c] = .lt) ∧
      (compareKeys [a] [b] = .eq → compareKeys [a] [c] = compareKeys [b] [c]) := by
  cases hbc : compareKeys [b] [c] with
  | gt => exact absurd hbc h
  | eq =>
      obtain ⟨hb, hc, heq⟩ := compare_eq_iff.mp hbc
      have hrank : b.rank = c.rank :=
        Nat.le_antisymm (rank_le_of_place_le heq.le) (rank_le_of_place_le heq.ge)
      refine ⟨fun hab => compare_lt_iff.mpr ?_, fun hab => compare_eq_iff.mpr ?_⟩
      · rw [compare_lt_iff] at hab
        rw [← heq, ← hrank]
        exact hab.imp_right fun hab => ⟨hab.1, hc, hab.2.2⟩
      · obtain ⟨ha, -, hplace⟩ := compare_eq_iff.mp hab
        exact ⟨ha, hc, hplace.trans heq⟩
  | lt =>
      have hrank : b.rank ≤ c.rank := by
        rcases compare_lt_iff.mp hbc with hlt | ⟨-, -, hlt⟩
        · exact hlt.le
        · exact rank_le_of_place_le hlt.le
      refine ⟨fun hab => compare_lt_iff.mpr ?_, fun hab => compare_lt_iff.mpr ?_⟩
      · rcases compare_lt_iff.mp hab with hlt | ⟨ha, hb, hlt⟩
        · exact .inl (Nat.lt_of_lt_of_le hlt hrank)
        · rcases compare_lt_iff.mp hbc with hlt' | ⟨-, hc, hlt'⟩
          · exact .inl (Nat.lt_of_le_of_lt (rank_le_of_place_le hlt.le) hlt')
          · exact .inr ⟨ha, hc, hlt.trans hlt'⟩
      · obtain ⟨ha, hb, heq⟩ := compare_eq_iff.mp hab
        rcases compare_lt_iff.mp hbc with hlt | ⟨-, hc, hlt⟩
        · exact .inl (Nat.lt_of_le_of_lt (rank_le_of_place_le heq.le) hlt)
        · exact .inr ⟨ha, hc, heq ▸ hlt⟩

end Value

/-- A probe that is below or at a key is so for the keys behind it. -/
theorem compareKeys_trans {p a b : List Value} (ha : p.length ≤ a.length) (hb : p.length ≤ b.length)
    (h : compareKeys a b ≠ .gt) : (compareKeys p a = .lt → compareKeys p b = .lt) ∧
      (compareKeys p a = .eq → compareKeys p b ≠ .gt) := by
  induction p generalizing a b with
  | nil => exact ⟨nofun, fun _ => nofun⟩
  | cons x p ih =>
      obtain ⟨y, a, rfl⟩ : ∃ y a', a = y :: a' :=
        List.exists_cons_of_ne_nil (List.ne_nil_of_length_pos (Nat.lt_of_lt_of_le (Nat.succ_pos _) ha))
      obtain ⟨z, b, rfl⟩ : ∃ z b', b = z :: b' :=
        List.exists_cons_of_ne_nil (List.ne_nil_of_length_pos (Nat.lt_of_lt_of_le (Nat.succ_pos _) hb))
      rw [compareKeys_cons] at h
      rw [compareKeys_cons, compareKeys_cons x z]
      have hyz : compareKeys [y] [z] ≠ .gt := by
        intro hgt
        rw [hgt] at h
        exact h rfl
      obtain ⟨hlt, heq⟩ := @Value.compare_trans x y z hyz
      cases hxy : compareKeys [x] [y] with
      | lt =>
          rw [hlt hxy]
          exact ⟨fun _ => rfl, fun _ => nofun⟩
      | gt => exact ⟨nofun, nofun⟩
      | eq =>
          rw [heq hxy]
          cases hcmp : compareKeys [y] [z] with
          | lt => exact ⟨fun _ => rfl, fun _ => nofun⟩
          | gt => exact absurd hcmp hyz
          | eq =>
              rw [hcmp] at h
              exact ih (Nat.le_of_succ_le_succ ha) (Nat.le_of_succ_le_succ hb) h

end QuillDb
