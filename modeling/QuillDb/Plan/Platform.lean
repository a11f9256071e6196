/-
  Plan/Platform.lean --- floats that round to nearest.

  The arithmetic of a platform with 64-bit floats, for runs on concrete figures.  The
  powers of a third are those of a `pow` that rounds correctly.
-/
import QuillDb.Plan.Resolves
import QuillDb.Plan.Shapes

set_option autoImplicit false

namespace QuillDb

/-- The float arithmetic of a planner's runs. -/
def roundingFloats : CostOps where
  toFloatOps := floatArithmetic
  third n := signedBits false (min 0x3FF0000000000000 (roundRatio 1 (3 ^ n)))
  ceil bits :=
    match realNumber bits with
    | .finite n => some (-((-n) / 2 ^ 1074))
    | _ => none
  log2 n := roundFloat n.natAbs.log2 1

/-! ## It converts -/

theorem realNumber_signedBits {negative : Bool} {magnitude : Nat} (h : magnitude ≤ maxFiniteBits) :
    ∃ n, realNumber (signedBits negative magnitude) = .finite n := by
  have hexponent : (signedBits negative magnitude).toNat / 2 ^ 52 % 2 ^ 11 ≠ 2047 := by
    rw [signedBits, BitVec.toNat_ofNat]
    rw [maxFiniteBits] at h
    cases negative <;> simp <;> omega
  rw [realNumber]
  simp only [hexponent, if_false]
  exact ⟨_, rfl⟩

theorem roundRatio_le (num den : Nat) : roundRatio num den ≤ maxFiniteBits := by
  rw [roundRatio]
  split
  · exact Nat.zero_le _
  · exact min_le_left ..

theorem roundFloat_finite {n : Int} {den : Nat} (h : n.natAbs < floatLimit * den) :
    ∃ x, realNumber (roundFloat n den) = .finite x := by
  rw [roundFloat, if_pos h]
  exact realNumber_signedBits (roundRatio_le ..)

/-- A float up to one. -/
theorem realNumber_le_one {magnitude : Nat} (h : magnitude ≤ 0x3FF0000000000000) :
    ∃ y : Nat, realNumber (signedBits false magnitude) = .finite y ∧ y ≤ 2 ^ 1074 := by
  have htoNat : (signedBits false magnitude).toNat = magnitude := by
    rw [signedBits, BitVec.toNat_ofNat]
    simp
    omega
  have hpow : ∀ {e m : Nat}, e ≤ 1023 → m < 2 ^ 52 → (e = 1023 → m = 0) → (2 ^ 52 + m) * 2 ^ (e - 1) ≤ 2 ^ 1074 := by
    intro e m he hm hone
    rcases Nat.lt_or_ge e 1023 with hlt | hge
    · calc (2 ^ 52 + m) * 2 ^ (e - 1) ≤ 2 ^ 53 * 2 ^ 1021 :=
            Nat.mul_le_mul (by omega) (Nat.pow_le_pow_right (by decide) (by omega))
        _ = 2 ^ 1074 := by rw [← Nat.pow_add]
    · obtain rfl : e = 1023 := by omega
      rw [hone rfl, Nat.add_zero, ← Nat.pow_add]
  have hexponent : magnitude / 2 ^ 52 % 2 ^ 11 ≤ 1023 := by omega
  have hmantissa : magnitude % 2 ^ 52 < 2 ^ 52 := Nat.mod_lt _ (by decide)
  have hone : magnitude / 2 ^ 52 % 2 ^ 11 = 1023 → magnitude % 2 ^ 52 = 0 := by omega
  have hpositive : ¬ 2 ^ 63 ≤ magnitude := by omega
  rw [realNumber, htoNat]
  generalize magnitude / 2 ^ 52 % 2 ^ 11 = e at hexponent hone ⊢
  generalize magnitude % 2 ^ 52 = m at hmantissa hone ⊢
  have hne : e ≠ 2047 := by omega
  simp only [hne, hpositive, if_false]
  by_cases hzero : e = 0
  · refine ⟨m, by simp [hzero], ?_⟩
    exact hmantissa.le.trans (Nat.pow_le_pow_right (by decide) (by decide))
  · exact ⟨(2 ^ 52 + m) * 2 ^ (e - 1), by simp [hzero], hpow hexponent hmantissa hone⟩

theorem natAbs_ceil_le {x : Int} {limit k : Nat} (h : x.natAbs ≤ limit * 2 ^ k) :
    (-((-x) / 2 ^ k)).natAbs ≤ limit := by
  have hpos : (0 : Int) < 2 ^ k := by positivity
  have hcast : ((limit * 2 ^ k : Nat) : Int) = limit * 2 ^ k := by push_cast; ring
  have hlow : -(limit : Int) ≤ -x / 2 ^ k := by
    rw [Int.le_ediv_iff_mul_le hpos]
    have hle : x ≤ ((limit * 2 ^ k : Nat) : Int) := by omega
    rw [hcast] at hle
    linarith
  have hhigh : -x / 2 ^ k ≤ limit := by
    apply Int.ediv_le_of_le_mul hpos
    have hle : -x ≤ ((limit * 2 ^ k : Nat) : Int) := by omega
    rwa [hcast] at hle
  omega

theorem natAbs_mul_le {x : Int} {y limit k : Nat} (hx : x.natAbs ≤ limit * 2 ^ k) (hy : y ≤ 2 ^ k) :
    (x * y).natAbs ≤ limit * 2 ^ (k + k) := by
  calc (x * y).natAbs = x.natAbs * y := by rw [Int.natAbs_mul, Int.natAbs_natCast]
    _ ≤ limit * 2 ^ k * 2 ^ k := Nat.mul_le_mul hx hy
    _ = limit * 2 ^ (k + k) := by rw [Nat.mul_assoc, ← Nat.pow_add]

theorem onFinite_eq {f : Int → Int → BitVec 64} {a b : BitVec 64} {x y : Int} (ha : realNumber a = .finite x)
    (hb : realNumber b = .finite y) : onFinite f a b = f x y := by
  rw [onFinite, ha, hb]

theorem truncated_isSome {bits : BitVec 64} {z : Int} (h : realNumber bits = .finite z) :
    (truncated (realNumber bits)).isSome := by
  rw [h, truncated, Option.isSome_some]

theorem roundingFloats_ofInt {n : Int} {bits : BitVec 64} :
    roundingFloats.ofInt n = some bits ↔ n.natAbs < floatLimit ∧ roundFloat n 1 = bits := by
  have hofInt : roundingFloats.ofInt n = if n.natAbs < floatLimit then some (roundFloat n 1) else none := rfl
  rw [hofInt, Option.ite_none_right_eq_some, Option.some.injEq]

theorem roundingFloats_intDiv {n m : Int} {bits : BitVec 64} :
    roundingFloats.intDiv n m = some bits ↔
      n.natAbs < floatLimit * m.natAbs ∧ roundFloat (if m < 0 then -n else n) m.natAbs = bits := by
  have hintDiv : roundingFloats.intDiv n m =
      if n.natAbs < floatLimit * m.natAbs then some (roundFloat (if m < 0 then -n else n) m.natAbs) else none := rfl
  rw [hintDiv, Option.ite_none_right_eq_some, Option.some.injEq]

theorem roundingFloats_third {n : Int} {bits : BitVec 64} {k : Nat} (hbits : roundingFloats.ofInt n = some bits) :
    (roundingFloats.trunc (roundingFloats.mul bits (roundingFloats.third k))).isSome := by
  obtain ⟨hn, rfl⟩ := roundingFloats_ofInt.mp hbits
  obtain ⟨x, hx⟩ := @roundFloat_finite n 1 (by rwa [Nat.mul_one])
  obtain ⟨y, hy, hle⟩ := @realNumber_le_one (min 0x3FF0000000000000 (roundRatio 1 (3 ^ k))) (min_le_left ..)
  have hrange := (natAbs_mul_le (realNumber_le hx) hle).trans_lt
    (Nat.mul_lt_mul_of_pos_right maxFloat_lt (Nat.two_pow_pos (1074 + 1074)))
  obtain ⟨z, hz⟩ := roundFloat_finite hrange
  have hmul : roundingFloats.mul (roundFloat n 1) (roundingFloats.third k) = roundFloat (x * y) (2 ^ (1074 + 1074)) :=
    onFinite_eq hx hy
  rw [hmul]
  exact truncated_isSome hz

theorem roundingFloats_ceil {n m : Int} {bits : BitVec 64} (hbits : roundingFloats.intDiv n m = some bits) :
    ∃ c, roundingFloats.ceil bits = some c ∧ c.natAbs ≤ maxFloat := by
  obtain ⟨hn, rfl⟩ := roundingFloats_intDiv.mp hbits
  have habs : (if m < 0 then -n else n).natAbs < floatLimit * m.natAbs := by
    split
    · rwa [Int.natAbs_neg]
    · exact hn
  obtain ⟨x, hx⟩ := roundFloat_finite habs
  refine ⟨-((-x) / 2 ^ 1074), ?_, natAbs_ceil_le (realNumber_le hx)⟩
  simp only [roundingFloats, hx]

theorem roundingFloats_converts : roundingFloats.Converts where
  ofInt_isSome n hn :=
    Option.isSome_iff_exists.mpr ⟨_, roundingFloats_ofInt.mpr ⟨hn.trans_lt maxFloat_lt, rfl⟩⟩
  third_isSome n bits k := roundingFloats_third
  intDiv_isSome n m hm hn := by
    have hlt : n.natAbs < floatLimit * m.natAbs :=
      (hn.trans_lt maxFloat_lt).trans_le (Nat.le_mul_of_pos_right _ (by omega))
    exact Option.isSome_iff_exists.mpr ⟨_, roundingFloats_intDiv.mpr ⟨hlt, rfl⟩⟩
  ceil_intDiv n m bits := roundingFloats_ceil

/-! ## A sort costs something -/

/-- A ratio that is not below `2 ^ -k` does not round below it. -/
theorem le_roundRatio {num d k : Nat} (hk : k ≤ 1022) (h : 2 ^ d ≤ num * 2 ^ k) :
    (1023 - k) * 2 ^ 52 ≤ roundRatio num (2 ^ d) := by
  have hnum : num ≠ 0 := by
    rintro rfl
    have hpos : 0 < 2 ^ d := Nat.two_pow_pos d
    omega
  have hlow := Nat.log2_self_le hnum
  have hhigh := @Nat.lt_log2_self num
  -- the exponent of the ratio
  have hexponent : d ≤ num.log2 + k := by
    have hlt : 2 ^ d < 2 ^ (num.log2 + 1 + k) := by
      calc 2 ^ d ≤ num * 2 ^ k := h
        _ < 2 ^ (num.log2 + 1) * 2 ^ k := Nat.mul_lt_mul_of_pos_right hhigh (Nat.two_pow_pos k)
        _ = 2 ^ (num.log2 + 1 + k) := (Nat.pow_add ..).symm
    have := (Nat.pow_lt_pow_iff_right (by decide : 1 < 2)).mp hlt
    omega
  have hfirst : 2 ^ d * 2 ^ ((num.log2 : Int) - d).toNat ≤ num * 2 ^ (-((num.log2 : Int) - d)).toNat := by
    calc 2 ^ d * 2 ^ ((num.log2 : Int) - d).toNat = 2 ^ (num.log2 + (-((num.log2 : Int) - d)).toNat) := by
          rw [← Nat.pow_add]
          congr 1
          omega
      _ = 2 ^ num.log2 * 2 ^ (-((num.log2 : Int) - d)).toNat := Nat.pow_add ..
      _ ≤ num * 2 ^ (-((num.log2 : Int) - d)).toNat := Nat.mul_le_mul_right _ hlow
  have hunit : max ((num.log2 : Int) - d - 52) (-1074) = (num.log2 : Int) - d - 52 := by omega
  have hdigits : 2 ^ 52 ≤
      num * 2 ^ (-((num.log2 : Int) - d - 52)).toNat / (2 ^ d * 2 ^ ((num.log2 : Int) - d - 52).toNat) := by
    rw [Nat.le_div_iff_mul_le (Nat.mul_pos (Nat.two_pow_pos _) (Nat.two_pow_pos _))]
    calc 2 ^ 52 * (2 ^ d * 2 ^ ((num.log2 : Int) - d - 52).toNat)
        = 2 ^ (num.log2 + (-((num.log2 : Int) - d - 52)).toNat) := by
          rw [← Nat.pow_add, ← Nat.pow_add]
          congr 1
          omega
      _ = 2 ^ num.log2 * 2 ^ (-((num.log2 : Int) - d - 52)).toNat := Nat.pow_add ..
      _ ≤ num * 2 ^ (-((num.log2 : Int) - d - 52)).toNat := Nat.mul_le_mul_right _ hlow
  rw [roundRatio]
  simp only [Nat.log2_two_pow, if_pos hfirst, hunit, if_neg hnum]
  apply Nat.le_min.mpr
  constructor
  · rw [maxFiniteBits]
    omega
  · have hsteps : 1022 - k ≤ ((num.log2 : Int) - d - 52 + 1074).toNat := by omega
    calc (1023 - k) * 2 ^ 52 = (1022 - k) * 2 ^ 52 + 2 ^ 52 := by omega
      _ ≤ ((num.log2 : Int) - d - 52 + 1074).toNat * 2 ^ 52 + 2 ^ 52 := by omega
      _ ≤ _ := by omega

/-- A float that is not below `2 ^ -k`. -/
theorem le_realNumber {m k : Nat} (hk : k ≤ 1022) (hlow : (1023 - k) * 2 ^ 52 ≤ m) (hm : m ≤ maxFiniteBits) :
    ∃ v : Nat, realNumber (signedBits false m) = .finite v ∧ 2 ^ (1074 - k) ≤ v := by
  rw [maxFiniteBits] at hm
  have htoNat : (signedBits false m).toNat = m := by
    rw [signedBits, BitVec.toNat_ofNat]
    simp
    omega
  have hexponent : 1023 - k ≤ m / 2 ^ 52 % 2 ^ 11 ∧ m / 2 ^ 52 % 2 ^ 11 ≠ 2047 := by omega
  have hpositive : ¬ 2 ^ 63 ≤ m := by omega
  rw [realNumber, htoNat]
  generalize m / 2 ^ 52 % 2 ^ 11 = e at hexponent ⊢
  generalize m % 2 ^ 52 = mantissa
  have hzero : e ≠ 0 := by omega
  refine ⟨(2 ^ 52 + mantissa) * 2 ^ (e - 1), ?_, ?_⟩
  · simp only [hexponent.2, hpositive, hzero, if_false]
  · calc 2 ^ (1074 - k) = 2 ^ 52 * 2 ^ (1022 - k) := by rw [← Nat.pow_add]; congr 1; omega
      _ ≤ (2 ^ 52 + mantissa) * 2 ^ (e - 1) :=
        Nat.mul_le_mul (Nat.le_add_right ..) (Nat.pow_le_pow_right (by decide) (by omega))

/-- A number of the platform that is infinite or not below `2 ^ -k`. -/
def NotBelow (k : Nat) (x : Number) : Prop := x = .posInf ∨ ∃ v : Nat, x = .finite v ∧ 2 ^ (1074 - k) ≤ v

theorem roundFloat_notBelow {n : Int} {d k : Nat} (hk : k ≤ 1022) (hn : 0 ≤ n) (h : 2 ^ d ≤ n.natAbs * 2 ^ k) :
    NotBelow k (realNumber (roundFloat n (2 ^ d))) := by
  have hsign : decide (n < 0) = false := decide_eq_false (by omega)
  rw [roundFloat, hsign]
  split
  · exact .inr (le_realNumber hk (le_roundRatio hk h) (roundRatio_le ..))
  · exact .inl (by decide)

/-- A product of floats that are not near zero. -/
theorem mul_notBelow {a b : BitVec 64} {j k : Nat} (hjk : j + k ≤ 1022) (ha : NotBelow j (realNumber a))
    (hb : NotBelow k (realNumber b)) : roundingFloats.mul a b = nanBits ∨
      NotBelow (j + k) (realNumber (roundingFloats.mul a b)) := by
  have hmul : roundingFloats.mul a b = onFinite (fun x y => roundFloat (x * y) (2 ^ (1074 + 1074))) a b := rfl
  rw [hmul]
  rcases ha with ha | ⟨v, ha, hv⟩
  · rw [onFinite, ha]
    exact .inl rfl
  · rcases hb with hb | ⟨w, hb, hw⟩
    · rw [onFinite, ha, hb]
      exact .inl rfl
    · rw [onFinite_eq ha hb]
      refine .inr (roundFloat_notBelow hjk (by positivity) ?_)
      rw [Int.natAbs_mul, Int.natAbs_natCast, Int.natAbs_natCast]
      calc 2 ^ (1074 + 1074) = 2 ^ (1074 - j) * 2 ^ (1074 - k) * 2 ^ (j + k) := by
            rw [← Nat.pow_add, ← Nat.pow_add]
            congr 1
            omega
        _ ≤ v * w * 2 ^ (j + k) := Nat.mul_le_mul_right _ (Nat.mul_le_mul hv hw)

theorem NotBelow.ne_zero {k : Nat} {x : Number} (h : NotBelow k x) : x ≠ .finite 0 := by
  rcases h with rfl | ⟨v, rfl, hv⟩
  · exact Number.noConfusion
  · intro hzero
    have hpos : 0 < 2 ^ (1074 - k) := Nat.two_pow_pos _
    have hnil : (v : Int) = 0 := Number.finite.inj hzero
    omega

theorem cpuPerRow_notBelow : NotBelow 7 (realNumber Planner.cpuPerRow) :=
  .inr (@le_realNumber 0x3F847AE147AE147B 7 (by decide) (by decide) (by decide))

theorem roundingFloats_sortCosts : roundingFloats.SortCosts := by
  intro rows cost hrows hcost
  have hnan : realNumber nanBits ≠ .finite 0 := by decide
  have hofInt : ∀ {n : Int}, 1 ≤ n → NotBelow 0 (realNumber (roundFloat n 1)) :=
    fun hn => roundFloat_notBelow (d := 0) (by decide) (by omega) (by omega)
  have hlog : NotBelow 0 (realNumber (roundingFloats.log2 rows)) := by
    apply hofInt
    have hle : 1 ≤ rows.natAbs.log2 := by
      rw [Nat.le_log2 (by omega)]
      omega
    omega
  have hbits : ∃ bits, NotBelow 0 (realNumber bits) ∧ cost = roundingFloats.mul Planner.cpuPerRow bits := by
    rw [Planner.timesInt, floatOfInt] at hcost
    cases hofint : roundingFloats.ofInt rows with
    | none =>
        rw [hofint] at hcost
        cases hcost
    | some bits =>
        rw [hofint] at hcost
        cases hcost
        obtain ⟨-, rfl⟩ := roundingFloats_ofInt.mp hofint
        exact ⟨_, hofInt (by omega), rfl⟩
  obtain ⟨bits, hbits, rfl⟩ := hbits
  rcases mul_notBelow (by decide) cpuPerRow_notBelow hbits with hnone | hmul
  · have hmul : roundingFloats.mul nanBits (roundingFloats.log2 rows) = nanBits := rfl
    rw [hnone, hmul]
    exact hnan
  · rcases mul_notBelow (by decide) hmul hlog with hnone | hmul
    · rw [hnone]
      exact hnan
    · exact hmul.ne_zero

end QuillDb
