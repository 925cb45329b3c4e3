import NevelCore.Params.Network
import Mathlib.Data.Nat.Bitwise
import Mathlib.Data.Nat.Log
import Mathlib.Order.Bounds.Basic
import Mathlib.Tactic.NormNum
import Mathlib.Tactic.Ring

/-!
# Compact targets

What `BigToCompact` keeps of a target. It writes the leading bytes behind their number
(`bigToCompact_natCast`), which for a target of 24 bits or more leaves a mantissa of between 16 and
23 bits (`exists_bigToCompact_eq`). So `CompactToBig` finds the greatest number with such a mantissa
that is not above the target (`isGreatest_compactToBig_bigToCompact`), as long as the size fits its
byte. Order, repetition and the size of the error follow from that, and `compact_rounds_down` puts
them together for the targets that a hash can be compared with.
-/

set_option autoImplicit false
set_option relaxedAutoImplicit false

namespace NevelCore

/-! ### The two parts of a compact form -/

/-- The compact form with a mantissa and a size. -/
def compactForm (mantissa size : ℕ) : UInt32 := UInt32.ofNat mantissa ||| UInt32.ofNat size <<< 24

theorem toNat_compactForm {mantissa size : ℕ} (hmantissa : mantissa < 2 ^ 24)
    (hsize : size < 2 ^ 8) : (compactForm mantissa size).toNat = size * 2 ^ 24 + mantissa := by
  have hfits : size <<< 24 < 2 ^ 32 := by
    rw [Nat.shiftLeft_eq]
    omega
  have hmantissa' : mantissa < UInt32.size := by
    change mantissa < 2 ^ 32
    omega
  have hsize' : size < UInt32.size := by
    change size < 2 ^ 32
    omega
  rw [compactForm, UInt32.toNat_or, UInt32.toNat_shiftLeft, UInt32.toNat_ofNat_of_lt' hmantissa',
    UInt32.toNat_ofNat_of_lt' hsize']
  change mantissa ||| size <<< 24 % 2 ^ 32 = _
  rw [Nat.mod_eq_of_lt hfits, Nat.or_comm, ← Nat.shiftLeft_add_eq_or_of_lt hmantissa,
    Nat.shiftLeft_eq]

/-- The sign bit of a compact form. -/
theorem sign_ne_zero_iff (compact : UInt32) :
    compact &&& 0x00800000 ≠ 0 ↔ compact.toNat / 2 ^ 23 % 2 = 1 := by
  rw [ne_eq, ← UInt32.toNat_inj, UInt32.toNat_and]
  change ¬ compact.toNat &&& 2 ^ 23 = 0 ↔ _
  rw [Nat.and_two_pow, Nat.testBit_eq_decide_div_mod_eq]
  simp

/-- `CompactToBig` reads the two parts of a compact form without a sign. -/
theorem compactToBig_compactForm {mantissa size : ℕ} (hmantissa : mantissa < 2 ^ 23)
    (hsize : size < 2 ^ 8) : compactToBig (compactForm mantissa size) =
      ((if size ≤ 3 then mantissa / 256 ^ (3 - size)
        else mantissa * 256 ^ (size - 3) : ℕ) : ℤ) := by
  have hvalue : (compactForm mantissa size).toNat = size * 2 ^ 24 + mantissa :=
    toNat_compactForm (by omega) hsize
  have hhigh : (compactForm mantissa size >>> 24).toNat = size := by
    rw [UInt32.toNat_shiftRight, hvalue]
    change (size * 2 ^ 24 + mantissa) >>> 24 = size
    rw [Nat.shiftRight_eq_div_pow]
    omega
  have hlow : (compactForm mantissa size &&& 0x007fffff).toNat = mantissa := by
    rw [UInt32.toNat_and, hvalue]
    change (size * 2 ^ 24 + mantissa) &&& (2 ^ 23 - 1) = mantissa
    rw [Nat.and_two_pow_sub_one_eq_mod]
    omega
  have hsign : ¬ compactForm mantissa size &&& 0x00800000 ≠ 0 := by
    rw [sign_ne_zero_iff, hvalue]
    omega
  rw [compactToBig, hhigh, hlow, if_neg hsign, Nat.shiftRight_eq_div_pow, Nat.shiftLeft_eq,
    Nat.pow_mul, Nat.pow_mul]

theorem lt_pow_byteLength (x : ℕ) : x < 256 ^ byteLength x := by
  rw [byteLength]
  split_ifs with hzero
  · rw [hzero]
    decide
  · calc x < 2 ^ (x.log2 + 1) := Nat.lt_log2_self
      _ ≤ 2 ^ (8 * (x.log2 / 8 + 1)) := Nat.pow_le_pow_right (by decide) (by omega)
      _ = 256 ^ (x.log2 / 8 + 1) := Nat.pow_mul 2 8 _

theorem pow_byteLength_le {x : ℕ} (h : x ≠ 0) : 256 ^ (byteLength x - 1) ≤ x := by
  rw [byteLength, if_neg h, Nat.add_sub_cancel]
  calc 256 ^ (x.log2 / 8) = 2 ^ (8 * (x.log2 / 8)) := (Nat.pow_mul 2 8 _).symm
    _ ≤ 2 ^ x.log2 := Nat.pow_le_pow_right (by decide) (by omega)
    _ ≤ x := Nat.log2_self_le h

theorem byteLength_le {x bytes : ℕ} (h : x < 256 ^ bytes) : byteLength x ≤ bytes := by
  rw [byteLength]
  split_ifs with hzero
  · exact Nat.zero_le _
  · have hlog : x.log2 < 8 * bytes := by
      rw [Nat.log2_lt hzero, Nat.pow_mul]
      exact h
    omega

/-- The leading three bytes of a number. -/
def leading (x : ℕ) : ℕ :=
  if byteLength x ≤ 3 then x * 256 ^ (3 - byteLength x) else x / 256 ^ (byteLength x - 3)

theorem leading_lt (x : ℕ) : leading x < 2 ^ 24 := by
  have hlt := lt_pow_byteLength x
  rw [leading]
  split_ifs with hsize
  · calc x * 256 ^ (3 - byteLength x)
        < 256 ^ byteLength x * 256 ^ (3 - byteLength x) :=
          Nat.mul_lt_mul_of_pos_right hlt (Nat.pow_pos (by decide))
      _ = 2 ^ 24 := by
          rw [← Nat.pow_add, Nat.add_sub_of_le hsize]
          rfl
  · rw [Nat.div_lt_iff_lt_mul (Nat.pow_pos (by decide))]
    calc x < 256 ^ byteLength x := hlt
      _ = 2 ^ 24 * 256 ^ (byteLength x - 3) := by
          rw [show (2 ^ 24 : ℕ) = 256 ^ 3 from rfl, ← Nat.pow_add]
          congr 1
          omega

/-- `BigToCompact` takes the leading three bytes as the mantissa, or two if the first bit is set. -/
theorem bigToCompact_natCast (x : ℕ) :
    bigToCompact x = if leading x < 2 ^ 23 then compactForm (leading x) (byteLength x)
      else compactForm (leading x / 256) (byteLength x + 1) := by
  have hlt := leading_lt x
  have hvalue : (UInt32.ofNat (leading x)).toNat = leading x := by
    refine UInt32.toNat_ofNat_of_lt' ?_
    change leading x < 2 ^ 32
    omega
  have hsign : UInt32.ofNat (leading x) &&& 0x00800000 ≠ 0 ↔ ¬ leading x < 2 ^ 23 := by
    rw [sign_ne_zero_iff, hvalue]
    omega
  have hshift : UInt32.ofNat (leading x) >>> 8 = UInt32.ofNat (leading x / 256) := by
    rw [← UInt32.toNat_inj, UInt32.toNat_shiftRight, hvalue, UInt32.toNat_ofNat_of_lt',
      Nat.shiftRight_eq_div_pow]
    · rfl
    · change leading x / 256 < 2 ^ 32
      omega
  have hcompact : (if byteLength x ≤ 3
      then UInt32.ofNat ((x : ℤ) * 2 ^ (8 * (3 - byteLength x))).natAbs
      else UInt32.ofNat ((x : ℤ) / 2 ^ (8 * (byteLength x - 3))).natAbs) =
        UInt32.ofNat (leading x) := by
    rw [leading, apply_ite UInt32.ofNat]
    norm_cast
    rw [Nat.pow_mul, Nat.pow_mul]
  rw [bigToCompact]
  split_ifs with hzero hsmall hsmall
  · obtain rfl := Int.natCast_eq_zero.mp hzero
    rfl
  · obtain rfl := Int.natCast_eq_zero.mp hzero
    exact absurd (by decide) hsmall
  · rw [Int.natAbs_natCast]
    dsimp only
    rw [hcompact, if_neg (fun h ↦ hsign.mp h hsmall), compactForm]
  · rw [Int.natAbs_natCast]
    dsimp only
    rw [hcompact, if_pos (hsign.mpr hsmall), compactForm, hshift]

/-! ### Rounding -/

/-- A number below `2 ^ 23` keeps all its bytes. -/
theorem compactToBig_bigToCompact_of_lt {x : ℕ} (h : x < 2 ^ 23) :
    compactToBig (bigToCompact x) = x := by
  have hsize : byteLength x ≤ 3 := byteLength_le (lt_trans h (by decide))
  have hlt := leading_lt x
  have hleading : leading x = x * 256 ^ (3 - byteLength x) := by rw [leading, if_pos hsize]
  rw [bigToCompact_natCast]
  split_ifs with hsmall
  · rw [compactToBig_compactForm hsmall (by omega), if_pos hsize, hleading,
      Nat.mul_div_cancel _ (Nat.pow_pos (by decide))]
  · -- a full leading byte of a number with three bytes would make it too large
    have htwo : byteLength x ≤ 2 := by
      by_contra hthree
      rw [hleading, show byteLength x = 3 by omega, Nat.sub_self, Nat.pow_zero,
        Nat.mul_one] at hsmall
      exact hsmall h
    have hpow : 256 ^ (3 - byteLength x) = 256 * 256 ^ (3 - (byteLength x + 1)) := by
      rw [← Nat.pow_succ']
      congr 1
      omega
    rw [compactToBig_compactForm (by omega) (by omega), if_pos (by omega), hleading,
      Nat.div_div_eq_div_mul, ← hpow, Nat.mul_div_cancel _ (Nat.pow_pos (by decide))]

/-- A larger number loses its last `k` bytes, for the one `k` that leaves a mantissa of between 16
and 23 bits. -/
theorem exists_bigToCompact_eq {x : ℕ} (h : 2 ^ 23 ≤ x) :
    ∃ k, 2 ^ 15 ≤ x / 256 ^ k ∧ x / 256 ^ k < 2 ^ 23 ∧
      bigToCompact x = compactForm (x / 256 ^ k) (k + 3) := by
  have hlt := leading_lt x
  have hthree : 3 ≤ byteLength x := by
    by_contra hsize
    have hle := Nat.pow_le_pow_right (n := 256) (by decide) (show byteLength x ≤ 2 by omega)
    have := lt_pow_byteLength x
    omega
  rw [bigToCompact_natCast]
  split_ifs with hsmall
  · have hsize : ¬ byteLength x ≤ 3 := by
      intro hle
      rw [leading, if_pos hle, show byteLength x = 3 by omega, Nat.sub_self, Nat.pow_zero,
        Nat.mul_one] at hsmall
      omega
    rw [leading, if_neg hsize] at hsmall ⊢
    refine ⟨byteLength x - 3, ?_, hsmall, by rw [Nat.sub_add_cancel hthree]⟩
    rw [Nat.le_div_iff_mul_le (Nat.pow_pos (by decide))]
    calc 2 ^ 15 * 256 ^ (byteLength x - 3) ≤ 256 ^ 2 * 256 ^ (byteLength x - 3) :=
          Nat.mul_le_mul_right _ (by decide)
      _ = 256 ^ (byteLength x - 1) := by
          rw [← Nat.pow_add]
          congr 1
          omega
      _ ≤ x := pow_byteLength_le (by omega)
  · have hleading : leading x / 256 = x / 256 ^ (byteLength x - 2) := by
      rw [leading]
      split_ifs with hle
      · rw [show byteLength x = 3 by omega, Nat.sub_self, Nat.pow_zero, Nat.mul_one]
        rfl
      · rw [Nat.div_div_eq_div_mul, ← Nat.pow_succ]
        congr 2
        omega
    have hlow : 2 ^ 15 ≤ leading x / 256 := by omega
    have hhigh : leading x / 256 < 2 ^ 23 := by omega
    rw [hleading] at hlow hhigh ⊢
    exact ⟨byteLength x - 2, hlow, hhigh,
      by rw [show byteLength x - 2 + 3 = byteLength x + 1 by omega]⟩


/-- The exponents of the two numbers agree if their mantissas have between 16 and 23 bits. -/
theorem exponent_unique {x j k : ℕ} (hj : 2 ^ 15 ≤ x / 256 ^ j) (hj' : x / 256 ^ j < 2 ^ 23)
    (hk : 2 ^ 15 ≤ x / 256 ^ k) (hk' : x / 256 ^ k < 2 ^ 23) : j = k := by
  have hnot {a b : ℕ} (ha : x / 256 ^ a < 2 ^ 23) (hb : 2 ^ 15 ≤ x / 256 ^ b) : ¬ a < b := by
    intro hlt
    rw [Nat.le_div_iff_mul_le (Nat.pow_pos (by decide))] at hb
    rw [Nat.div_lt_iff_lt_mul (Nat.pow_pos (by decide))] at ha
    have hpow : 256 ^ (a + 1) ≤ 256 ^ b := Nat.pow_le_pow_right (by decide) hlt
    rw [Nat.pow_succ] at hpow
    omega
  have h := hnot hj' hk
  have h' := hnot hk' hj
  omega

/-- The least number whose size does not fit the top byte of a compact form. -/
def compactBound : ℕ := 2 ^ 15 * 256 ^ 253

/-- What the compact form of a number stands for: the number without its last `k` bytes. No byte is
lost unless a mantissa of at least 16 bits is left. -/
theorem exists_compactToBig_eq {x : ℕ} (h : x < compactBound) :
    ∃ k, compactToBig (bigToCompact x) = ((x / 256 ^ k * 256 ^ k : ℕ) : ℤ) ∧
      x / 256 ^ k < 2 ^ 23 ∧ (k = 0 ∨ 2 ^ 15 ≤ x / 256 ^ k) := by
  by_cases hsmall : x < 2 ^ 23
  · refine ⟨0, ?_, by rwa [Nat.pow_zero, Nat.div_one], Or.inl rfl⟩
    rw [compactToBig_bigToCompact_of_lt hsmall, Nat.pow_zero, Nat.div_one, Nat.mul_one]
  · obtain ⟨k, hlow, hhigh, hcompact⟩ := exists_bigToCompact_eq (not_lt.mp hsmall)
    refine ⟨k, ?_, hhigh, Or.inr hlow⟩
    have hk : k < 253 := by
      by_contra hk
      rw [Nat.le_div_iff_mul_le (Nat.pow_pos (by decide))] at hlow
      have hpow : 256 ^ 253 ≤ 256 ^ k := Nat.pow_le_pow_right (by decide) (not_lt.mp hk)
      exact absurd (lt_of_le_of_lt hlow h) (not_lt.mpr (Nat.mul_le_mul_left _ hpow))
    rw [hcompact, compactToBig_compactForm hhigh (by omega)]
    split_ifs with hle
    · obtain rfl : k = 0 := by omega
      rw [Nat.add_zero, Nat.sub_self, Nat.pow_zero, Nat.div_one, Nat.div_one, Nat.mul_one]
    · rw [Nat.add_sub_cancel]

/-- The targets that compact forms without sign stand for. -/
def compactTargets : Set ℤ := {v | ∃ m k : ℕ, m < 2 ^ 23 ∧ v = m * 256 ^ k}

/-- The compact form rounds down to the nearest target that it can hold. -/
theorem isGreatest_compactToBig_bigToCompact {n : ℤ} (hnonneg : 0 ≤ n) (hlt : n < compactBound) :
    IsGreatest {v | v ∈ compactTargets ∧ v ≤ n} (compactToBig (bigToCompact n)) := by
  lift n to ℕ using hnonneg
  obtain ⟨k, hvalue, hhigh, hlow⟩ := exists_compactToBig_eq (x := n) (by exact_mod_cast hlt)
  rw [hvalue]
  refine ⟨⟨⟨n / 256 ^ k, k, hhigh, by push_cast; rfl⟩, ?_⟩, ?_⟩
  · exact_mod_cast Nat.div_mul_le_self n _
  · rintro v ⟨⟨m, j, hm, rfl⟩, hle⟩
    have hle : m * 256 ^ j ≤ n := by exact_mod_cast hle
    have hround : m * 256 ^ j ≤ n / 256 ^ k * 256 ^ k := by
      by_cases hjk : k ≤ j
      · -- the other number is a multiple of the same power
        obtain ⟨e, rfl⟩ := Nat.exists_eq_add_of_le hjk
        rw [Nat.pow_add, Nat.mul_comm (256 ^ k), ← Nat.mul_assoc] at hle ⊢
        exact Nat.mul_le_mul_right _ ((Nat.le_div_iff_mul_le (Nat.pow_pos (by decide))).mpr hle)
      · -- its mantissa is too short
        have hpow : 256 ^ (j + 1) ≤ 256 ^ k := Nat.pow_le_pow_right (by decide) (by omega)
        have hlow : 2 ^ 15 ≤ n / 256 ^ k := hlow.resolve_left (by omega)
        calc m * 256 ^ j ≤ 2 ^ 23 * 256 ^ j := Nat.mul_le_mul_right _ hm.le
          _ = 2 ^ 15 * 256 ^ (j + 1) := by rw [Nat.pow_succ]; ring
          _ ≤ n / 256 ^ k * 256 ^ k := Nat.mul_le_mul hlow hpow
    exact_mod_cast hround

/-- Rounding keeps the order. -/
theorem compactToBig_bigToCompact_mono {n n' : ℤ} (hnonneg : 0 ≤ n) (hle : n ≤ n')
    (hlt : n' < compactBound) : compactToBig (bigToCompact n) ≤ compactToBig (bigToCompact n') := by
  have hlower := isGreatest_compactToBig_bigToCompact hnonneg (hle.trans_lt hlt)
  have hupper := isGreatest_compactToBig_bigToCompact (hnonneg.trans hle) hlt
  exact hupper.2 ⟨hlower.1.1, hlower.1.2.trans hle⟩

/-- The compact form of a rounded number is that of the number. -/
theorem bigToCompact_compactToBig_bigToCompact {n : ℤ} (hnonneg : 0 ≤ n) (hlt : n < compactBound) :
    bigToCompact (compactToBig (bigToCompact n)) = bigToCompact n := by
  lift n to ℕ using hnonneg
  obtain ⟨k, hvalue, hhigh, hlow⟩ := exists_compactToBig_eq (x := n) (by exact_mod_cast hlt)
  rw [hvalue]
  rcases Nat.eq_zero_or_pos k with rfl | hpos
  · rw [Nat.pow_zero, Nat.div_one, Nat.mul_one]
  · have hlow : 2 ^ 15 ≤ n / 256 ^ k := hlow.resolve_left (by omega)
    have hlarge : 2 ^ 23 ≤ n / 256 ^ k * 256 ^ k := by
      have hpow : 256 ^ 1 ≤ 256 ^ k := Nat.pow_le_pow_right (by decide) hpos
      exact (show 2 ^ 23 = 2 ^ 15 * 256 ^ 1 from rfl) ▸ Nat.mul_le_mul hlow hpow
    have hsame : n / 256 ^ k * 256 ^ k / 256 ^ k = n / 256 ^ k :=
      Nat.mul_div_cancel _ (Nat.pow_pos (by decide))
    obtain ⟨i, hi, hi', hcompact⟩ := exists_bigToCompact_eq
      (hlarge.trans (Nat.div_mul_le_self n (256 ^ k)))
    obtain ⟨j, hj, hj', hrounded⟩ := exists_bigToCompact_eq hlarge
    obtain rfl : i = k := exponent_unique hi hi' hlow hhigh
    obtain rfl : j = i := exponent_unique hj hj' (hsame.symm ▸ hlow) (hsame.symm ▸ hhigh)
    rw [hrounded, hcompact, hsame]

/-- What rounding takes away is less than the `2 ^ 15`-th part of what it leaves. -/
theorem lt_compactToBig_bigToCompact {n : ℤ} (hpos : 0 < n) (hlt : n < compactBound) :
    2 ^ 15 * (n - compactToBig (bigToCompact n)) < compactToBig (bigToCompact n) := by
  lift n to ℕ using hpos.le
  obtain ⟨k, hvalue, -, hlow⟩ := exists_compactToBig_eq (x := n) (by exact_mod_cast hlt)
  rw [hvalue]
  have hsplit := Nat.div_add_mod n (256 ^ k)
  have hrest : 2 ^ 15 * (n % 256 ^ k) < n / 256 ^ k * 256 ^ k := by
    rcases hlow with rfl | hlow
    · rw [Nat.pow_zero, Nat.mod_one, Nat.div_one, Nat.mul_one]
      exact_mod_cast hpos
    · calc 2 ^ 15 * (n % 256 ^ k) < 2 ^ 15 * 256 ^ k :=
            Nat.mul_lt_mul_of_pos_left (Nat.mod_lt _ (Nat.pow_pos (by decide))) (by decide)
        _ ≤ n / 256 ^ k * 256 ^ k := Nat.mul_le_mul_right _ hlow
  rw [Nat.mul_comm] at hsplit
  omega

/-- A positive target has a clear sign bit. -/
theorem sign_eq_zero {compact : UInt32} (h : 0 < compactToBig compact) :
    compact &&& 0x00800000 = 0 := by
  by_contra hsign
  rw [compactToBig, if_pos hsign] at h
  omega

theorem maxPowLimit_lt : maxPowLimit < compactBound := by
  rw [maxPowLimit, compactBound]
  norm_num

theorem compactToBig_bigToCompact_le {target : ℤ} (hnonneg : 0 ≤ target)
    (hle : target ≤ maxPowLimit) : compactToBig (bigToCompact target) ≤ target :=
  (isGreatest_compactToBig_bigToCompact hnonneg (hle.trans_lt maxPowLimit_lt)).1.2

/-- The compact form of a target rounds it down to the nearest number with a mantissa below
`2 ^ 23`: the order of targets is kept, a rounded target is rounded to itself and has the same
compact form, and less than the `2 ^ 15`-th part is lost. -/
theorem compact_rounds_down :
    (∀ n : ℤ, 0 ≤ n → n < 2 ^ 256 →
      IsGreatest {v : ℤ | (∃ m k : ℕ, m < 2 ^ 23 ∧ v = m * 256 ^ k) ∧ v ≤ n}
        (compactToBig (bigToCompact n))) ∧
    (∀ n n' : ℤ, 0 ≤ n → n ≤ n' → n' < 2 ^ 256 →
      compactToBig (bigToCompact n) ≤ compactToBig (bigToCompact n')) ∧
    (∀ n : ℤ, 0 ≤ n → n < 2 ^ 256 →
      compactToBig (bigToCompact (compactToBig (bigToCompact n))) =
        compactToBig (bigToCompact n)) ∧
    (∀ c : UInt32, (∃ n : ℤ, 0 ≤ n ∧ n < 2 ^ 256 ∧ bigToCompact n = c) →
      bigToCompact (compactToBig c) = c) ∧
    (∀ n : ℤ, 0 < n → n < 2 ^ 256 →
      2 ^ 15 * (n - compactToBig (bigToCompact n)) < compactToBig (bigToCompact n)) := by
  have hbound {n : ℤ} (h : n < 2 ^ 256) : n < compactBound := by
    have hmax := maxPowLimit_lt
    rw [maxPowLimit] at hmax
    omega
  refine ⟨fun n h0 h ↦ isGreatest_compactToBig_bigToCompact h0 (hbound h),
    fun n n' h0 hle h ↦ compactToBig_bigToCompact_mono h0 hle (hbound h), fun n h0 h ↦ ?_, ?_,
    fun n h0 h ↦ lt_compactToBig_bigToCompact h0 (hbound h)⟩
  · rw [bigToCompact_compactToBig_bigToCompact h0 (hbound h)]
  · rintro c ⟨n, h0, h, rfl⟩
    exact bigToCompact_compactToBig_bigToCompact h0 (hbound h)

theorem compact_rounds_down_middle : 0 < (2 ^ 255 + 1 : ℤ) ∧ (2 ^ 255 + 1 : ℤ) < 2 ^ 256 ∧
    2 ^ 15 * ((2 ^ 255 + 1 : ℤ) - compactToBig (bigToCompact (2 ^ 255 + 1))) <
      compactToBig (bigToCompact (2 ^ 255 + 1)) :=
  have hlt : (2 ^ 255 + 1 : ℤ) < 2 ^ 256 := by decide
  ⟨by decide, hlt, compact_rounds_down.2.2.2.2 _ (by decide) hlt⟩

end NevelCore
