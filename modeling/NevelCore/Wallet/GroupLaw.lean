import NevelCore.Wallet.Secp256k1

/-!
# The curve operations are the group law

The operations of `Secp256k1`, for any parameters whose field is of prime order, against the group
of the points of the curve. `coordsOf` gives the reduced coordinates of a point, two nil pointers
for the zero point, and `pointOf` the point of coordinates that passed `IsOnCurve`. On coordinates
of points, `Double` and `Add` return those of the sum (`yields_double`, `yields_add`). The only
operands that `Add` cannot take are two zero points, where it reads a nil pointer.

`ScalarMult` goes over the bits of a byte string from the highest on. One round doubles and may add
(`yields_scalarBit`), so the loops keep the multiple by the number that the bits so far stand for,
and everything that is returned on the way is a multiple by some positive number up to it
(`yields_scalarMult_loop`, `yields_scalarMult`).
-/

set_option autoImplicit false
set_option relaxedAutoImplicit false

namespace NevelCore.Wallet

open Foundations WeierstrassCurve

/-! ### Inverses -/

theorem modInverse_eq_some {g n : ℤ} (h : Int.gcd g n = 1) :
    modInverse g n = some (Int.gcdA g n % n) := if_pos h

/-- What `modInverse` finds is an inverse. -/
theorem mul_cast_gcdA {g : ℤ} {n : ℕ} (h : Int.gcd g n = 1) :
    (g : ZMod n) * ((Int.gcdA g n % n : ℤ) : ZMod n) = 1 := by
  have hbezout := Int.gcd_eq_gcd_ab g n
  rw [h] at hbezout
  have hcast := congrArg (Int.cast : ℤ → ZMod n) hbezout
  push_cast [ZMod.natCast_self] at hcast
  rw [ZMod.intCast_mod, ← Int.cast_mul]
  push_cast
  rw [hcast, zero_mul, add_zero]

theorem gcd_eq_one {p : ℕ} [Fact p.Prime] {d : ℤ} (hd : (d : ZMod p) ≠ 0) : Int.gcd d p = 1 := by
  have hndvd : ¬ p ∣ d.natAbs := fun h ↦
    hd ((ZMod.intCast_zmod_eq_zero_iff_dvd d p).mpr (Int.natCast_dvd.mpr h))
  exact ((Nat.Prime.coprime_iff_not_dvd Fact.out).mpr hndvd).symm

/-- In a prime field, the inverse as the operations take it. -/
theorem cast_modInverse {p : ℕ} [Fact p.Prime] {d : ℤ} (hd : (d : ZMod p) ≠ 0) :
    (((modInverse (d % p) p).getD (d % p) : ℤ) : ZMod p) = (d : ZMod p)⁻¹ := by
  have hcast : ((d % p : ℤ) : ZMod p) = d := ZMod.intCast_mod d p
  have hgcd : Int.gcd (d % p) p = 1 := gcd_eq_one (by rwa [hcast])
  rw [modInverse_eq_some hgcd, Option.getD_some, ← hcast]
  exact eq_inv_of_mul_eq_one_right (mul_cast_gcdA hgcd)

/-! ### Bits -/

/-- A bit of a byte as a number. -/
def bitOf (byteVal bitNum : UInt8) : ℕ := if byteVal &&& 1 <<< bitNum ≠ 0 then 1 else 0

/-- The bits from the highest on make up the byte. -/
theorem foldl_bitOf (m : ℕ) (byteVal : UInt8) :
    [7, 6, 5, 4, 3, 2, 1, 0].foldl (fun m bitNum ↦ 2 * m + bitOf byteVal bitNum) m =
      256 * m + byteVal.toNat := by
  have hbyte : [7, 6, 5, 4, 3, 2, 1, 0].foldl (fun m bitNum ↦ 2 * m + bitOf byteVal bitNum) 0 =
      byteVal.toNat := of_table byteVal byteVal.toNat_lt (by decide +kernel)
  simp only [List.foldl] at hbyte ⊢
  omega

namespace CurveParams

variable (c : CurveParams)

/-- The points of the curve. -/
abbrev Point : Type := (shortCurve c.P c.B).toAffine.Point

variable {c}

/-- The coordinates of a point, reduced. -/
def coordsOf : c.Point → Coords
  | .zero => ⟨none, none⟩
  | .some x y _ => ⟨some x.val, some y.val⟩

@[simp] theorem coordsOf_x_eq_none {q : c.Point} : (coordsOf q).x = none ↔ q = 0 := by
  cases q with
  | zero => exact iff_of_true rfl rfl
  | some x y h => exact iff_of_false (Option.some_ne_none _) (Affine.Point.some_ne_zero h)

theorem yields_give {r : Coords} {noted : Coords → Prop} (h : noted r) :
    Yields (give r) r noted :=
  (yields_takeNote h).bind (yields_pure r noted)

variable [Fact c.P.Prime]

theorem coordsOf_injective : Function.Injective (coordsOf (c := c)) := by
  intro first second h
  cases first with
  | zero =>
    cases second with
    | zero => rfl
    | some x' y' h' => cases h
  | some x y hxy =>
    cases second with
    | zero => cases h
    | some x' y' hxy' =>
      simp only [coordsOf, Coords.mk.injEq, Option.some.injEq, Nat.cast_inj] at h
      rw [Affine.Point.some.injEq]
      exact ⟨ZMod.val_injective _ h.1, ZMod.val_injective _ h.2⟩

theorem coordsOf_some {x y : ZMod c.P} (h : (shortCurve c.P c.B).toAffine.Nonsingular x y)
    {x' y' : ℤ} (hx : (x' : ZMod c.P) = x) (hy : (y' : ZMod c.P) = y) :
    coordsOf (c := c) (.some x y h) = ⟨some (x' % c.P), some (y' % c.P)⟩ := by
  subst hx hy
  simp only [coordsOf, ZMod.val_intCast]

theorem cast_val (x : ZMod c.P) : ((x.val : ℤ) : ZMod c.P) = x := by
  rw [Int.cast_natCast, ZMod.natCast_zmod_val]

/-! ### Points from coordinates -/

theorem isOnCurve_iff {x y : ℤ} : c.isOnCurve ⟨some x, some y⟩ = true ↔
    (0 ≤ x ∧ x < c.P) ∧ (0 ≤ y ∧ y < c.P) ∧ (shortCurve c.P c.B).toAffine.Equation x y := by
  have hequation : y * y % c.P = (x * x * x + c.B) % c.P ↔
      (shortCurve c.P c.B).toAffine.Equation x y := by
    rw [equation_shortCurve, ← ZMod.intCast_eq_intCast_iff']
    push_cast
    rw [pow_two, pow_three']
  simp only [isOnCurve, Bool.and_eq_true, decide_eq_true_eq, hequation]
  tauto

variable (hΔ : (shortCurve c.P c.B).Δ ≠ 0)

/-- The point of coordinates that passed `IsOnCurve`. -/
def pointOf {x y : ℤ} (h : c.isOnCurve ⟨some x, some y⟩ = true) : c.Point :=
  .some (x : ZMod c.P) y
    ((Affine.equation_iff_nonsingular_of_Δ_ne_zero hΔ).mp (isOnCurve_iff.mp h).2.2)

theorem coordsOf_pointOf {x y : ℤ} (h : c.isOnCurve ⟨some x, some y⟩ = true) :
    coordsOf (pointOf hΔ h) = ⟨some x, some y⟩ := by
  obtain ⟨⟨hx, hx'⟩, ⟨hy, hy'⟩, _⟩ := isOnCurve_iff.mp h
  rw [pointOf, coordsOf_some _ rfl rfl, Int.emod_eq_of_lt hx hx', Int.emod_eq_of_lt hy hy']

theorem pointOf_ne_zero {x y : ℤ} (h : c.isOnCurve ⟨some x, some y⟩ = true) :
    pointOf hΔ h ≠ 0 :=
  Affine.Point.some_ne_zero _

/-! ### Sums -/

/-- The last lines of `Add` and `Double`, from the slope on. -/
theorem coordsOf_sum {x1 y1 x2 slope : ZMod c.P} {lambda : ℤ}
    (hslope : (lambda : ZMod c.P) = slope)
    (h : (shortCurve c.P c.B).toAffine.Nonsingular
      ((shortCurve c.P c.B).toAffine.addX x1 x2 slope)
      ((shortCurve c.P c.B).toAffine.addY x1 x2 y1 slope)) :
    coordsOf (c := c) (.some _ _ h) =
      ⟨some ((lambda * lambda - x1.val - x2.val) % c.P),
        some ((lambda * (x1.val - (lambda * lambda - x1.val - x2.val) % c.P) - y1.val) % c.P)⟩ := by
  refine coordsOf_some h ?_ ?_
  · rw [← hslope, Affine.addX]
    simp only [Int.cast_sub, Int.cast_mul, cast_val, shortCurve]
    ring
  · rw [Affine.addY, negY_shortCurve, Affine.negAddY, ← hslope, Affine.addX]
    simp only [Int.cast_sub, Int.cast_mul, ZMod.intCast_mod, cast_val, shortCurve]
    ring

theorem val_eq_zero_iff (x : ZMod c.P) : (x.val : ℤ) = 0 ↔ x = 0 := by
  rw [Int.natCast_eq_zero, ZMod.val_eq_zero]

theorem yields_double (htwo : (2 : ZMod c.P) ≠ 0) (q : c.Point) :
    Yields (c.double (coordsOf q)) (coordsOf (q + q)) fun r ↦ r = coordsOf (q + q) := by
  cases q with
  | zero =>
    rw [← Affine.Point.zero_def, add_zero]
    exact yields_give rfl
  | some x y h =>
    by_cases hy : y = 0
    · have hself : y = (shortCurve c.P c.B).toAffine.negY x y := by
        rw [negY_shortCurve, hy, neg_zero]
      rw [Affine.Point.add_self_of_Y_eq hself]
      simp only [coordsOf, double, if_pos ((val_eq_zero_iff y).mpr hy)]
      exact yields_give rfl
    · have hdouble : (2 : ZMod c.P) * y ≠ 0 := mul_ne_zero htwo hy
      have hne : y ≠ (shortCurve c.P c.B).toAffine.negY x y := by
        rw [negY_shortCurve, ne_eq, eq_neg_iff_add_eq_zero, ← two_mul]
        exact hdouble
      have hslope : ((3 * (x.val * x.val) *
          (modInverse (2 * y.val % c.P) c.P).getD (2 * y.val % c.P) % c.P : ℤ) : ZMod c.P) =
          (shortCurve c.P c.B).toAffine.slope x x y y := by
        have hcast : ((2 * y.val : ℤ) : ZMod c.P) = 2 * y := by
          rw [Int.cast_mul, cast_val, Int.cast_ofNat]
        rw [ZMod.intCast_mod, Int.cast_mul, cast_modInverse (by rwa [hcast]), hcast,
          Affine.slope_of_Y_ne rfl hne, negY_shortCurve]
        simp only [Int.cast_mul, Int.cast_ofNat, cast_val, shortCurve]
        ring
      have hsum := coordsOf_sum hslope (Affine.nonsingular_add h h fun hxy ↦ hne hxy.right)
      rw [Affine.Point.add_self_of_Y_ne hne, hsum]
      simp only [coordsOf, double, if_neg (mt (val_eq_zero_iff y).mp hy)]
      rw [two_mul (x.val : ℤ), ← sub_sub]
      exact yields_give rfl

theorem val_inj {x1 x2 : ZMod c.P} : (x1.val : ℤ) = x2.val ↔ x1 = x2 := by
  rw [Int.natCast_inj, (ZMod.val_injective c.P).eq_iff]

/-- `Add` of two points over one first coordinate. -/
theorem yields_add_of_X_eq (htwo : (2 : ZMod c.P) ≠ 0) {x y1 y2 : ZMod c.P}
    (h1 : (shortCurve c.P c.B).toAffine.Nonsingular x y1)
    (h2 : (shortCurve c.P c.B).toAffine.Nonsingular x y2) {sum : c.Point}
    (hsum : Affine.Point.some x y1 h1 + .some x y2 h2 = sum) :
    Yields (c.add ⟨some x.val, some y1.val⟩ ⟨some x.val, some y2.val⟩) (coordsOf sum)
      fun r ↦ r = coordsOf sum := by
  have hiff : ((y1.val + y2.val : ℤ) % c.P = 0) ↔
      y1 = (shortCurve c.P c.B).toAffine.negY x y2 := by
    rw [negY_shortCurve, eq_neg_iff_add_eq_zero, ← Int.dvd_iff_emod_eq_zero,
      ← ZMod.intCast_zmod_eq_zero_iff_dvd, Int.cast_add, cast_val, cast_val]
  by_cases hy : y1 = (shortCurve c.P c.B).toAffine.negY x y2
  · obtain rfl : sum = 0 := by rw [← hsum, Affine.Point.add_of_Y_eq rfl hy]
    rw [add, if_pos rfl, if_pos (hiff.mpr hy)]
    exact yields_give rfl
  · obtain rfl : y1 = y2 := Affine.Y_eq_of_Y_ne h1.1 h2.1 rfl hy
    subst hsum
    rw [add, if_pos rfl, if_neg (mt hiff.mp hy)]
    exact (yields_double htwo (.some x y1 h1)).bind (yields_give rfl)

/-- `Add` of two points over different first coordinates. -/
theorem yields_add_of_X_ne {x1 x2 y1 y2 : ZMod c.P}
    (h1 : (shortCurve c.P c.B).toAffine.Nonsingular x1 y1)
    (h2 : (shortCurve c.P c.B).toAffine.Nonsingular x2 y2) (hx : x1 ≠ x2) {sum : c.Point}
    (hsum : Affine.Point.some x1 y1 h1 + .some x2 y2 h2 = sum) :
    Yields (c.add ⟨some x1.val, some y1.val⟩ ⟨some x2.val, some y2.val⟩) (coordsOf sum)
      fun r ↦ r = coordsOf sum := by
  have hslope : (((y2.val - y1.val) *
      (modInverse ((x2.val - x1.val) % c.P) c.P).getD ((x2.val - x1.val) % c.P) % c.P : ℤ) :
        ZMod c.P) = (shortCurve c.P c.B).toAffine.slope x1 x2 y1 y2 := by
    have hcast : ((x2.val - x1.val : ℤ) : ZMod c.P) = x2 - x1 := by
      rw [Int.cast_sub, cast_val, cast_val]
    have hne : x2 - x1 ≠ 0 := sub_ne_zero.mpr hx.symm
    rw [ZMod.intCast_mod, Int.cast_mul, cast_modInverse (by rwa [hcast]), hcast,
      Affine.slope_of_X_ne hx, Int.cast_sub, cast_val, cast_val, ← div_eq_mul_inv,
      ← neg_div_neg_eq, neg_sub, neg_sub]
  have hcoords := coordsOf_sum hslope (Affine.nonsingular_add h1 h2 fun hxy ↦ hx hxy.left)
  rw [← hsum, Affine.Point.add_of_X_ne hx, hcoords]
  simp only [add, if_neg (mt val_inj.mp hx)]
  exact yields_give rfl

/-- `Add` is the sum in the group, unless both points are zero. -/
theorem yields_add (htwo : (2 : ZMod c.P) ≠ 0) {first second : c.Point}
    (h : first ≠ 0 ∨ second ≠ 0) :
    Yields (c.add (coordsOf first) (coordsOf second)) (coordsOf (first + second))
      fun r ↦ r = coordsOf (first + second) := by
  cases first with
  | zero =>
    cases second with
    | zero => exact h.elim (absurd rfl) (absurd rfl)
    | some x y hxy =>
      rw [← Affine.Point.zero_def, zero_add]
      exact yields_give rfl
  | some x1 y1 h1 =>
    cases second with
    | zero =>
      rw [← Affine.Point.zero_def, add_zero]
      exact yields_give rfl
    | some x2 y2 h2 =>
      by_cases hx : x1 = x2
      · subst hx
        exact yields_add_of_X_eq htwo h1 h2 rfl
      · exact yields_add_of_X_ne h1 h2 hx rfl

/-! ### Multiples -/

/-- The coordinates of a multiple by a positive number up to the bound. -/
def IsMultiple (q : c.Point) (bound : ℕ) (r : Coords) : Prop :=
  ∃ j, 0 < j ∧ j ≤ bound ∧ r = coordsOf (j • q)

theorem IsMultiple.mono {q : c.Point} {bound bound' : ℕ} (hle : bound ≤ bound') {r : Coords}
    (h : IsMultiple q bound r) : IsMultiple q bound' r := by
  obtain ⟨j, hpos, hj, hr⟩ := h
  exact ⟨j, hpos, hj.trans hle, hr⟩

theorem yields_scalarBit_double (htwo : (2 : ZMod c.P) ≠ 0) (q : c.Point) (m : ℕ) :
    Yields (if (coordsOf (m • q)).x ≠ none then c.double (coordsOf (m • q))
      else pure (coordsOf (m • q))) (coordsOf ((2 * m) • q)) (IsMultiple q (2 * m)) := by
  have hdouble : (2 * m) • q = m • q + m • q := by rw [two_mul, add_nsmul]
  by_cases hm : m • q = 0
  · rw [if_neg (not_not.mpr (coordsOf_x_eq_none.mpr hm)), hdouble, hm, add_zero]
    exact yields_pure _ _
  · rw [if_pos (mt coordsOf_x_eq_none.mp hm)]
    have hpos : m ≠ 0 := by
      rintro rfl
      exact hm (zero_nsmul q)
    rw [hdouble]
    refine (yields_double htwo (m • q)).mono fun r hr ↦ ?_
    exact ⟨2 * m, by omega, le_rfl, by rw [hr, hdouble]⟩

theorem yields_scalarBit (htwo : (2 : ZMod c.P) ≠ 0) {q : c.Point} (hq : q ≠ 0)
    (byteVal : UInt8) (m : ℕ) (bitNum : UInt8) :
    Yields (c.scalarBit (coordsOf q) byteVal (coordsOf (m • q)) bitNum)
      (coordsOf ((2 * m + bitOf byteVal bitNum) • q))
      (IsMultiple q (2 * m + bitOf byteVal bitNum)) := by
  have hfirst := yields_scalarBit_double htwo q m
  by_cases hbit : byteVal &&& 1 <<< bitNum ≠ 0
  · have hsum : (2 * m + 1) • q = (2 * m) • q + q := succ_nsmul q (2 * m)
    simp only [scalarBit, bitOf, if_pos hbit]
    refine (hfirst.mono fun r hr ↦ hr.mono (Nat.le_succ _)).bind ?_
    rw [hsum]
    refine (yields_add htwo (.inr hq)).mono fun r hr ↦ ?_
    exact ⟨2 * m + 1, by omega, le_rfl, by rw [hr, hsum]⟩
  · simp only [scalarBit, bitOf, if_neg hbit]
    exact hfirst.bind (yields_pure _ _)

theorem yields_scalarByte (htwo : (2 : ZMod c.P) ≠ 0) {q : c.Point} (hq : q ≠ 0) (m : ℕ)
    (byteVal : UInt8) :
    Yields (c.scalarByte (coordsOf q) (coordsOf (m • q)) byteVal)
      (coordsOf ((256 * m + byteVal.toNat) • q)) (IsMultiple q (256 * m + byteVal.toNat)) := by
  rw [← foldl_bitOf]
  exact yields_foldlM (fun m ↦ coordsOf (m • q)) (IsMultiple q)
    (fun m bitNum r ↦ IsMultiple.mono (by omega)) (yields_scalarBit htwo hq byteVal) _ m

/-- The loops of `ScalarMult`: the result is the multiple by the number that the bytes stand for,
and so is everything returned on the way, by smaller numbers. -/
theorem yields_scalarMult_loop (htwo : (2 : ZMod c.P) ≠ 0) {q : c.Point} (hq : q ≠ 0)
    (k : List UInt8) :
    Yields (k.foldlM (c.scalarByte (coordsOf q)) ⟨none, none⟩) (coordsOf (beValue k • q))
      (IsMultiple q (beValue k)) := by
  have hloop := yields_foldlM (fun m ↦ coordsOf (m • q)) (IsMultiple q)
    (fun m byteVal r ↦ IsMultiple.mono (by omega)) (yields_scalarByte htwo hq) k 0
  rwa [zero_nsmul] at hloop

/-- `ScalarMult` is the multiple in the group, by the number that the bytes stand for. -/
theorem yields_scalarMult (htwo : (2 : ZMod c.P) ≠ 0) {q : c.Point} (hq : q ≠ 0)
    (k : List UInt8) :
    Yields (c.scalarMult (coordsOf q) k) (coordsOf (beValue k • q))
      fun r ↦ IsMultiple q (beValue k) r ∨ r = coordsOf (beValue k • q) :=
  ((yields_scalarMult_loop htwo hq k).mono fun _ ↦ .inl).bind (yields_give (.inr rfl))

/-- Neither coordinate is nil. -/
def Complete (r : Coords) : Prop := r.x ≠ none ∧ r.y ≠ none

end CurveParams

end NevelCore.Wallet
