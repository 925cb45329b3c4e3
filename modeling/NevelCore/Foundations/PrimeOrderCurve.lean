import Mathlib.AlgebraicGeometry.EllipticCurve.Jacobian.Point
import Mathlib.FieldTheory.Finite.Basic
import Mathlib.GroupTheory.Perm.Cycle.Type
import Mathlib.Algebra.Field.ZMod

/-!
# Curves of prime order

The points of a Weierstrass curve over a finite field, when all of them but the zero point have the
same prime order. Counting points exactly is not needed for that. Two points with one first
coordinate are equal or opposite, so there are at most twice as many points as the field has
elements, and one more (`card_point_le`). If a point has prime order, no point has order two, and
the bound is below three times the prime, the group has exactly that prime order, and so has every
point other than zero (`addOrderOf_eq_of_card_lt`).

That a given point has a given order is a computation. `multiple` carries it out in Jacobian
coordinates, which need no division, on the curve `y² = x³ + b` over the integers modulo a prime.
What it returns are coordinates of the multiple (`represents_multiple`), and `annihilates` compares
those of the multiple by one less with the opposite point (`nsmul_eq_zero_of_annihilates`).
-/

set_option autoImplicit false
set_option relaxedAutoImplicit false

namespace NevelCore.Foundations

open WeierstrassCurve

/-! ### Counting points -/

section Counting

variable {K : Type} [Field K] (W : Affine K)

/-- One of the solutions over a first coordinate, if there are any. -/
noncomputable def chosenY (x : K) : K :=
  open Classical in if h : ∃ y, W.Equation x y then h.choose else 0

theorem equation_chosenY {x y : K} (h : W.Equation x y) : W.Equation x (chosenY W x) := by
  have hexists : ∃ y, W.Equation x y := ⟨y, h⟩
  rw [chosenY, dif_pos hexists]
  exact hexists.choose_spec

/-- A point as its first coordinate, and whether the second one is the one chosen. -/
noncomputable def pointLabel [DecidableEq K] : W.Point → Option (K × Bool)
  | .zero => none
  | .some x y _ => some (x, decide (y = chosenY W x))

theorem pointLabel_injective [DecidableEq K] : Function.Injective (pointLabel W) := by
  intro first second h
  cases first with
  | zero =>
    cases second with
    | zero => rfl
    | some x' y' h' => cases h
  | some x y hxy =>
    cases second with
    | zero => cases h
    | some x' y' hxy' =>
      obtain ⟨rfl, hsame⟩ := Prod.mk.inj (Option.some.inj h)
      have hchosen := equation_chosenY W hxy.1
      have hiff : y = chosenY W x ↔ y' = chosenY W x := decide_eq_decide.mp hsame
      rw [Affine.Point.some.injEq]
      refine ⟨rfl, ?_⟩
      -- a solution other than the one chosen is its opposite
      obtain hy | hy := Affine.Y_eq_of_X_eq hxy.1 hchosen rfl
      · rw [hy, hiff.mp hy]
      · obtain hy' | hy' := Affine.Y_eq_of_X_eq hxy'.1 hchosen rfl
        · rw [hy', hiff.mpr hy']
        · rw [hy, hy']

variable [Fintype K] [DecidableEq K]

theorem finite_point : Finite W.Point := Finite.of_injective _ (pointLabel_injective W)

theorem card_point_le : Nat.card W.Point ≤ 2 * Fintype.card K + 1 := by
  have hle := Nat.card_le_card_of_injective _ (pointLabel_injective W)
  have hcard : Nat.card (Option (K × Bool)) = 2 * Fintype.card K + 1 := by
    rw [Nat.card_eq_fintype_card, Fintype.card_option, Fintype.card_prod, Fintype.card_bool,
      Nat.mul_comm]
  rwa [hcard] at hle

end Counting

/-- A finite group without elements of order two, that has an element of prime order and is less
than three times as large, has no other orders. -/
theorem addOrderOf_eq_of_card_lt {A : Type} [AddCommGroup A] [Finite A] {N : ℕ} (hN : N.Prime)
    {g : A} (hg : g ≠ 0) (hNg : N • g = 0) (htwo : ∀ a : A, 2 • a = 0 → a = 0)
    (hcard : Nat.card A < 3 * N) {a : A} (ha : a ≠ 0) : addOrderOf a = N := by
  have hfact : Fact N.Prime := ⟨hN⟩
  have hdvd : N ∣ Nat.card A := by
    rw [← addOrderOf_eq_prime hNg hg]
    exact addOrderOf_dvd_natCard g
  obtain ⟨k, hk⟩ := hdvd
  have hpos : 0 < Nat.card A := Nat.card_pos
  have hk3 : k < 3 := by
    rw [hk, Nat.mul_comm] at hcard
    exact lt_of_mul_lt_mul_right hcard (Nat.zero_le N)
  have hk0 : k ≠ 0 := by
    rintro rfl
    omega
  have hk2 : k ≠ 2 := by
    rintro rfl
    have heven : 2 ∣ Nat.card A := ⟨N, by rw [hk, Nat.mul_comm]⟩
    obtain ⟨b, hb⟩ := exists_prime_addOrderOf_dvd_card' 2 heven
    have hzero : b = 0 := htwo b (by rw [← hb, addOrderOf_nsmul_eq_zero])
    rw [hzero, addOrderOf_zero] at hb
    omega
  obtain rfl : k = 1 := by omega
  have hNa : N • a = 0 := by
    rw [← Nat.mul_one N, ← hk]
    exact card_nsmul_eq_zero'
  exact addOrderOf_eq_prime hNa ha

/-! ### Short curves -/

/-- The curve `y² = x³ + b` over the integers modulo `p`. -/
def shortCurve (p b : ℕ) : WeierstrassCurve (ZMod p) where
  a₁ := 0
  a₂ := 0
  a₃ := 0
  a₄ := 0
  a₆ := b

section ShortCurve

variable {p b : ℕ}

theorem negY_shortCurve (x y : ZMod p) : (shortCurve p b).toAffine.negY x y = -y := by
  simp [Affine.negY, shortCurve]

theorem equation_shortCurve {x y : ZMod p} :
    (shortCurve p b).toAffine.Equation x y ↔ y ^ 2 = x ^ 3 + b := by
  simp [Affine.equation_iff, shortCurve]

theorem Δ_shortCurve : (shortCurve p b).Δ = -432 * (b : ZMod p) ^ 2 := by
  simp only [WeierstrassCurve.Δ, WeierstrassCurve.b₂, WeierstrassCurve.b₄, WeierstrassCurve.b₆,
    WeierstrassCurve.b₈, shortCurve]
  ring

variable [Fact p.Prime]

/-- A number is no power if raising it to the quotient of the exponents does not give one. -/
theorem pow_ne_of_pow_ne_one {a : ZMod p} (ha : a ≠ 0) {n : ℕ} (hn : n ∣ p - 1)
    (hpow : a ^ ((p - 1) / n) ≠ 1) (x : ZMod p) : x ^ n ≠ a := by
  rintro rfl
  have hx : x ≠ 0 := by
    rintro rfl
    obtain rfl | hpos := Nat.eq_zero_or_pos n
    · exact hpow (by rw [pow_zero, one_pow])
    · exact ha (zero_pow hpos.ne')
  refine hpow ?_
  rw [← pow_mul, Nat.mul_div_cancel' hn, ZMod.pow_card_sub_one_eq_one hx]

/-- Where `x³ + b` has no root, no point has order two. -/
theorem eq_zero_of_two_nsmul (htwo : (2 : ZMod p) ≠ 0) (hroot : ∀ x : ZMod p, x ^ 3 + b ≠ 0)
    (q : (shortCurve p b).toAffine.Point) (hq : 2 • q = 0) : q = 0 := by
  cases q with
  | zero => rfl
  | some x y h =>
    rw [two_nsmul] at hq
    have hy : y = (shortCurve p b).toAffine.negY x y := by
      by_contra hne
      rw [Affine.Point.add_self_of_Y_ne hne] at hq
      exact Affine.Point.some_ne_zero _ hq
    rw [negY_shortCurve, eq_neg_iff_add_eq_zero, ← two_mul] at hy
    have hzero : y = 0 := (mul_eq_zero.mp hy).resolve_left htwo
    have hequation := equation_shortCurve.mp h.1
    rw [hzero, zero_pow two_ne_zero] at hequation
    exact absurd hequation.symm (hroot x)

/-- All points other than zero have one prime order. -/
theorem addOrderOf_shortCurve (htwo : (2 : ZMod p) ≠ 0) (hroot : ∀ x : ZMod p, x ^ 3 + b ≠ 0)
    {N : ℕ} (hN : N.Prime) (hbound : 2 * p + 1 < 3 * N) {g : (shortCurve p b).toAffine.Point}
    (hg : g ≠ 0) (hNg : N • g = 0) {q : (shortCurve p b).toAffine.Point} (hq : q ≠ 0) :
    addOrderOf q = N := by
  have hfinite : Finite (shortCurve p b).toAffine.Point := finite_point _
  have hcard : Nat.card (shortCurve p b).toAffine.Point ≤ 2 * p + 1 := by
    have hle := card_point_le (shortCurve p b).toAffine
    rwa [ZMod.card] at hle
  exact addOrderOf_eq_of_card_lt hN hg hNg (eq_zero_of_two_nsmul htwo hroot)
    (hcard.trans_lt hbound) hq

end ShortCurve

/-! ### Multiples in Jacobian coordinates -/

/-- Jacobian coordinates, read modulo a prime. -/
structure Triple where
  x : ℤ
  y : ℤ
  z : ℤ

namespace Triple

/-- Twice a point. -/
def double (p : ℕ) (t : Triple) : Triple :=
  let u := 3 * t.x * t.x % p
  let v := 2 * t.y
  let w := t.x * v * v % p
  let x := (u * u - 2 * w) % p
  ⟨x, (u * (w - x) - t.y * v * v * v) % p, t.z * v % p⟩

/-- The sum with the point of affine coordinates `gx` and `gy`, on the curve `y² = x³ + b`. -/
def addAffine (p b : ℕ) (gx gy : ℤ) (t : Triple) : Triple :=
  let z2 := t.z * t.z % p
  let z3 := z2 * t.z % p
  ⟨(t.x * gx * gx * z2 - 2 * t.y * gy * t.z + t.x * t.x * gx + 2 * b * z2 * z2) % p,
    (t.y * gx * gx * gx * z3 - 2 * t.y * gy * gy * z3 + 3 * t.x * t.x * gx * gy * z2 -
      3 * t.x * t.y * gx * gx * t.z - t.x * t.x * t.x * gy + 2 * t.y * t.y * gy +
      2 * b * gy * z3 * z3 - 2 * b * t.y * z3) % p,
    (t.x - gx * z2) % p⟩

/-- The multiple of the point of affine coordinates `gx` and `gy` by a positive number of at most
so many bits. The result is `none` if a sum of two points with one first coordinate was met. -/
def multiple (p b : ℕ) (gx gy : ℤ) : ℕ → ℕ → Option Triple
  | 0, _ => some ⟨gx, gy, 1⟩
  | bits + 1, n =>
    if n ≤ 1 then some ⟨gx, gy, 1⟩
    else do
      let half ← multiple p b gx gy bits (n / 2)
      let t := half.double p
      if n % 2 = 0 then some t
      else
        let sum := t.addAffine p b gx gy
        if sum.z = 0 then none else some sum

/-- The multiple by `n - 1` is the opposite point. -/
def annihilates (p b : ℕ) (gx gy : ℤ) (bits n : ℕ) : Bool :=
  match multiple p b gx gy bits (n - 1) with
  | none => false
  | some t => t.z % p ≠ 0 && (t.x - gx * t.z ^ 2) % p = 0 && (t.y + gy * t.z ^ 3) % p = 0

/-- The coordinates in the field. -/
def toField (p : ℕ) (t : Triple) : Fin 3 → ZMod p := ![(t.x : ZMod p), t.y, t.z]

variable {p b : ℕ} {gx gy : ℤ}

@[simp] theorem toField_x (t : Triple) : t.toField p 0 = (t.x : ZMod p) := rfl

@[simp] theorem toField_y (t : Triple) : t.toField p 1 = (t.y : ZMod p) := rfl

@[simp] theorem toField_z (t : Triple) : t.toField p 2 = (t.z : ZMod p) := rfl

theorem toField_double (b : ℕ) (t : Triple) :
    (t.double p).toField p = (shortCurve p b).toJacobian.dblXYZ (t.toField p) := by
  have hx : ((t.double p).x : ZMod p) = (shortCurve p b).toJacobian.dblX (t.toField p) := by
    simp only [double, Jacobian.dblX, Jacobian.dblU_eq, Jacobian.negY, toField_x, toField_y,
      toField_z, shortCurve]
    push_cast [ZMod.intCast_mod]
    ring
  have hy : ((t.double p).y : ZMod p) = (shortCurve p b).toJacobian.dblY (t.toField p) := by
    rw [Jacobian.dblY, Jacobian.negY_eq, Jacobian.negDblY, ← hx]
    simp only [double, Jacobian.dblU_eq, Jacobian.negY, toField_x, toField_y, toField_z,
      shortCurve]
    push_cast [ZMod.intCast_mod]
    ring
  have hz : ((t.double p).z : ZMod p) = (shortCurve p b).toJacobian.dblZ (t.toField p) := by
    simp only [double, Jacobian.dblZ, Jacobian.negY, toField_x, toField_y, toField_z, shortCurve]
    push_cast [ZMod.intCast_mod]
    ring
  rw [Jacobian.dblXYZ, ← hx, ← hy, ← hz]
  rfl

theorem cast_addAffine_z (b : ℕ) (gx gy : ℤ) (t : Triple) :
    ((t.addAffine p b gx gy).z : ZMod p) =
      Jacobian.addZ (t.toField p) (toField p ⟨gx, gy, 1⟩) := by
  simp only [addAffine, Jacobian.addZ, toField_x, toField_z]
  push_cast [ZMod.intCast_mod]
  ring

theorem toField_addAffine (t : Triple) :
    (t.addAffine p b gx gy).toField p =
      (shortCurve p b).toJacobian.addXYZ (t.toField p) (toField p ⟨gx, gy, 1⟩) := by
  have hx : ((t.addAffine p b gx gy).x : ZMod p) =
      (shortCurve p b).toJacobian.addX (t.toField p) (toField p ⟨gx, gy, 1⟩) := by
    simp only [addAffine, Jacobian.addX, toField_x, toField_y, toField_z, shortCurve]
    push_cast [ZMod.intCast_mod]
    ring
  have hy : ((t.addAffine p b gx gy).y : ZMod p) =
      (shortCurve p b).toJacobian.addY (t.toField p) (toField p ⟨gx, gy, 1⟩) := by
    rw [Jacobian.addY, Jacobian.negY_eq]
    simp only [addAffine, Jacobian.negAddY, toField_x, toField_y, toField_z, shortCurve]
    push_cast [ZMod.intCast_mod]
    ring
  rw [Jacobian.addXYZ, ← hx, ← hy, ← cast_addAffine_z]
  rfl

variable [Fact p.Prime]

/-- The triple holds coordinates of the point. -/
structure Represents (t : Triple) (q : (shortCurve p b).toAffine.Point) : Prop where
  nonsingular : (shortCurve p b).toJacobian.Nonsingular (t.toField p)
  toAffine_eq : Jacobian.Point.toAffine (shortCurve p b).toJacobian (t.toField p) = q

theorem toField_affine (gx gy : ℤ) : toField p ⟨gx, gy, 1⟩ = ![(gx : ZMod p), gy, 1] := by
  rw [toField, Int.cast_one]

theorem represents_affine (h : (shortCurve p b).toAffine.Nonsingular gx gy) :
    Represents ⟨gx, gy, 1⟩ (Affine.Point.some (gx : ZMod p) gy h) := by
  have hnonsingular : (shortCurve p b).toJacobian.Nonsingular ![(gx : ZMod p), gy, 1] :=
    (Jacobian.nonsingular_some _ _).mpr h
  refine ⟨?_, ?_⟩
  · rw [toField_affine]
    exact hnonsingular
  · rw [toField_affine, Jacobian.Point.toAffine_some hnonsingular]

variable {q : (shortCurve p b).toAffine.Point} {t : Triple}

theorem Represents.double (ht : Represents t q) : Represents (t.double p) (q + q) := by
  have hself : (shortCurve p b).toJacobian.add (t.toField p) (t.toField p) =
      (shortCurve p b).toJacobian.dblXYZ (t.toField p) := Jacobian.add_self _
  refine ⟨?_, ?_⟩
  · rw [toField_double b, ← hself]
    exact Jacobian.nonsingular_add ht.nonsingular ht.nonsingular
  · rw [toField_double b, ← hself, Jacobian.Point.toAffine_add ht.nonsingular ht.nonsingular,
      ht.toAffine_eq]

theorem addZ_ne_zero (hz : (t.addAffine p b gx gy).z ≠ 0) :
    Jacobian.addZ (t.toField p) (toField p ⟨gx, gy, 1⟩) ≠ 0 := by
  intro hzero
  have hcast : ((t.addAffine p b gx gy).z : ZMod p) = 0 := by
    rw [cast_addAffine_z, hzero]
  have hdvd := (ZMod.intCast_zmod_eq_zero_iff_dvd _ p).mp hcast
  have hreduced : (t.addAffine p b gx gy).z % p = (t.addAffine p b gx gy).z := Int.emod_emod _ _
  exact hz (hreduced ▸ Int.emod_eq_zero_of_dvd hdvd)

theorem Represents.addAffine (ht : Represents t q)
    (h : (shortCurve p b).toAffine.Nonsingular gx gy) (hz : (t.addAffine p b gx gy).z ≠ 0) :
    Represents (t.addAffine p b gx gy) (q + Affine.Point.some (gx : ZMod p) gy h) := by
  have hg := represents_affine h
  have hsum : (shortCurve p b).toJacobian.add (t.toField p) (toField p ⟨gx, gy, 1⟩) =
      (shortCurve p b).toJacobian.addXYZ (t.toField p) (toField p ⟨gx, gy, 1⟩) :=
    Jacobian.add_of_not_equiv
      (Jacobian.not_equiv_of_X_ne fun hx ↦ addZ_ne_zero hz (Jacobian.addZ_of_X_eq hx))
  refine ⟨?_, ?_⟩
  · rw [toField_addAffine, ← hsum]
    exact Jacobian.nonsingular_add ht.nonsingular hg.nonsingular
  · rw [toField_addAffine, ← hsum,
      Jacobian.Point.toAffine_add ht.nonsingular hg.nonsingular, ht.toAffine_eq, hg.toAffine_eq]

theorem represents_multiple (h : (shortCurve p b).toAffine.Nonsingular gx gy) {bits n : ℕ}
    (hpos : 0 < n) (hbits : n < 2 ^ bits) (ht : multiple p b gx gy bits n = some t) :
    Represents t (n • Affine.Point.some (gx : ZMod p) gy h) := by
  induction bits generalizing n t with
  | zero => omega
  | succ bits ih =>
    rw [multiple] at ht
    split at ht
    · obtain rfl : n = 1 := by omega
      obtain rfl := Option.some.inj ht
      rw [one_nsmul]
      exact represents_affine h
    · obtain ⟨half, hhalf, ht⟩ := Option.bind_eq_some_iff.mp ht
      have hdouble := (ih (by omega) (by omega) hhalf).double
      rw [← add_nsmul] at hdouble
      split at ht
      · obtain rfl := Option.some.inj ht
        have hn : n / 2 + n / 2 = n := by omega
        rwa [hn] at hdouble
      · dsimp only at ht
        split at ht
        · cases ht
        · next hz =>
          obtain rfl := Option.some.inj ht
          have hn : n / 2 + n / 2 + 1 = n := by omega
          have hsum := hdouble.addAffine h hz
          rwa [← succ_nsmul, hn] at hsum

/-- Coordinates with the first one of a point and the second one negated are those of the opposite
point. -/
theorem Represents.eq_neg (ht : Represents t q)
    (h : (shortCurve p b).toAffine.Nonsingular gx gy) (hz : (t.z : ZMod p) ≠ 0)
    (hx : (t.x : ZMod p) = gx * t.z ^ 2) (hy : (t.y : ZMod p) = - gy * t.z ^ 3) :
    q = - Affine.Point.some (gx : ZMod p) gy h := by
  have hxz : (t.x : ZMod p) / t.z ^ 2 = gx := by
    rw [hx, mul_div_cancel_right₀ _ (pow_ne_zero 2 hz)]
  have hyz : (t.y : ZMod p) / t.z ^ 3 = (shortCurve p b).toAffine.negY gx gy := by
    rw [hy, mul_div_cancel_right₀ _ (pow_ne_zero 3 hz), negY_shortCurve]
  rw [← ht.toAffine_eq, Jacobian.Point.toAffine_of_Z_ne_zero ht.nonsingular hz,
    Affine.Point.neg_some, Affine.Point.some.injEq]
  exact ⟨hxz, hyz⟩

theorem nsmul_eq_zero_of_annihilates (h : (shortCurve p b).toAffine.Nonsingular gx gy) (bits : ℕ)
    {n : ℕ} (hpos : 1 < n) (hbits : n ≤ 2 ^ bits)
    (hn : annihilates p b gx gy bits n = true) :
    n • Affine.Point.some (gx : ZMod p) gy h = 0 := by
  rw [annihilates] at hn
  split at hn
  · cases hn
  · next t ht =>
    simp only [Bool.and_eq_true, decide_eq_true_eq] at hn
    obtain ⟨⟨hz, hx⟩, hy⟩ := hn
    have hmultiple := represents_multiple h (by omega) (by omega) ht
    have hz' : (t.z : ZMod p) ≠ 0 := fun hzero ↦
      hz (Int.emod_eq_zero_of_dvd ((ZMod.intCast_zmod_eq_zero_iff_dvd _ p).mp hzero))
    have hx' : ((t.x - gx * t.z ^ 2 : ℤ) : ZMod p) = 0 :=
      (ZMod.intCast_zmod_eq_zero_iff_dvd _ p).mpr (Int.dvd_of_emod_eq_zero hx)
    have hy' : ((t.y + gy * t.z ^ 3 : ℤ) : ZMod p) = 0 :=
      (ZMod.intCast_zmod_eq_zero_iff_dvd _ p).mpr (Int.dvd_of_emod_eq_zero hy)
    push_cast at hx' hy'
    have hlast := hmultiple.eq_neg h hz' (sub_eq_zero.mp hx')
      (by rw [eq_neg_of_add_eq_zero_left hy', neg_mul])
    have hsucc : n = n - 1 + 1 := by omega
    rw [hsucc, succ_nsmul, hlast, neg_add_cancel]

end Triple

end NevelCore.Foundations
