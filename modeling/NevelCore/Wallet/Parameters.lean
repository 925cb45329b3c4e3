import Mathlib.Tactic.NormNum.Prime
import NevelCore.Foundations.PrimeCertificate
import NevelCore.Wallet.GroupLaw

/-!
# The parameters of the curve

The constants of `initSecp256k1`, and what the operations rest on. The order of the field and the
order of the base point are prime, which a table of certificates shows (`prime_P`, `prime_N`). The
curve is nonsingular (`Δ_ne_zero`), the base point lies on it, and its multiple by `N` is zero, as
computed (`nsmul_basePoint`). Minus seven is not a cube, so no point has order two
(`cube_add_ne_zero`). Together they give the order of all points: every point other than zero has
order `N` (`addOrderOf_eq`).

With these parameters the operations are those of the group of the curve. `pointAt` reads
coordinates as a point, nil coordinates as zero, and `operations_eq_group` says what each operation
returns in this reading.
-/

set_option autoImplicit false
set_option relaxedAutoImplicit false

namespace NevelCore.Wallet

open Foundations WeierstrassCurve CurveParams

/-- `initSecp256k1`. -/
def secp256k1 : CurveParams where
  P := 0xFFFFFFFFFFFFFFFFFFFFFFFFFFFFFFFFFFFFFFFFFFFFFFFFFFFFFFFEFFFFFC2F
  N := 0xFFFFFFFFFFFFFFFFFFFFFFFFFFFFFFFEBAAEDCE6AF48A03BBFD25E8CD0364141
  B := 7
  Gx := 0x79BE667EF9DCBBAC55A06295CE870B07029BFCDB2DCE28D959F2815B16F81798
  Gy := 0x483ADA7726A3C4655DA4FBFC0E1108A8FD17B448A68554199C47D08FFB10D4B8

/-! ### Two primes -/

/-- The primes below a hundred thousand that the table rests on. -/
def smallPrimes : List ℕ :=
  [2, 3, 5, 7, 11, 17, 19, 29, 31, 41, 53, 59, 97, 109, 113, 149, 293, 461, 631, 797, 971,
   1373, 1627, 1871, 2011, 2621, 2657, 2731, 4051, 4423, 5323, 7723, 9349, 13441, 16699,
   20113, 24809, 28181, 41201, 85831, 96557]

/-- Certificates for the order of the field and for that of the base point. -/
def primeTable : List PrimeCertificate :=
  [⟨120233, 3, [2, 2, 2, 7, 19, 113]⟩,
   ⟨305873, 3, [2, 2, 2, 2, 7, 2731]⟩,
   ⟨1206781, 10, [2, 2, 3, 5, 20113]⟩,
   ⟨1627771, 3, [2, 3, 5, 29, 1871]⟩,
   ⟨4681609, 23, [2, 2, 2, 3, 97, 2011]⟩,
   ⟨7240687, 3, [2, 3, 1206781]⟩,
   ⟨13331831, 13, [2, 5, 971, 1373]⟩,
   ⟨44706919, 6, [2, 3, 797, 9349]⟩,
   ⟨107590001, 3, [2, 2, 2, 2, 5, 5, 5, 5, 7, 29, 53]⟩,
   ⟨545358713, 5, [2, 2, 2, 41, 59, 28181]⟩,
   ⟨297159362677, 2, [2, 2, 3, 3, 11, 461, 1627771]⟩,
   ⟨107361793816595537, 3, [2, 2, 2, 2, 16699, 85831, 4681609]⟩,
   ⟨173378833005251801, 6, [2, 2, 2, 5, 5, 2621, 24809, 13331831]⟩,
   ⟨174723607534414371449, 3, [2, 2, 2, 17, 59, 4051, 120233, 44706919]⟩,
   ⟨22149492674086928081353, 5, [2, 2, 2, 3, 5323, 173378833005251801]⟩,
   ⟨132896956044521568488119, 6, [2, 3, 22149492674086928081353]⟩,
   ⟨29047611873442575647497758179, 2, [2, 293, 305873, 545358713, 297159362677]⟩,
   ⟨341948486974166000522343609283189, 2, [2, 2, 3, 3, 3, 109, 29047611873442575647497758179]⟩,
   ⟨255515944373312847190720520512484175977, 3,
     [2, 2, 2, 7, 7, 11, 1627, 2657, 4423, 41201, 96557, 7240687, 107590001]⟩,
   ⟨205115282021455665897114700593932402728804164701536103180137503955397371, 10,
     [2, 3, 5, 29, 29, 31, 7723, 132896956044521568488119,
      255515944373312847190720520512484175977]⟩,
   ⟨secp256k1.N, 7,
     [2, 2, 2, 2, 2, 2, 3, 149, 631, 107361793816595537, 174723607534414371449,
      341948486974166000522343609283189]⟩,
   ⟨secp256k1.P, 3,
     [2, 3, 7, 13441, 205115282021455665897114700593932402728804164701536103180137503955397371]⟩]

theorem prime_of_mem_smallPrimes : ∀ q ∈ smallPrimes, q.Prime := by
  simp only [smallPrimes, List.forall_mem_cons]
  norm_num

theorem certified_primeTable : certified 256 smallPrimes primeTable = true := by
  decide +kernel

theorem prime_of_mem_primeTable {n : ℕ} (h : n ∈ primeTable.map PrimeCertificate.number) :
    n.Prime := by
  obtain ⟨certificate, hmem, rfl⟩ := List.mem_map.mp h
  exact prime_of_certified certified_primeTable prime_of_mem_smallPrimes certificate hmem

theorem prime_P : secp256k1.P.Prime := prime_of_mem_primeTable (by decide)

theorem prime_N : secp256k1.N.Prime := prime_of_mem_primeTable (by decide)

instance : Fact secp256k1.P.Prime := ⟨prime_P⟩

/-! ### The order of the points -/

theorem natCast_ne_zero {n : ℕ} (hpos : 0 < n) (hlt : n < secp256k1.P) :
    (n : ZMod secp256k1.P) ≠ 0 := by
  rw [ne_eq, ZMod.natCast_eq_zero_iff]
  exact Nat.not_dvd_of_pos_of_lt hpos hlt

theorem two_ne_zero_secp256k1 : (2 : ZMod secp256k1.P) ≠ 0 := by
  exact_mod_cast natCast_ne_zero (n := 2) (by decide) (by decide)

theorem Δ_ne_zero : (shortCurve secp256k1.P secp256k1.B).Δ ≠ 0 := by
  rw [Δ_shortCurve, neg_mul, neg_ne_zero]
  exact_mod_cast natCast_ne_zero (n := 432 * secp256k1.B ^ 2) (by decide) (by decide)

theorem isOnCurve_base : secp256k1.isOnCurve secp256k1.base = true := by decide

/-- The base point. -/
def basePoint : secp256k1.Point := pointOf Δ_ne_zero isOnCurve_base

theorem coordsOf_basePoint : coordsOf basePoint = secp256k1.base := coordsOf_pointOf _ _

theorem basePoint_ne_zero : basePoint ≠ 0 := pointOf_ne_zero _ _

/-- The order of the base point divides `N`, by computing the multiple. -/
theorem nsmul_basePoint : secp256k1.N • basePoint = 0 :=
  Triple.nsmul_eq_zero_of_annihilates _ 256 prime_N.one_lt (by decide) (by decide +kernel)

/-- Minus seven is not a cube. -/
theorem cube_add_ne_zero (x : ZMod secp256k1.P) : x ^ 3 + (secp256k1.B : ZMod secp256k1.P) ≠ 0 := by
  have hneg : ((secp256k1.P - secp256k1.B : ℕ) : ZMod secp256k1.P) = -(secp256k1.B : ℕ) := by
    rw [Nat.cast_sub (by decide), ZMod.natCast_self, zero_sub]
  have hpow :
      ((secp256k1.P - secp256k1.B : ℕ) : ZMod secp256k1.P) ^ ((secp256k1.P - 1) / 3) ≠ 1 := by
    rw [ne_eq, natCast_pow_eq_one_iff prime_P.one_lt _ 256 (by decide)]
    decide +kernel
  have hcube := pow_ne_of_pow_ne_one (natCast_ne_zero (by decide) (by decide)) (by decide) hpow x
  rw [hneg] at hcube
  exact fun h ↦ hcube (eq_neg_of_add_eq_zero_left h)

/-- Every point other than zero has order `N`. -/
theorem addOrderOf_eq {q : secp256k1.Point} (hq : q ≠ 0) : addOrderOf q = secp256k1.N :=
  addOrderOf_shortCurve two_ne_zero_secp256k1 cube_add_ne_zero prime_N (by decide)
    basePoint_ne_zero nsmul_basePoint hq

theorem nsmul_eq_zero_iff_dvd {q : secp256k1.Point} (hq : q ≠ 0) (j : ℕ) :
    j • q = 0 ↔ secp256k1.N ∣ j := by
  rw [← addOrderOf_dvd_iff_nsmul_eq_zero, addOrderOf_eq hq]

/-! ### The group of the curve -/

/-- The point that coordinates stand for, nil coordinates standing for zero. -/
def pointAt : Coords → secp256k1.Point
  | ⟨some x, some y⟩ =>
    if h : secp256k1.isOnCurve ⟨some x, some y⟩ = true then pointOf Δ_ne_zero h else 0
  | _ => 0

/-- Coordinates of a point: both are nil, or they are reduced and on the curve. -/
def IsPoint (r : Coords) : Prop := r = ⟨none, none⟩ ∨ secp256k1.isOnCurve r = true

theorem pointAt_of_isOnCurve {x y : ℤ} (h : secp256k1.isOnCurve ⟨some x, some y⟩ = true) :
    pointAt ⟨some x, some y⟩ = pointOf Δ_ne_zero h :=
  dif_pos h

theorem exists_of_isOnCurve {r : Coords} (h : secp256k1.isOnCurve r = true) :
    ∃ x y, r = ⟨some x, some y⟩ := by
  obtain ⟨x, y⟩ := r
  cases x with
  | none => cases h
  | some x =>
    cases y with
    | none => cases h
    | some y => exact ⟨x, y, rfl⟩

theorem isOnCurve_coordsOf {q : secp256k1.Point} (hq : q ≠ 0) :
    secp256k1.isOnCurve (coordsOf q) = true := by
  cases q with
  | zero => exact absurd rfl hq
  | some x y h =>
    have hx : x.val < secp256k1.P := x.val_lt
    have hy : y.val < secp256k1.P := y.val_lt
    refine isOnCurve_iff.mpr ⟨⟨Int.natCast_nonneg _, by exact_mod_cast hx⟩,
      ⟨Int.natCast_nonneg _, by exact_mod_cast hy⟩, ?_⟩
    rw [cast_val, cast_val]
    exact h.1

theorem isPoint_coordsOf (q : secp256k1.Point) : IsPoint (coordsOf q) := by
  by_cases hq : q = 0
  · exact .inl (by rw [hq]; rfl)
  · exact .inr (isOnCurve_coordsOf hq)

/-- Coordinates of a point are those of the point they stand for. -/
theorem coordsOf_pointAt {r : Coords} (h : IsPoint r) : coordsOf (pointAt r) = r := by
  rcases h with rfl | h
  · rfl
  · obtain ⟨x, y, rfl⟩ := exists_of_isOnCurve h
    rw [pointAt_of_isOnCurve h, coordsOf_pointOf]

theorem pointAt_coordsOf (q : secp256k1.Point) : pointAt (coordsOf q) = q :=
  coordsOf_injective (coordsOf_pointAt (isPoint_coordsOf q))

theorem pointAt_ne_zero {r : Coords} (h : IsPoint r) (hr : r ≠ ⟨none, none⟩) : pointAt r ≠ 0 := by
  intro hzero
  rw [← coordsOf_pointAt h, hzero] at hr
  exact hr rfl

theorem ne_nil_of_isOnCurve {r : Coords} (h : secp256k1.isOnCurve r = true) :
    r ≠ ⟨none, none⟩ := by
  rintro rfl
  cases h

/-- The operation returns coordinates of a point of the group. -/
def ReturnsPoint (p : Op Coords) (q : secp256k1.Point) : Prop :=
  ∃ r, (∀ kept, (p.run collect kept).1 = .ok r) ∧ IsPoint r ∧ pointAt r = q

theorem ReturnsPoint.of_yields {p : Op Coords} {q : secp256k1.Point} {noted : Coords → Prop}
    (h : Yields p (coordsOf q) noted) : ReturnsPoint p q := by
  refine ⟨coordsOf q, fun kept ↦ ?_, isPoint_coordsOf q, pointAt_coordsOf q⟩
  obtain ⟨new, hrun, -⟩ := h kept
  rw [hrun]

/-- `Add`, `Double`, `ScalarMult` and `ScalarBaseMult` are the operations of the group of the curve.
`ScalarMult` is the multiple by the number that the bytes stand for, so that two byte strings with
one value have one result, and it is nil exactly if this multiple is zero. -/
theorem operations_eq_group :
    (∀ r r' : Coords, IsPoint r → IsPoint r' → r ≠ ⟨none, none⟩ ∨ r' ≠ ⟨none, none⟩ →
      ReturnsPoint (secp256k1.add r r') (pointAt r + pointAt r')) ∧
    (∀ r : Coords, IsPoint r → ReturnsPoint (secp256k1.double r) (pointAt r + pointAt r)) ∧
    (∀ (r : Coords) (k : List UInt8), secp256k1.isOnCurve r = true →
      ReturnsPoint (secp256k1.scalarMult r k) (beValue k • pointAt r) ∧
      ((∀ kept, ((secp256k1.scalarMult r k).run collect kept).1 = .ok ⟨none, none⟩) ↔
        beValue k • pointAt r = 0) ∧
      ∀ k', beValue k' = beValue k → ∀ kept kept',
        ((secp256k1.scalarMult r k').run collect kept').1 =
          ((secp256k1.scalarMult r k).run collect kept).1) ∧
    ∀ k : List UInt8, ReturnsPoint (secp256k1.scalarBaseMult k) (beValue k • basePoint) := by
  have hmultiple {r : Coords} (hr : secp256k1.isOnCurve r = true) (k : List UInt8) :
      ∀ kept, ((secp256k1.scalarMult r k).run collect kept).1 =
        .ok (coordsOf (beValue k • pointAt r)) := by
    intro kept
    have hne := pointAt_ne_zero (.inr hr) (ne_nil_of_isOnCurve hr)
    obtain ⟨new, hrun, -⟩ := yields_scalarMult two_ne_zero_secp256k1 hne k kept
    rw [coordsOf_pointAt (.inr hr)] at hrun
    rw [hrun]
  refine ⟨fun r r' hr hr' hne ↦ ?_, fun r hr ↦ ?_, fun r k hr ↦ ⟨?_, ?_, ?_⟩, fun k ↦ ?_⟩
  · have hsum := yields_add two_ne_zero_secp256k1
      (hne.imp (pointAt_ne_zero hr) (pointAt_ne_zero hr'))
    rw [coordsOf_pointAt hr, coordsOf_pointAt hr'] at hsum
    exact .of_yields hsum
  · have hsum := yields_double two_ne_zero_secp256k1 (pointAt r)
    rw [coordsOf_pointAt hr] at hsum
    exact .of_yields hsum
  · exact ⟨_, hmultiple hr k, isPoint_coordsOf _, pointAt_coordsOf _⟩
  · have hzero : coordsOf (0 : secp256k1.Point) = ⟨none, none⟩ := rfl
    constructor
    · intro h
      have heq := Except.ok.inj ((hmultiple hr k []).symm.trans (h []))
      exact coordsOf_injective (heq.trans hzero.symm)
    · intro h kept
      rw [hmultiple hr k kept, h, hzero]
  · intro k' hk kept kept'
    rw [hmultiple hr, hmultiple hr, hk]
  · have hproduct := yields_scalarMult two_ne_zero_secp256k1 basePoint_ne_zero k
    rw [coordsOf_basePoint] at hproduct
    exact .of_yields ((hproduct.mono fun _ _ ↦ trivial).bind (yields_give trivial))

theorem operations_eq_group_base :
    ReturnsPoint (secp256k1.add secp256k1.base ⟨none, none⟩)
      (pointAt secp256k1.base + pointAt ⟨none, none⟩) ∧
    ReturnsPoint (secp256k1.scalarMult secp256k1.base [0, 3]) (3 • pointAt secp256k1.base) :=
  ⟨operations_eq_group.1 _ _ (.inr isOnCurve_base) (.inl rfl)
      (.inl (ne_nil_of_isOnCurve isOnCurve_base)),
    (operations_eq_group.2.2.1 _ [0, 3] isOnCurve_base).1⟩

end NevelCore.Wallet
