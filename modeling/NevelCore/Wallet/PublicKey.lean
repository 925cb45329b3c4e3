import Mathlib.NumberTheory.LegendreSymbol.Basic
import NevelCore.Wallet.Verifier

/-!
# Compressed public keys

`marshalCompressed` of `wallet/wallet.go` against `unmarshalCompressed`. The reader takes a root of
`x ^ 3 + 7` by raising it to `(P + 1) / 4`, which is a root or the other one of every square, since
`P` is three modulo four (`pow_eq_or_eq_neg`), and then the one with the parity of the first byte
(`parity_chosenRoot`). So it finds the second coordinate of every point (`chosenRoot_eq`), and the
two functions are inverse to each other (`publicKey_codec`).
-/

set_option autoImplicit false
set_option relaxedAutoImplicit false

namespace NevelCore.Wallet

open Foundations CurveParams

/-- The first byte of a compressed key, by the lowest bit of the second coordinate. -/
def firstByte (y : ℤ) : UInt8 := if y % 2 = 0 then 0x02 else 0x03

/-- `FillBytes` of the standard library into 32 bytes. It panics if the number does not fit. -/
def fillBytes (n : ℤ) : Option (List UInt8) :=
  if n.natAbs < 256 ^ 32 then some (beBytes 32 n.natAbs) else none

theorem fillBytes_of_lt {n : ℕ} (h : n < 256 ^ 32) : fillBytes n = some (beBytes 32 n) := by
  rw [fillBytes, Int.natAbs_natCast, if_pos h]

/-- `marshalCompressed`. It panics on a nil coordinate, and if the first coordinate does not fit 32
bytes. -/
def marshalCompressed : Coords → Option (List UInt8)
  | ⟨some x, some y⟩ => (fillBytes x).map (firstByte y :: ·)
  | _ => none

theorem firstByte_eq_iff {y : ℤ} {first : UInt8} :
    firstByte y = first ↔ (first = 0x02 ∨ first = 0x03) ∧ y % 2 = (first &&& 1).toNat := by
  rw [firstByte]
  constructor
  · rintro rfl
    split
    · next heven => exact ⟨.inl rfl, heven⟩
    · next hodd => exact ⟨.inr rfl, Int.emod_two_ne_zero.mp hodd⟩
  · rintro ⟨rfl | rfl, hparity⟩
    · exact if_pos hparity
    · exact if_neg (hparity.trans_ne (by decide))

/-- A power that is a root of every square, up to sign. -/
theorem pow_eq_or_eq_neg {p : ℕ} [Fact p.Prime] (hp : p % 4 = 3) {a y : ZMod p} (h : y * y = a) :
    a ^ ((p + 1) / 4) = y ∨ a ^ ((p + 1) / 4) = -y := by
  have hpow : a ^ ((p + 1) / 4) = y ^ (p / 2) * y := by
    rw [← h, ← pow_two, ← pow_mul, ← pow_succ]
    congr 1
    omega
  rw [hpow]
  by_cases hy : y = 0
  · rw [hy, mul_zero]
    exact .inl rfl
  · rcases ZMod.pow_div_two_eq_neg_one_or_one p hy with hone | hone
    · exact .inl (by rw [hone, one_mul])
    · exact .inr (by rw [hone, neg_one_mul])

/-- The root that `unmarshalCompressed` computes. -/
def rootOf (x : ℕ) : ℕ :=
  powMod secp256k1.P 256 ((x * x * x + 7) % secp256k1.P) ((secp256k1.P + 1) >>> 2)

/-- The root with the parity that is asked for. -/
def chosenRoot (x parity : ℕ) : ℤ :=
  if rootOf x % 2 ≠ parity then secp256k1.P - rootOf x else rootOf x

theorem rootOf_lt (x : ℕ) : rootOf x < secp256k1.P := by
  rw [rootOf, powMod_eq _ _ (by decide)]
  exact Nat.mod_lt _ prime_P.pos

theorem cast_rootOf (x : ℕ) : (rootOf x : ZMod secp256k1.P) =
    ((x : ZMod secp256k1.P) ^ 3 + (secp256k1.B : ZMod secp256k1.P)) ^ ((secp256k1.P + 1) / 4) := by
  rw [rootOf, powMod_eq _ _ (by decide), ZMod.natCast_mod, Nat.cast_pow, ZMod.natCast_mod,
    Nat.shiftRight_eq_div_pow, pow_three']
  push_cast
  rfl

/-- The chosen root has the parity that is asked for. -/
theorem parity_chosenRoot (x : ℕ) {parity : ℕ} (hparity : parity < 2) :
    chosenRoot x parity % 2 = parity := by
  have hodd : secp256k1.P % 2 = 1 := by decide
  have hlt := rootOf_lt x
  rw [chosenRoot]
  split <;> omega

/-- The chosen root for the parity of the second coordinate of a point is this coordinate. -/
theorem chosenRoot_eq {x y : ℕ} (h : secp256k1.isOnCurve ⟨some x, some y⟩ = true) :
    chosenRoot x (y % 2) = y := by
  obtain ⟨-, ⟨-, hlt⟩, hequation⟩ := isOnCurve_iff.mp h
  rw [equation_shortCurve, Int.cast_natCast, Int.cast_natCast, pow_two] at hequation
  have hodd : secp256k1.P % 2 = 1 := by decide
  have hy : y < secp256k1.P := by exact_mod_cast hlt
  have hroot := rootOf_lt x
  have hcases := pow_eq_or_eq_neg (by decide) hequation
  rw [← cast_rootOf] at hcases
  rcases hcases with hsame | hother
  · have hvalue : rootOf x = y := by
      rw [ZMod.natCast_eq_natCast_iff', Nat.mod_eq_of_lt hroot, Nat.mod_eq_of_lt hy] at hsame
      exact hsame
    rw [chosenRoot, hvalue, if_neg (not_not.mpr rfl)]
  · have hdvd : secp256k1.P ∣ rootOf x + y := by
      rw [← ZMod.natCast_eq_zero_iff, Nat.cast_add, hother, neg_add_cancel]
    -- the sum of the two roots is zero or `P`, which is odd
    obtain ⟨m, hm⟩ := hdvd
    have hm : m = 0 ∨ m = 1 := by
      have hlt2 : secp256k1.P * m < secp256k1.P * 2 := by omega
      have := Nat.lt_of_mul_lt_mul_left hlt2
      omega
    rw [chosenRoot]
    rcases hm with rfl | rfl
    · rw [if_neg (by omega)]
      omega
    · rw [if_pos (by omega)]
      omega

/-- What `unmarshalCompressed` makes of bytes in the right form. -/
theorem unmarshalCompressed_eq {first : UInt8} {rest : List UInt8} (hlength : rest.length = 32)
    (hfirst : first = 0x02 ∨ first = 0x03) (hlt : beValue rest < secp256k1.P) :
    unmarshalCompressed (first :: rest) =
      if secp256k1.isOnCurve
          ⟨some (beValue rest), some (chosenRoot (beValue rest) (first &&& 1).toNat)⟩
      then ⟨some (beValue rest), some (chosenRoot (beValue rest) (first &&& 1).toNat)⟩
      else ⟨none, none⟩ := by
  have hform : ¬ ((first :: rest).length ≠ 33 ∨ first ≠ 0x02 ∧ first ≠ 0x03) := by
    rw [List.length_cons, hlength]
    tauto
  rw [unmarshalCompressed, if_neg hform]
  dsimp only
  rw [if_neg (not_le.mpr hlt)]
  rfl

/-- The form of what `unmarshalCompressed` accepts. -/
theorem form_of_unmarshalCompressed {pub : List UInt8} (h : (unmarshalCompressed pub).x ≠ none) :
    ∃ first rest, pub = first :: rest ∧ rest.length = 32 ∧ (first = 0x02 ∨ first = 0x03) ∧
      beValue rest < secp256k1.P := by
  cases pub with
  | nil => exact absurd rfl h
  | cons first rest =>
    rw [unmarshalCompressed] at h
    split at h
    · exact absurd rfl h
    next hform =>
    dsimp only at h
    split at h
    · exact absurd rfl h
    next hlt =>
    obtain ⟨hlength, hfirst⟩ := not_or.mp hform
    refine ⟨first, rest, rfl, ?_, (not_and_or.mp hfirst).imp not_not.mp not_not.mp, not_le.mp hlt⟩
    rw [List.length_cons] at hlength
    omega

/-- A point is read back from its encoding. -/
theorem unmarshalCompressed_marshalCompressed {r : Coords} (h : secp256k1.isOnCurve r = true) :
    ∃ pub, marshalCompressed r = some pub ∧ unmarshalCompressed pub = r := by
  obtain ⟨x, y, rfl⟩ := exists_of_isOnCurve h
  obtain ⟨⟨hx, hx'⟩, ⟨hy, hy'⟩, -⟩ := isOnCurve_iff.mp h
  lift x to ℕ using hx
  lift y to ℕ using hy
  have hlt : x < secp256k1.P := by exact_mod_cast hx'
  have hfits : x < 256 ^ 32 := hlt.trans (by decide)
  have hvalue : beValue (beBytes 32 x) = x := by
    rw [beValue_beBytes, Nat.mod_eq_of_lt hfits]
  obtain ⟨hfirst, hparity⟩ := firstByte_eq_iff.mp (rfl : firstByte y = firstByte y)
  have hbit : (firstByte y &&& 1).toNat = y % 2 := by exact_mod_cast hparity.symm
  refine ⟨firstByte y :: beBytes 32 x, by rw [marshalCompressed, fillBytes_of_lt hfits]; rfl, ?_⟩
  rw [unmarshalCompressed_eq (length_beBytes _ _) hfirst (by rwa [hvalue]),
    hbit, hvalue, chosenRoot_eq h, if_pos h]

/-- What is accepted is the encoding of a point. -/
theorem marshalCompressed_unmarshalCompressed {pub : List UInt8}
    (h : (unmarshalCompressed pub).x ≠ none) :
    secp256k1.isOnCurve (unmarshalCompressed pub) = true ∧
      marshalCompressed (unmarshalCompressed pub) = some pub := by
  obtain ⟨first, rest, rfl, hlength, hfirst, hlt⟩ := form_of_unmarshalCompressed h
  rw [unmarshalCompressed_eq hlength hfirst hlt] at h ⊢
  split at h
  swap
  · exact absurd rfl h
  next hon =>
  rw [if_pos hon]
  refine ⟨hon, ?_⟩
  have hfits : beValue rest < 256 ^ 32 := hlt.trans (by decide)
  have hbit : (first &&& 1).toNat < 2 := by
    rcases hfirst with rfl | rfl <;> decide
  rw [marshalCompressed, fillBytes_of_lt hfits, Option.map_some, Option.some.injEq,
    List.cons.injEq]
  refine ⟨firstByte_eq_iff.mpr ⟨hfirst, parity_chosenRoot _ hbit⟩, ?_⟩
  rw [← hlength, beBytes_beValue]

/-- Compressed keys are an exact codec of the points of the curve: every point is read back from its
encoding, whatever is accepted is the encoding of a point, and so every point has one accepted
encoding. -/
theorem publicKey_codec :
    (∀ r : Coords, secp256k1.isOnCurve r = true →
      ∃ pub, marshalCompressed r = some pub ∧ unmarshalCompressed pub = r) ∧
    (∀ (pub : List UInt8) (r : Coords), unmarshalCompressed pub = r → r.x ≠ none →
      secp256k1.isOnCurve r = true ∧ marshalCompressed r = some pub) ∧
    ∀ r : Coords, secp256k1.isOnCurve r = true → ∃! pub, unmarshalCompressed pub = r := by
  refine ⟨fun r ↦ unmarshalCompressed_marshalCompressed, ?_, fun r hr ↦ ?_⟩
  · rintro pub r rfl hx
    exact marshalCompressed_unmarshalCompressed hx
  · obtain ⟨pub, hpub, hback⟩ := unmarshalCompressed_marshalCompressed hr
    refine ⟨pub, hback, fun pub' hpub' ↦ ?_⟩
    have hx : r.x ≠ none := by
      obtain ⟨x, y, rfl⟩ := exists_of_isOnCurve hr
      exact Option.some_ne_none x
    subst hpub'
    exact Option.some.inj ((marshalCompressed_unmarshalCompressed hx).2.symm.trans hpub)

theorem publicKey_codec_base : ∃ pub, marshalCompressed secp256k1.base = some pub ∧
    unmarshalCompressed pub = secp256k1.base :=
  publicKey_codec.1 _ isOnCurve_base

end NevelCore.Wallet
