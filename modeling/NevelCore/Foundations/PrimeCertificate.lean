import Mathlib.NumberTheory.LucasPrimality

/-!
# Certificates of primality

A number is prime if some base has the order that Lucas's criterion asks for, and that can be
computed once the prime factors of the number less one are known. A table lists such numbers in an
order in which the factors come first, above some primes that are known already. If a table is
certified, all its numbers are prime (`prime_of_certified`).

`powMod` computes powers by repeated squaring (`powMod_eq`), so that the table can be checked by
evaluation.
-/

set_option autoImplicit false
set_option relaxedAutoImplicit false

namespace NevelCore.Foundations

/-- `a ^ e` modulo `m`, for an exponent of at most so many bits. -/
def powMod (m : ℕ) : ℕ → ℕ → ℕ → ℕ
  | 0, _, _ => 1 % m
  | bits + 1, a, e =>
    if e = 0 then 1 % m
    else
      let root := powMod m bits a (e / 2)
      if e % 2 = 0 then root * root % m else a * (root * root % m) % m

theorem powMod_eq (m a : ℕ) {bits e : ℕ} (he : e < 2 ^ bits) :
    powMod m bits a e = a ^ e % m := by
  induction bits generalizing e with
  | zero =>
    obtain rfl : e = 0 := by omega
    rfl
  | succ bits ih =>
    have hsquare : powMod m bits a (e / 2) * powMod m bits a (e / 2) % m =
        a ^ (e / 2 + e / 2) % m := by
      rw [ih (by omega), ← Nat.mul_mod, ← pow_add]
    rw [powMod]
    split
    · next hzero => rw [hzero, pow_zero]
    dsimp only
    split
    · next heven =>
      have hhalves : e / 2 + e / 2 = e := by omega
      rw [hsquare, hhalves]
    · next hodd =>
      have hhalves : e / 2 + e / 2 + 1 = e := by omega
      rw [hsquare, Nat.mul_mod_mod, ← pow_succ', hhalves]

theorem natCast_pow_eq_one_iff {p : ℕ} (hp : 1 < p) (a bits : ℕ) {e : ℕ} (he : e < 2 ^ bits) :
    (a : ZMod p) ^ e = 1 ↔ powMod p bits a e = 1 := by
  rw [powMod_eq p a he, ← Nat.cast_pow, ← Nat.cast_one, ZMod.natCast_eq_natCast_iff',
    Nat.mod_eq_of_lt hp]

/-- A number, a base, and the factors of the number less one. -/
structure PrimeCertificate where
  number : ℕ
  base : ℕ
  factors : List ℕ

/-- The base has full order modulo the number, and the factors are among those known. -/
def PrimeCertificate.valid (bits : ℕ) (known : List ℕ) (c : PrimeCertificate) : Bool :=
  1 < c.number && c.number < 2 ^ bits && c.factors.prod = c.number - 1 &&
    powMod c.number bits c.base (c.number - 1) = 1 &&
    c.factors.all fun q ↦ q ∈ known && powMod c.number bits c.base ((c.number - 1) / q) ≠ 1

theorem PrimeCertificate.prime {bits : ℕ} {known : List ℕ} {c : PrimeCertificate}
    (h : c.valid bits known = true) (hknown : ∀ q ∈ known, q.Prime) : c.number.Prime := by
  simp only [valid, Bool.and_eq_true, decide_eq_true_eq, List.all_eq_true] at h
  obtain ⟨⟨⟨⟨hone, hbits⟩, hprod⟩, hpow⟩, hfactors⟩ := h
  refine lucas_primality c.number (c.base : ZMod c.number) ?_ fun q hq hdvd ↦ ?_
  · rw [natCast_pow_eq_one_iff hone c.base bits (show c.number - 1 < 2 ^ bits by omega)]
    exact hpow
  · -- a prime divisor of the product is one of the factors
    rw [← hprod, hq.prime.dvd_prod_iff] at hdvd
    obtain ⟨factor, hfactor, hdvd⟩ := hdvd
    obtain ⟨hmem, hne⟩ := hfactors factor hfactor
    obtain rfl := (Nat.prime_dvd_prime_iff_eq hq (hknown factor hmem)).mp hdvd
    have hle := Nat.div_le_self (c.number - 1) q
    rw [ne_eq, natCast_pow_eq_one_iff hone c.base bits
      (show (c.number - 1) / q < 2 ^ bits by omega)]
    exact hne

/-- Every number of the table is certified over those before it. -/
def certified (bits : ℕ) : List ℕ → List PrimeCertificate → Bool
  | _, [] => true
  | known, c :: table => c.valid bits known && certified bits (c.number :: known) table

theorem prime_of_certified {bits : ℕ} {table : List PrimeCertificate} {known : List ℕ}
    (h : certified bits known table = true) (hknown : ∀ q ∈ known, q.Prime) :
    ∀ c ∈ table, c.number.Prime := by
  induction table generalizing known with
  | nil => exact List.forall_mem_nil _
  | cons c table ih =>
    obtain ⟨hvalid, htable⟩ := Bool.and_eq_true_iff.mp h
    have hprime := PrimeCertificate.prime hvalid hknown
    exact List.forall_mem_cons.mpr ⟨hprime, ih htable (List.forall_mem_cons.mpr ⟨hprime, hknown⟩)⟩

end NevelCore.Foundations
