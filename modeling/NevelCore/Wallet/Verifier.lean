import NevelCore.Consensus.Difficulty
import NevelCore.Tx.Transaction
import NevelCore.Wallet.Parameters
import NevelCore.Wallet.Ripemd160

/-!
# The verification of signatures

`VerifyTransactionInput` of `wallet/wallet.go`, with what it calls: the digest that is signed, the
hash and the decoding of a public key, and the verification of the standard library, which computes
`u1 • G + u2 • Q` with the operations of the curve and reads the coordinates of the sum. The
standard library takes the zero point to be the pair `(0, 0)`, but here it is two nil pointers.

A point has order `N`, so a multiple by a number between zero and `N` meets no nil coordinate
(`yields_scalarMult_complete`). What remains are a scalar `u1` of zero, for which `ScalarBaseMult`
returns nil coordinates (`not_safe_of_zero`), and a sum of zero, which is returned as nil
coordinates and then read (`run_combine_of_sum_eq_zero`). Up to a factor the sum is `e • G + r • Q`,
with the digest `e` and the first half `r` of the signature, so `safe_verifyTransactionInput_iff`
says in terms of these on which inputs the verifier is safe. Whoever has the private key of `Q` can
solve for an `r` that makes the sum zero, and `verifier_panics` is such a signature.
-/

set_option autoImplicit false
set_option relaxedAutoImplicit false

namespace NevelCore.Wallet

open Foundations CurveParams

/-! ### Scripts, keys and digests -/

/-- What a locking script starts with. -/
def scriptMark : List UInt8 := "p2pkh:".toUTF8.toList

/-- `ScriptForPubKeyHash` of `consensus`. -/
def scriptForPubKeyHash (hash : List UInt8) : List UInt8 := scriptMark ++ hash

/-- `ExtractPubKeyHash` of `consensus`. -/
def extractPubKeyHash (script : List UInt8) : Option (List UInt8) :=
  if scriptMark.isPrefixOf script then some (script.drop scriptMark.length) else none

/-- `Hash160`. -/
def hash160 (b : List UInt8) : List UInt8 := ripemd160Digest (sha256 b).toList

/-- The inputs of the copy that `SignatureHash` makes, without their signatures and keys but for the
script that stands in for the signature of one. -/
def signedInputs (inputs : List Input) (inputIndex : ℤ) (script : Bytes) : List Input :=
  let cleared := inputs.map fun input ↦
    { input with signature := .ofList [], publicKey := .ofList [] }
  if 0 ≤ inputIndex ∧ inputIndex < cleared.length then
    cleared.modify inputIndex.toNat fun input ↦ { input with signature := script }
  else cleared

theorem length_signedInputs (inputs : List Input) (inputIndex : ℤ) (script : Bytes) :
    (signedInputs inputs inputIndex script).length = inputs.length := by
  rw [signedInputs]
  split
  · rw [List.length_modify, List.length_map]
  · rw [List.length_map]

/-- The bytes that `SignatureHash` hashes. -/
def signaturePreimage (t : Transaction) (inputIndex : ℤ) (script : Bytes) : List UInt8 :=
  serializeTransaction { t with
    inputs := ⟨signedInputs t.inputs.toList inputIndex script, by
      rw [length_signedInputs]
      exact t.inputs.length_lt⟩ }

/-- `SignatureHash`. -/
def signatureHash (t : Transaction) (inputIndex : ℤ) (script : Bytes) : Hash :=
  doubleSha256 (signaturePreimage t inputIndex script)

/-- `unmarshalCompressed`. -/
def unmarshalCompressed : List UInt8 → Coords
  | [] => ⟨none, none⟩
  | first :: rest =>
    if (first :: rest).length ≠ 33 ∨ first ≠ 0x02 ∧ first ≠ 0x03 then ⟨none, none⟩
    else
      let x := beValue rest
      if x ≥ secp256k1.P then ⟨none, none⟩
      else
        let y2 := (x * x * x + 7) % secp256k1.P
        let exponent := (secp256k1.P + 1) >>> 2
        let y := powMod secp256k1.P 256 y2 exponent
        let y : ℤ := if y % 2 ≠ (first &&& 1).toNat then secp256k1.P - y else y
        if secp256k1.isOnCurve ⟨some x, some y⟩ then ⟨some x, some y⟩ else ⟨none, none⟩

/-! ### Verification -/

/-- `Bytes` of the standard library: the bytes of the absolute value, without leading zeros. -/
def intBytes (n : ℤ) : List UInt8 := beBytes (byteLength n.natAbs) n.natAbs

/-- The sum of multiples of the base point and of a public key. -/
def combine (pub : Coords) (u1 u2 : ℤ) : Op Coords := do
  let p1 ← secp256k1.scalarBaseMult (intBytes u1)
  let p2 ← secp256k1.scalarMult pub (intBytes u2)
  secp256k1.add p1 p2

/-- The comparison of a sum with the first half of a signature. -/
def checkSum (sum : Coords) (r : ℤ) : Op Bool := do
  let x ← deref sum.x
  let y ← deref sum.y
  pure (decide (¬ (x = 0 ∧ y = 0) ∧ x % secp256k1.N = r))

/-- `Verify` of the standard library, for a curve that it has no implementation of. The digest has
as many bits as the order of the curve, so none are cut off. -/
def verify (pub : Coords) (hash : Hash) (r s : ℤ) : Op Bool :=
  if r ≤ 0 ∨ s ≤ 0 ∨ r ≥ secp256k1.N ∨ s ≥ secp256k1.N then pure false
  else do
    let e : ℤ := beValue hash.toList
    let w ← deref (modInverse s secp256k1.N)
    let sum ← combine pub (e * w % secp256k1.N) (r * w % secp256k1.N)
    checkSum sum r

/-- `VerifyTransactionInput`. -/
def verifyTransactionInput (t : Transaction) (inputIndex : ℤ) (script : Bytes) : Op Bool :=
  if inputIndex < 0 then pure false
  else
    match t.inputs.toList[inputIndex.toNat]? with
    | none => pure false
    | some input =>
      match extractPubKeyHash script.toList with
      | none => pure false
      | some want =>
        if hash160 input.publicKey.toList ≠ want then pure false
        else
          let pub := unmarshalCompressed input.publicKey.toList
          if pub.x = none then pure false
          else if input.signature.toList.length ≠ 64 then pure false
          else
            let r : ℤ := beValue (input.signature.toList.take 32)
            let s : ℤ := beValue (input.signature.toList.drop 32)
            verify pub (signatureHash t inputIndex script) r s

/-! ### Scalars -/

theorem beValue_intBytes (n : ℕ) : beValue (intBytes n) = n := by
  rw [intBytes, Int.natAbs_natCast, beValue_beBytes, Nat.mod_eq_of_lt (lt_pow_byteLength n)]

theorem nsmul_ne_zero_of_lt {q : secp256k1.Point} (hq : q ≠ 0) {j : ℕ} (hpos : 0 < j)
    (hlt : j < secp256k1.N) : j • q ≠ 0 := by
  rw [ne_eq, nsmul_eq_zero_iff_dvd hq]
  exact Nat.not_dvd_of_pos_of_lt hpos hlt

theorem mod_nsmul (j : ℕ) (q : secp256k1.Point) : (j % secp256k1.N) • q = j • q := by
  by_cases hq : q = 0
  · rw [hq, nsmul_zero, nsmul_zero]
  · rw [← addOrderOf_eq hq, mod_addOrderOf_nsmul]

/-- The inverse that `Verify` computes. -/
theorem exists_inverse {s : ℕ} (hpos : 0 < s) (hlt : s < secp256k1.N) :
    ∃ w : ℕ, modInverse s secp256k1.N = some (w : ℤ) ∧ s * w % secp256k1.N = 1 := by
  have hprime : Fact secp256k1.N.Prime := ⟨prime_N⟩
  have hcast : ((s : ℤ) : ZMod secp256k1.N) ≠ 0 := by
    rw [Int.cast_natCast, ne_eq, ZMod.natCast_eq_zero_iff]
    exact Nat.not_dvd_of_pos_of_lt hpos hlt
  have hgcd := gcd_eq_one hcast
  have hnonneg : 0 ≤ Int.gcdA s secp256k1.N % secp256k1.N :=
    Int.emod_nonneg _ (by exact_mod_cast prime_N.ne_zero)
  obtain ⟨w, hw⟩ := Int.eq_ofNat_of_zero_le hnonneg
  refine ⟨w, ?_, ?_⟩
  · rw [modInverse_eq_some hgcd, hw]
  · have hmul := mul_cast_gcdA hgcd
    rw [hw] at hmul
    have hone : ((s * w : ℕ) : ZMod secp256k1.N) = (1 : ℕ) := by
      exact_mod_cast hmul
    rw [ZMod.natCast_eq_natCast_iff'] at hone
    rw [hone, Nat.mod_eq_of_lt prime_N.one_lt]

theorem not_dvd_inverse {s w : ℕ} (hw : s * w % secp256k1.N = 1) : ¬ secp256k1.N ∣ w := by
  intro hdvd
  have hzero := Nat.mod_eq_zero_of_dvd (hdvd.mul_left s)
  omega

theorem nsmul_inverse_eq_zero {s w : ℕ} (hw : s * w % secp256k1.N = 1) {q : secp256k1.Point} :
    w • q = 0 ↔ q = 0 := by
  refine ⟨fun h ↦ ?_, fun h ↦ by rw [h, nsmul_zero]⟩
  have hone : (s * w) • q = q := by rw [← mod_nsmul, hw, one_nsmul]
  rw [← hone, mul_nsmul', h, nsmul_zero]

theorem mod_mul_eq_zero {s w : ℕ} (hw : s * w % secp256k1.N = 1) {e : ℕ} :
    e * w % secp256k1.N = 0 ↔ secp256k1.N ∣ e := by
  rw [← Nat.dvd_iff_mod_eq_zero, prime_N.dvd_mul, or_iff_left (not_dvd_inverse hw)]

/-- The sum that `Verify` computes. -/
theorem sum_eq (e r w : ℕ) (q : secp256k1.Point) :
    (e * w % secp256k1.N) • basePoint + (r * w % secp256k1.N) • q =
      w • (e • basePoint + r • q) := by
  rw [mod_nsmul, mod_nsmul, nsmul_add, mul_nsmul, mul_nsmul]

/-! ### Nil coordinates -/

theorem complete_coordsOf {c : CurveParams} {q : c.Point} (hq : q ≠ 0) :
    Complete (coordsOf q) := by
  cases q with
  | zero => exact absurd rfl hq
  | some x y h => exact ⟨Option.some_ne_none _, Option.some_ne_none _⟩

theorem IsMultiple.complete {q : secp256k1.Point} (hq : q ≠ 0) {bound : ℕ}
    (hlt : bound < secp256k1.N) {r : Coords} (h : IsMultiple q bound r) : Complete r := by
  obtain ⟨j, hpos, hle, rfl⟩ := h
  exact complete_coordsOf (nsmul_ne_zero_of_lt hq hpos (hle.trans_lt hlt))

/-- A multiple by a number below the order meets no nil coordinate. -/
theorem yields_scalarMult_complete {q : secp256k1.Point} (hq : q ≠ 0) {n : ℕ} (hpos : 0 < n)
    (hlt : n < secp256k1.N) :
    Yields (secp256k1.scalarMult (coordsOf q) (intBytes n)) (coordsOf (n • q)) Complete := by
  have h := yields_scalarMult two_ne_zero_secp256k1 hq (intBytes n)
  rw [beValue_intBytes] at h
  refine h.mono fun r hr ↦ hr.elim (IsMultiple.complete hq hlt) ?_
  rintro rfl
  exact complete_coordsOf (nsmul_ne_zero_of_lt hq hpos hlt)

/-- The program ends with an answer, and no curve operation has returned a nil coordinate. -/
def Safe (p : Op Bool) : Prop :=
  ∃ answer kept, p.run collect [] = (.ok answer, kept) ∧ ∀ r ∈ kept, Complete r

theorem safe_of_yields {p : Op Bool} {answer : Bool} (h : Yields p answer Complete) : Safe p := by
  obtain ⟨new, hrun, hnew⟩ := h []
  rw [List.append_nil] at hrun
  exact ⟨answer, new, hrun, hnew⟩

theorem not_safe_of_panic {p : Op Bool} {kept : List Coords}
    (h : p.run collect [] = (.error .nilDereference, kept)) : ¬ Safe p := by
  rintro ⟨answer, kept', hrun, -⟩
  rw [h] at hrun
  cases hrun

theorem not_safe_of_noted {p : Op Bool} {answer : Bool} {kept : List Coords}
    (h : p.run collect [] = (.ok answer, kept)) {r : Coords} (hr : r ∈ kept)
    (hnil : ¬ Complete r) : ¬ Safe p := by
  rintro ⟨answer', kept', hrun, hcomplete⟩
  rw [h] at hrun
  cases hrun
  exact hnil (hcomplete r hr)

theorem yields_checkSum {sum : secp256k1.Point} (hsum : sum ≠ 0) (r : ℤ)
    (noted : Coords → Prop) : ∃ answer, Yields (checkSum (coordsOf sum) r) answer noted := by
  cases sum with
  | zero => exact absurd rfl hsum
  | some x y h => exact ⟨_, yields_pure _ _⟩

theorem yields_scalarBaseMult_complete {n : ℕ} (hpos : 0 < n) (hlt : n < secp256k1.N) :
    Yields (secp256k1.scalarBaseMult (intBytes n)) (coordsOf (n • basePoint)) Complete := by
  have h := yields_scalarMult_complete basePoint_ne_zero hpos hlt
  rw [coordsOf_basePoint] at h
  exact h.bind (yields_give (complete_coordsOf (nsmul_ne_zero_of_lt basePoint_ne_zero hpos hlt)))

section Combine

variable {q : secp256k1.Point} (hq : q ≠ 0) {u2 : ℕ} (hpos : 0 < u2) (hlt : u2 < secp256k1.N)

include hq hpos hlt

/-- The second multiple and the sum, from the first multiple on. -/
theorem yields_combine_rest (first : secp256k1.Point) (noted : Coords → Prop)
    (hnoted : ∀ r, Complete r → noted r) (hsum : noted (coordsOf (first + u2 • q))) :
    Yields (do
      let p2 ← secp256k1.scalarMult (coordsOf q) (intBytes u2)
      secp256k1.add (coordsOf first) p2) (coordsOf (first + u2 • q)) noted := by
  refine ((yields_scalarMult_complete hq hpos hlt).mono hnoted).bind ?_
  refine (yields_add two_ne_zero_secp256k1 (.inr (nsmul_ne_zero_of_lt hq hpos hlt))).mono ?_
  rintro r rfl
  exact hsum

/-- A first scalar of zero makes `ScalarBaseMult` return nil coordinates. -/
theorem not_safe_of_zero (r : ℤ) :
    ¬ Safe (combine (coordsOf q) 0 u2 >>= fun sum ↦ checkSum sum r) := by
  have hne : (0 : secp256k1.Point) + u2 • q ≠ 0 := by
    rw [zero_add]
    exact nsmul_ne_zero_of_lt hq hpos hlt
  obtain ⟨new, hrun, -⟩ := yields_combine_rest hq hpos hlt 0 (fun _ ↦ True)
    (fun _ _ ↦ trivial) trivial [⟨none, none⟩, ⟨none, none⟩]
  obtain ⟨answer, hanswer⟩ := yields_checkSum hne r fun _ ↦ True
  obtain ⟨new', hrun', -⟩ := hanswer (new ++ [⟨none, none⟩, ⟨none, none⟩])
  have hcombine : (combine (coordsOf q) 0 u2).run collect [] =
      (.ok (coordsOf (0 + u2 • q)), new ++ [⟨none, none⟩, ⟨none, none⟩]) := hrun
  refine not_safe_of_noted (r := ⟨none, none⟩) ((Prog.run_bind_of_ok hcombine).trans hrun') ?_ ?_
  · simp
  · exact fun h ↦ h.1 rfl

theorem yields_combine {u1 : ℕ} (hpos1 : 0 < u1) (hlt1 : u1 < secp256k1.N)
    (noted : Coords → Prop) (hnoted : ∀ r, Complete r → noted r)
    (hsum : noted (coordsOf (u1 • basePoint + u2 • q))) :
    Yields (combine (coordsOf q) u1 u2) (coordsOf (u1 • basePoint + u2 • q)) noted :=
  Yields.bind ((yields_scalarBaseMult_complete hpos1 hlt1).mono hnoted)
    (yields_combine_rest hq hpos hlt (u1 • basePoint) noted hnoted hsum)

/-- A sum that is zero is returned as nil coordinates, and then read. -/
theorem run_combine_of_sum_eq_zero {u1 : ℕ} (hpos1 : 0 < u1) (hlt1 : u1 < secp256k1.N)
    (hsum : u1 • basePoint + u2 • q = 0) (r : ℤ) :
    ∃ kept, (combine (coordsOf q) u1 u2 >>= fun sum ↦ checkSum sum r).run collect [] =
      (.error .nilDereference, kept) := by
  obtain ⟨new, hrun, -⟩ := yields_combine hq hpos hlt hpos1 hlt1 (fun _ ↦ True)
    (fun _ _ ↦ trivial) trivial []
  rw [hsum] at hrun
  exact ⟨_, Prog.run_bind_of_ok hrun⟩

/-- Otherwise there is an answer, and no coordinate was nil. -/
theorem safe_of_sum_ne_zero {u1 : ℕ} (hpos1 : 0 < u1) (hlt1 : u1 < secp256k1.N)
    (hsum : u1 • basePoint + u2 • q ≠ 0) (r : ℤ) :
    Safe (combine (coordsOf q) u1 u2 >>= fun sum ↦ checkSum sum r) := by
  obtain ⟨answer, hanswer⟩ := yields_checkSum hsum r Complete
  exact safe_of_yields ((yields_combine hq hpos hlt hpos1 hlt1 Complete (fun _ h ↦ h)
    (complete_coordsOf hsum)).bind hanswer)

end Combine

/-! ### The signatures that are safe to verify -/

section Verify

variable {q : secp256k1.Point} (hq : q ≠ 0) (hash : Hash) {r s : ℕ}
  (hr : 0 < r ∧ r < secp256k1.N) (hs : 0 < s ∧ s < secp256k1.N)

include hr hs

/-- `Verify` of a signature in range, with the inverse that it computes. -/
theorem verify_eq (pub : Coords) : ∃ w : ℕ, s * w % secp256k1.N = 1 ∧
    verify pub hash r s =
      combine pub ((beValue hash.toList * w % secp256k1.N : ℕ) : ℤ)
        ((r * w % secp256k1.N : ℕ) : ℤ) >>= fun sum ↦ checkSum sum r := by
  obtain ⟨w, hw, hmul⟩ := exists_inverse hs.1 hs.2
  refine ⟨w, hmul, ?_⟩
  rw [verify, if_neg (by omega), hw]
  push_cast
  rfl

include hq

/-- A signature that makes the sum zero stops `Verify` at a nil pointer. -/
theorem run_verify_of_sum_eq_zero (hsum : beValue hash.toList • basePoint + r • q = 0) :
    ∃ kept, (verify (coordsOf q) hash r s).run collect [] = (.error .nilDereference, kept) := by
  obtain ⟨w, hmul, heq⟩ := verify_eq hash hr hs (coordsOf q)
  have hpos : 0 < r * w % secp256k1.N := by
    rw [Nat.pos_iff_ne_zero, ne_eq, mod_mul_eq_zero hmul]
    exact Nat.not_dvd_of_pos_of_lt hr.1 hr.2
  have hpos1 : 0 < beValue hash.toList * w % secp256k1.N := by
    rw [Nat.pos_iff_ne_zero, ne_eq, mod_mul_eq_zero hmul]
    intro hdvd
    rw [← mod_nsmul, Nat.mod_eq_zero_of_dvd hdvd, zero_nsmul, zero_add] at hsum
    exact nsmul_ne_zero_of_lt hq hr.1 hr.2 hsum
  rw [heq]
  exact run_combine_of_sum_eq_zero hq hpos (Nat.mod_lt _ prime_N.pos) hpos1
    (Nat.mod_lt _ prime_N.pos) (by rw [sum_eq, hsum, nsmul_zero]) r

/-- `Verify` is safe on a signature in range unless the digest is a multiple of the order, or the
signature makes the sum zero. -/
theorem safe_verify_iff : Safe (verify (coordsOf q) hash r s) ↔
    ¬ secp256k1.N ∣ beValue hash.toList ∧
      beValue hash.toList • basePoint + r • q ≠ 0 := by
  obtain ⟨w, hmul, heq⟩ := verify_eq hash hr hs (coordsOf q)
  have hlt (n : ℕ) : n % secp256k1.N < secp256k1.N := Nat.mod_lt _ prime_N.pos
  have hpos : 0 < r * w % secp256k1.N := by
    rw [Nat.pos_iff_ne_zero, ne_eq, mod_mul_eq_zero hmul]
    exact Nat.not_dvd_of_pos_of_lt hr.1 hr.2
  by_cases hsum : beValue hash.toList • basePoint + r • q = 0
  · obtain ⟨kept, hrun⟩ := run_verify_of_sum_eq_zero hq hash hr hs hsum
    exact iff_of_false (not_safe_of_panic hrun) fun h ↦ h.2 hsum
  rw [heq]
  by_cases hdvd : secp256k1.N ∣ beValue hash.toList
  · have hzero := (mod_mul_eq_zero hmul).mpr hdvd
    rw [hzero]
    exact iff_of_false (not_safe_of_zero hq hpos (hlt _) r) fun h ↦ h.1 hdvd
  · have hpos1 := Nat.pos_of_ne_zero (mt (mod_mul_eq_zero hmul).mp hdvd)
    have hne : (beValue hash.toList * w % secp256k1.N) • basePoint +
        (r * w % secp256k1.N) • q ≠ 0 := by
      rw [sum_eq, ne_eq, nsmul_inverse_eq_zero hmul]
      exact hsum
    exact iff_of_true (safe_of_sum_ne_zero hq hpos (hlt _) hpos1 (hlt _) hne r) ⟨hdvd, hsum⟩

end Verify

theorem extractPubKeyHash_eq_some {script want : List UInt8} :
    extractPubKeyHash script = some want ↔ script = scriptForPubKeyHash want := by
  rw [extractPubKeyHash, scriptForPubKeyHash]
  split
  · next hmark =>
    have happend := List.prefix_iff_eq_append.mp (List.isPrefixOf_iff_prefix.mp hmark)
    rw [Option.some_inj, ← happend, List.drop_left, List.append_cancel_left_eq]
  · next hmark =>
    refine iff_of_false (Option.some_ne_none _).symm ?_
    rintro rfl
    exact hmark (List.isPrefixOf_iff_prefix.mpr (List.prefix_append _ _))

/-- Coordinates that pass the test of the curve are those of a point. -/
theorem ite_isOnCurve_cases (x y : ℤ) :
    (if secp256k1.isOnCurve ⟨some x, some y⟩ then ⟨some x, some y⟩ else ⟨none, none⟩ :
        Coords).x = none ∨
      ∃ q : secp256k1.Point, q ≠ 0 ∧
        (if secp256k1.isOnCurve ⟨some x, some y⟩ then ⟨some x, some y⟩ else ⟨none, none⟩) =
          coordsOf q := by
  by_cases hon : secp256k1.isOnCurve ⟨some x, some y⟩ = true
  · rw [if_pos hon]
    exact .inr ⟨pointOf Δ_ne_zero hon, pointOf_ne_zero _ hon, (coordsOf_pointOf _ hon).symm⟩
  · rw [if_neg hon]
    exact .inl rfl

/-- What `unmarshalCompressed` accepts is a point. -/
theorem unmarshalCompressed_cases (pub : List UInt8) :
    (unmarshalCompressed pub).x = none ∨
      ∃ q : secp256k1.Point, q ≠ 0 ∧ unmarshalCompressed pub = coordsOf q := by
  cases pub with
  | nil => exact .inl rfl
  | cons first rest =>
    rw [unmarshalCompressed]
    split
    · exact .inl rfl
    · dsimp only
      split
      · exact .inl rfl
      · exact ite_isOnCurve_cases _ _

/-- The first half of a signature. -/
def sigR (input : Input) : ℕ := beValue (input.signature.toList.take 32)

/-- The second half of a signature. -/
def sigS (input : Input) : ℕ := beValue (input.signature.toList.drop 32)

/-- The input has a key that is a point and that the script asks for, and a signature in range. -/
structure Presents (t : Transaction) (inputIndex : ℤ) (script : Bytes) (input : Input)
    (q : secp256k1.Point) : Prop where
  nonneg : 0 ≤ inputIndex
  input_eq : t.inputs.toList[inputIndex.toNat]? = some input
  script_eq : script.toList = scriptForPubKeyHash (hash160 input.publicKey.toList)
  key_eq : unmarshalCompressed input.publicKey.toList = coordsOf q
  key_ne_zero : q ≠ 0
  length_eq : input.signature.toList.length = 64
  sigR_range : 0 < sigR input ∧ sigR input < secp256k1.N
  sigS_range : 0 < sigS input ∧ sigS input < secp256k1.N

theorem Presents.verifyTransactionInput_eq {t : Transaction} {inputIndex : ℤ} {script : Bytes}
    {input : Input} {q : secp256k1.Point} (h : Presents t inputIndex script input q) :
    verifyTransactionInput t inputIndex script =
      verify (coordsOf q) (signatureHash t inputIndex script) (sigR input) (sigS input) := by
  have hx : (coordsOf q).x ≠ none := (complete_coordsOf h.key_ne_zero).1
  simp only [verifyTransactionInput, if_neg (not_lt.mpr h.nonneg), h.input_eq,
    extractPubKeyHash_eq_some.mpr h.script_eq, h.key_eq, if_neg hx, h.length_eq, ne_eq,
    not_true_eq_false, if_false]
  rfl

theorem verifyTransactionInput_cases (t : Transaction) (inputIndex : ℤ) (script : Bytes) :
    (∃ input q, Presents t inputIndex script input q) ∨
      verifyTransactionInput t inputIndex script = pure false := by
  rw [verifyTransactionInput]
  split
  · exact .inr rfl
  next hnonneg =>
  split
  · exact .inr rfl
  next input hinput =>
  split
  · exact .inr rfl
  next want hwant =>
  split
  · exact .inr rfl
  next hhash =>
  dsimp only
  split
  · exact .inr rfl
  next hkey =>
  split
  · exact .inr rfl
  next hlength =>
  obtain ⟨q, hq, hcoords⟩ := (unmarshalCompressed_cases input.publicKey.toList).resolve_left hkey
  by_cases hrange : (sigR input : ℤ) ≤ 0 ∨ (sigS input : ℤ) ≤ 0 ∨
      (sigR input : ℤ) ≥ secp256k1.N ∨ (sigS input : ℤ) ≥ secp256k1.N
  · exact .inr (if_pos hrange)
  · refine .inl ⟨input, q, ⟨by omega, hinput, ?_, hcoords, hq, by omega, by omega, by omega⟩⟩
    rw [not_not.mp hhash]
    exact extractPubKeyHash_eq_some.mp hwant

/-! ### A key and a family of signatures -/

namespace Sample

/-- The compressed base point, the public key of the private key one. -/
def publicKey : List UInt8 :=
  beBytes 33 0x0279BE667EF9DCBBAC55A06295CE870B07029BFCDB2DCE28D959F2815B16F81798

/-- The script that pays to the key. -/
def script : Bytes := .ofList (beBytes 26 0x7032706b683a751e76e8199196d454941c45d1b3a323f1433bd6)

/-- An input that presents the key and a signature whose second half is one. -/
def input (r : ℕ) : Input where
  prevTxHash := Bytes32.zero
  outputIdx := 0
  signature := .ofList (beBytes 32 r ++ beBytes 32 1)
  publicKey := .ofList publicKey

def spend (r : ℕ) : Transaction where
  version := 1
  inputs := .ofList [input r]
  outputs := .ofList [{ amount := 1000, lockingScript := script }]
  lockTime := 0

/-- What is signed, as a number. -/
def digest : ℕ := 0x9eea165db2b22ae8c04e74ceaec3e53122739015dfaebcbbec3894ee313d4353

theorem beValue_signatureHash (r : ℕ) :
    beValue (signatureHash (spend r) 0 script).toList = digest := by
  have hfree : signatureHash (spend r) 0 script = signatureHash (spend 0) 0 script := rfl
  rw [hfree, signatureHash, toList_doubleSha256]
  decide +kernel

theorem hash160_publicKey :
    hash160 publicKey = beBytes 20 0x751e76e8199196d454941c45d1b3a323f1433bd6 := by
  rw [hash160, toList_sha256]
  decide +kernel

theorem signature_input (r : ℕ) :
    (input r).signature.toList = beBytes 32 r ++ beBytes 32 1 :=
  Slice.toList_ofList (by simp)

theorem sigR_input {r : ℕ} (hr : r < secp256k1.N) : sigR (input r) = r := by
  have hlt : secp256k1.N < 256 ^ 32 := by decide
  rw [sigR, signature_input, List.take_left' (length_beBytes 32 r), beValue_beBytes,
    Nat.mod_eq_of_lt (hr.trans hlt)]

theorem presents {r : ℕ} (hr : 0 < r ∧ r < secp256k1.N) :
    Presents (spend r) 0 script (input r) basePoint where
  nonneg := le_rfl
  input_eq := rfl
  script_eq := by
    change _ = scriptForPubKeyHash (hash160 publicKey)
    rw [hash160_publicKey]
    decide +kernel
  key_eq := by
    change unmarshalCompressed publicKey = _
    rw [coordsOf_basePoint]
    decide +kernel
  key_ne_zero := basePoint_ne_zero
  length_eq := by rw [signature_input, List.length_append, length_beBytes, length_beBytes]
  sigR_range := by rwa [sigR_input hr.2]
  sigS_range := by
    rw [sigS, signature_input, List.drop_left' (length_beBytes 32 r)]
    decide

end Sample

/-! ### The verifier -/

/-- `VerifyTransactionInput` answers, without an operation of the curve returning or reading a nil
coordinate, unless a valid key and a signature in range meet a digest that is a multiple of the
order, or make the sum of the verification equation zero. -/
theorem safe_verifyTransactionInput_iff (t : Transaction) (inputIndex : ℤ) (script : Bytes) :
    Safe (verifyTransactionInput t inputIndex script) ↔
      ∀ input q, Presents t inputIndex script input q →
        ¬ secp256k1.N ∣ beValue (signatureHash t inputIndex script).toList ∧
          beValue (signatureHash t inputIndex script).toList • basePoint + sigR input • q ≠ 0 := by
  constructor
  · intro h input q hpresents
    rw [hpresents.verifyTransactionInput_eq] at h
    exact (safe_verify_iff hpresents.key_ne_zero _ hpresents.sigR_range
      hpresents.sigS_range).mp h
  · intro h
    obtain ⟨input, q, hpresents⟩ | hreject := verifyTransactionInput_cases t inputIndex script
    · rw [hpresents.verifyTransactionInput_eq]
      exact (safe_verify_iff hpresents.key_ne_zero _ hpresents.sigR_range
        hpresents.sigS_range).mpr (h input q hpresents)
    · rw [hreject]
      exact safe_of_yields (yields_pure false Complete)

/-- With one as its first half, the signature is safe to verify. -/
theorem safe_verifyTransactionInput_sample :
    Safe (verifyTransactionInput (Sample.spend 1) 0 Sample.script) := by
  refine (safe_verifyTransactionInput_iff _ _ _).mpr fun input q hpresents ↦ ?_
  have hsample := Sample.presents (r := 1) (by decide)
  obtain rfl : Sample.input 1 = input :=
    Option.some.inj (hsample.input_eq.symm.trans hpresents.input_eq)
  obtain rfl : basePoint = q :=
    coordsOf_injective (hsample.key_eq.symm.trans hpresents.key_eq)
  rw [Sample.beValue_signatureHash, Sample.sigR_input (by decide), ← add_nsmul]
  exact ⟨by decide, nsmul_ne_zero_of_lt basePoint_ne_zero (by decide) (by decide)⟩

/-- With the digest subtracted from the order as its first half, the signature stops the verifier
at a nil pointer. -/
theorem verifier_panics :
    ∃ kept, (verifyTransactionInput (Sample.spend (secp256k1.N - Sample.digest)) 0
      Sample.script).run collect [] = (.error .nilDereference, kept) := by
  have hpresents := Sample.presents (r := secp256k1.N - Sample.digest) (by decide)
  rw [hpresents.verifyTransactionInput_eq]
  refine run_verify_of_sum_eq_zero basePoint_ne_zero _ hpresents.sigR_range
    hpresents.sigS_range ?_
  rw [Sample.beValue_signatureHash, Sample.sigR_input (by decide), ← add_nsmul,
    Nat.add_sub_cancel' (by decide), nsmul_basePoint]

end NevelCore.Wallet
