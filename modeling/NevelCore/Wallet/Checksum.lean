import NevelCore.Wallet.Bech32

/-!
# The checksum of Bech32

The register of `bech32Polymod` is linear in exclusive or (`polymodStep_xor`). So the six symbols of
a checksum are added to what six zeros make of the register (`foldl_polymodStep_zeros`), and six
symbols alone are just shifted in (`toNat_foldl_polymodStep`). This determines them:
`bech32VerifyChecksum_iff` says that exactly the checksum that is created is verified.
-/

set_option autoImplicit false
set_option relaxedAutoImplicit false

namespace NevelCore.Wallet

open Foundations

/-! ### The register -/

/-- A generator if a bit of the register is set. -/
def picked (c : UInt32) (i : ℕ) (generator : UInt32) : UInt32 :=
  if (c >>> 25 >>> UInt32.ofNat i) &&& 1 = 1 then generator else 0

/-- The sum of the generators that the top bits of the register pick. -/
def feedback (c : UInt32) : UInt32 :=
  generators.zipIdx.foldr (fun pair sum ↦ picked c pair.2 pair.1 ^^^ sum) 0

theorem foldl_pick (c : UInt32) (pairs : List (UInt32 × ℕ)) (chk : UInt32) :
    pairs.foldl (fun chk (generator, i) ↦
        if (c >>> 25 >>> UInt32.ofNat i) &&& 1 = 1 then chk ^^^ generator else chk) chk =
      chk ^^^ pairs.foldr (fun pair sum ↦ picked c pair.2 pair.1 ^^^ sum) 0 := by
  induction pairs generalizing chk with
  | nil => exact (UInt32.xor_zero).symm
  | cons pair pairs ih =>
    rw [List.foldl_cons, ih, List.foldr_cons, ← UInt32.xor_assoc]
    congr 1
    rw [picked]
    dsimp only
    split
    · rfl
    · rw [UInt32.xor_zero]

theorem polymodStep_eq (c : UInt32) (v : UInt8) :
    polymodStep c v = ((c &&& 0x1ffffff) <<< 5 ^^^ v.toUInt32) ^^^ feedback c :=
  foldl_pick c _ _

theorem xor_and (a b mask : UInt32) : (a ^^^ b) &&& mask = (a &&& mask) ^^^ (b &&& mask) := by
  rw [← UInt32.toNat_inj]
  simp only [UInt32.toNat_and, UInt32.toNat_xor]
  exact Nat.and_xor_distrib_right

theorem and_one_cases (x : UInt32) : x &&& 1 = 0 ∨ x &&& 1 = 1 := by
  rw [← UInt32.toNat_inj, ← UInt32.toNat_inj, UInt32.toNat_and]
  change x.toNat &&& 1 = 0 ∨ x.toNat &&& 1 = 1
  rw [Nat.and_one_is_mod]
  omega

theorem picked_xor (a b : UInt32) (i : ℕ) (generator : UInt32) :
    picked (a ^^^ b) i generator = picked a i generator ^^^ picked b i generator := by
  have hbit : ((a ^^^ b) >>> 25 >>> UInt32.ofNat i) &&& (1 : UInt32) =
      ((a >>> 25 >>> UInt32.ofNat i) &&& (1 : UInt32)) ^^^
        ((b >>> 25 >>> UInt32.ofNat i) &&& (1 : UInt32)) := by
    rw [UInt32.shiftRight_xor, UInt32.shiftRight_xor, xor_and]
  rw [picked, picked, picked, hbit]
  rcases and_one_cases (a >>> 25 >>> UInt32.ofNat i) with ha | ha
  · rcases and_one_cases (b >>> 25 >>> UInt32.ofNat i) with hb | hb
    · simp [ha, hb]
    · simp [ha, hb]
  · rcases and_one_cases (b >>> 25 >>> UInt32.ofNat i) with hb | hb
    · simp [ha, hb]
    · simp [ha, hb]

theorem xor_xor_xor_comm (a b c d : UInt32) :
    (a ^^^ b) ^^^ (c ^^^ d) = (a ^^^ c) ^^^ (b ^^^ d) := by
  rw [UInt32.xor_assoc, UInt32.xor_assoc, ← UInt32.xor_assoc b, UInt32.xor_comm b,
    UInt32.xor_assoc c]

theorem feedback_xor (a b : UInt32) : feedback (a ^^^ b) = feedback a ^^^ feedback b := by
  rw [feedback, feedback, feedback]
  induction generators.zipIdx with
  | nil => exact (UInt32.xor_self).symm
  | cons pair pairs ih =>
    rw [List.foldr_cons, ih, List.foldr_cons, List.foldr_cons, picked_xor, xor_xor_xor_comm]

/-- The register is linear in exclusive or. -/
theorem polymodStep_xor (a b : UInt32) (u v : UInt8) :
    polymodStep (a ^^^ b) (u ^^^ v) = polymodStep a u ^^^ polymodStep b v := by
  rw [polymodStep_eq, polymodStep_eq, polymodStep_eq, xor_and, UInt32.shiftLeft_xor,
    UInt8.toUInt32_xor, feedback_xor, xor_xor_xor_comm _ _ u.toUInt32, xor_xor_xor_comm]

theorem foldl_polymodStep_xor {us vs : List UInt8} (hlength : us.length = vs.length)
    (a b : UInt32) :
    (List.zipWith (· ^^^ ·) us vs).foldl polymodStep (a ^^^ b) =
      us.foldl polymodStep a ^^^ vs.foldl polymodStep b := by
  induction us generalizing vs a b with
  | nil =>
    obtain rfl := List.eq_nil_of_length_eq_zero hlength.symm
    rfl
  | cons u us ih =>
    cases vs with
    | nil => cases hlength
    | cons v vs =>
      rw [List.zipWith_cons_cons, List.foldl_cons, polymodStep_xor]
      exact ih (Nat.succ.inj hlength) _ _

/-- Symbols that follow are added in front of zeros. -/
theorem foldl_polymodStep_zeros (symbols : List UInt8) (c : UInt32) :
    symbols.foldl polymodStep c =
      (List.replicate symbols.length 0).foldl polymodStep c ^^^ symbols.foldl polymodStep 0 := by
  have h := foldl_polymodStep_xor
    (List.length_replicate (n := symbols.length) (a := (0 : UInt8))) c 0
  rwa [zipWith_xor_zero, UInt32.xor_zero] at h

theorem two_pow_mul_xor {n v : ℕ} (c : ℕ) (hv : v < 2 ^ n) : (2 ^ n * c) ^^^ v = 2 ^ n * c + v := by
  have hdiv : ((2 ^ n * c) ^^^ v) / 2 ^ n = c := by
    rw [← Nat.shiftRight_eq_div_pow, Nat.shiftRight_xor_distrib, Nat.shiftRight_eq_div_pow,
      Nat.shiftRight_eq_div_pow, Nat.mul_div_cancel_left _ (Nat.pow_pos (by decide)),
      Nat.div_eq_of_lt hv, Nat.xor_zero]
  have hmod : ((2 ^ n * c) ^^^ v) % 2 ^ n = v := by
    rw [Nat.xor_mod_two_pow, Nat.mul_mod_right, Nat.zero_xor, Nat.mod_eq_of_lt hv]
  have hsplit := Nat.div_add_mod ((2 ^ n * c) ^^^ v) (2 ^ n)
  rwa [hdiv, hmod, eq_comm] at hsplit

theorem toNat_polymodStep_of_lt {c : UInt32} (hc : c.toNat < 2 ^ 25) {v : UInt8}
    (hv : v.toNat < 2 ^ 5) : (polymodStep c v).toNat = 2 ^ 5 * c.toNat + v.toNat := by
  have htop : c >>> 25 = 0 := by
    rw [← UInt32.toNat_inj, UInt32.toNat_shiftRight]
    change c.toNat >>> 25 = 0
    rw [Nat.shiftRight_eq_div_pow]
    exact Nat.div_eq_of_lt hc
  have hfeedback : feedback c = 0 := by
    simp only [feedback, picked, htop]
    decide
  have hmask : c &&& 0x1ffffff = c := by
    rw [← UInt32.toNat_inj, UInt32.toNat_and]
    change c.toNat &&& (2 ^ 25 - 1) = c.toNat
    rw [Nat.and_two_pow_sub_one_eq_mod, Nat.mod_eq_of_lt hc]
  rw [polymodStep_eq, hfeedback, UInt32.xor_zero, hmask, UInt32.toNat_xor, UInt32.toNat_shiftLeft]
  change c.toNat <<< 5 % 2 ^ 32 ^^^ v.toNat = _
  rw [Nat.shiftLeft_eq, Nat.mod_eq_of_lt (by omega), Nat.mul_comm, two_pow_mul_xor _ hv]

/-- Up to six symbols that follow an empty register are shifted in. -/
theorem toNat_foldl_polymodStep {symbols : List UInt8} (hsymbols : InWidth 5 symbols)
    (hlength : symbols.length ≤ 6) :
    (symbols.foldl polymodStep 0).toNat = groupsValue 5 symbols := by
  induction symbols using List.reverseRecOn with
  | nil => rfl
  | append_singleton symbols v ih =>
    obtain ⟨hrest, hv⟩ := inWidth_append_singleton.mp hsymbols
    rw [List.length_append, List.length_singleton] at hlength
    have hvalue := ih hrest (by omega)
    have hlt := groupsValue_lt hrest
    have hpow : (2 ^ 5) ^ symbols.length ≤ (2 ^ 5) ^ 5 :=
      Nat.pow_le_pow_right (by decide) (by omega)
    rw [List.foldl_append, List.foldl_cons, List.foldl_nil, groupsValue_append_singleton,
      toNat_polymodStep_of_lt (by rw [hvalue]; omega) hv, hvalue]

theorem feedback_lt (c : UInt32) : (feedback c).toNat < 2 ^ 30 := by
  have hgenerators : ∀ pair ∈ generators.zipIdx, pair.1.toNat < 2 ^ 30 := by decide
  rw [feedback]
  generalize generators.zipIdx = pairs at hgenerators
  induction pairs with
  | nil => exact Nat.two_pow_pos 30
  | cons pair pairs ih =>
    obtain ⟨hpair, hpairs⟩ := List.forall_mem_cons.mp hgenerators
    have hpicked : (picked c pair.2 pair.1).toNat < 2 ^ 30 := by
      rw [picked]
      split
      · exact hpair
      · decide
    rw [List.foldr_cons, UInt32.toNat_xor]
    exact Nat.xor_lt_two_pow hpicked (ih hpairs)

theorem polymodStep_lt (c : UInt32) {v : UInt8} (hv : v.toNat < 2 ^ 5) :
    (polymodStep c v).toNat < 2 ^ 30 := by
  have hshift : ((c &&& 0x1ffffff) <<< 5).toNat < 2 ^ 30 := by
    rw [UInt32.toNat_shiftLeft, UInt32.toNat_and]
    change (c.toNat &&& (2 ^ 25 - 1)) <<< 5 % 2 ^ 32 < 2 ^ 30
    rw [Nat.and_two_pow_sub_one_eq_mod, Nat.shiftLeft_eq]
    omega
  have hsymbol : v.toUInt32.toNat < 2 ^ 30 := by
    rw [UInt8.toNat_toUInt32]
    omega
  rw [polymodStep_eq, UInt32.toNat_xor, UInt32.toNat_xor]
  exact Nat.xor_lt_two_pow (Nat.xor_lt_two_pow hshift hsymbol) (feedback_lt c)

/-- The six symbols of a number of thirty bits. -/
theorem groupsValue_symbols {x : UInt32} (hx : x.toNat < 2 ^ 30) :
    groupsValue 5 ((List.range 6).map fun i ↦
      ((x >>> UInt32.ofNat (5 * (5 - i))) &&& 31).toUInt8) = x.toNat := by
  have hsymbol (shift : ℕ) (hshift : shift < 32) :
      (((x >>> UInt32.ofNat shift) &&& 31).toUInt8).toNat = x.toNat / 2 ^ shift % 32 := by
    rw [UInt32.toNat_toUInt8, UInt32.toNat_and, UInt32.toNat_shiftRight,
      UInt32.toNat_ofNat_of_lt' (lt_trans hshift (by decide)), Nat.mod_eq_of_lt hshift,
      Nat.shiftRight_eq_div_pow]
    change (x.toNat / 2 ^ shift &&& (2 ^ 5 - 1)) % 2 ^ 8 = _
    rw [Nat.and_two_pow_sub_one_eq_mod]
    omega
  simp only [groupsValue, ofNumeral, List.range, List.range.loop, List.map_cons, List.map_nil,
    List.foldl_cons, List.foldl_nil]
  rw [hsymbol _ (by decide), hsymbol _ (by decide), hsymbol _ (by decide), hsymbol _ (by decide),
    hsymbol _ (by decide), hsymbol _ (by decide)]
  omega

theorem inWidth_symbols (x : UInt32) : InWidth 5 ((List.range 6).map fun i ↦
    ((x >>> UInt32.ofNat (5 * (5 - i))) &&& 31).toUInt8) := by
  intro b hb
  obtain ⟨i, -, rfl⟩ := List.mem_map.mp hb
  rw [UInt32.toNat_toUInt8, UInt32.toNat_and]
  refine lt_of_le_of_lt (Nat.mod_le _ _) ?_
  exact lt_of_le_of_lt Nat.and_le_right (by decide)

theorem bech32Polymod_append (values values' : List UInt8) :
    bech32Polymod (values ++ values') = values'.foldl polymodStep (bech32Polymod values) :=
  List.foldl_append

theorem polymod_zeros_lt (values : List UInt8) :
    (bech32Polymod (values ++ [0, 0, 0, 0, 0, 0])).toNat < 2 ^ 30 := by
  rw [bech32Polymod_append]
  exact polymodStep_lt _ (by decide)

/-- Exactly the checksum that is created is verified. -/
theorem bech32VerifyChecksum_iff {hrp data checksum : List UInt8}
    (hchecksum : InWidth 5 checksum) (hlength : checksum.length = 6) :
    bech32VerifyChecksum hrp (data ++ checksum) = true ↔
      checksum = bech32CreateChecksum hrp data := by
  have hsplit : bech32Polymod (bech32HrpExpand hrp ++ (data ++ checksum)) =
      bech32Polymod (bech32HrpExpand hrp ++ data ++ [0, 0, 0, 0, 0, 0]) ^^^
        checksum.foldl polymodStep 0 := by
    rw [← List.append_assoc, bech32Polymod_append, foldl_polymodStep_zeros, hlength,
      bech32Polymod_append _ [0, 0, 0, 0, 0, 0]]
    rfl
  have hlt := polymod_zeros_lt (bech32HrpExpand hrp ++ data)
  rw [bech32VerifyChecksum, decide_eq_true_iff, hsplit, bech32CreateChecksum]
  generalize bech32Polymod (bech32HrpExpand hrp ++ data ++ [0, 0, 0, 0, 0, 0]) = r at hlt
  have hsum : (r ^^^ 1).toNat < 2 ^ 30 := by
    rw [UInt32.toNat_xor]
    exact Nat.xor_lt_two_pow hlt (by decide)
  have hmove : r ^^^ checksum.foldl polymodStep 0 = 1 ↔ checksum.foldl polymodStep 0 = r ^^^ 1 := by
    constructor
    · intro h
      rw [← h, ← UInt32.xor_assoc, UInt32.xor_self, UInt32.zero_xor]
    · intro h
      rw [h, ← UInt32.xor_assoc, UInt32.xor_self, UInt32.zero_xor]
  rw [hmove, ← UInt32.toNat_inj, toNat_foldl_polymodStep hchecksum hlength.le,
    ← groupsValue_symbols hsum]
  constructor
  · exact eq_of_groupsValue_eq hchecksum (inWidth_symbols _) (by rw [hlength]; rfl)
  · intro h
    rw [h]

end NevelCore.Wallet
