import NevelCore.Wallet.Signing

/-!
# Wallets from private keys

`FromHexPrivateKey` takes any bytes as a private key. The point of the key is the multiple of the
base point by their number (`yields_scalarBaseMult`), which is zero exactly for the multiples of the
order of the group (`nsmul_eq_zero_iff_dvd`). A point that is not zero is written and read
back as the public key, and its hash as the address (`fromPrivateKey_eq_ok`). Zero has no
coordinates, and `marshalCompressed` panics. `keyIntake_iff` puts these together: no other key is
refused or accepted wrongly.
-/

set_option autoImplicit false
set_option relaxedAutoImplicit false

namespace NevelCore.Wallet

open Foundations CurveParams

/-! ### Multiples of the base point -/

theorem yields_scalarBaseMult (k : List UInt8) :
    Yields (secp256k1.scalarBaseMult k) (coordsOf (beValue k • basePoint)) fun _ ↦ True := by
  have hmultiple := yields_scalarMult two_ne_zero_secp256k1 basePoint_ne_zero k
  rw [coordsOf_basePoint] at hmultiple
  exact (hmultiple.mono fun _ _ ↦ trivial).bind (yields_give trivial)

/-! ### The wallet's own script -/

/-- The script of a public key. -/
def ownScript (w : Wallet) : Bytes :=
  .ofList (scriptForPubKeyHash (hash160 w.publicKey.toList))

theorem length_scriptForPubKeyHash (b : List UInt8) :
    (scriptForPubKeyHash (hash160 b)).length = 26 := by
  have hmark : scriptMark.length = 6 := by decide +kernel
  rw [scriptForPubKeyHash, List.length_append, hmark, length_hash160]

theorem toList_ownScript (w : Wallet) :
    (ownScript w).toList = scriptForPubKeyHash (hash160 w.publicKey.toList) := by
  rw [ownScript, Slice.toList_ofList (by rw [length_scriptForPubKeyHash]; decide)]

theorem length_ownScript (w : Wallet) : (ownScript w).toList.length = 26 := by
  rw [toList_ownScript, length_scriptForPubKeyHash]

theorem length_marshalCompressed {r : Coords} {pub : List UInt8}
    (h : marshalCompressed r = some pub) : pub.length = 33 := by
  obtain ⟨x, y⟩ := r
  cases x with
  | none => cases h
  | some x =>
    cases y with
    | none => cases h
    | some y =>
      obtain ⟨bytes, hbytes, rfl⟩ := Option.map_eq_some_iff.mp h
      rw [fillBytes] at hbytes
      split at hbytes
      · cases hbytes
        rw [List.length_cons, length_beBytes]
      · cases hbytes

/-- The point of a wallet is on the curve, its key is decoded to the point, and its address to the
script of the key. -/
structure OwnsScript (maps : CaseMaps) (w : Wallet) : Prop where
  onCurve : secp256k1.isOnCurve w.privateKey.pub = true
  key_eq : unmarshalCompressed w.publicKey.toList = w.privateKey.pub
  script_eq : lockingScriptForAddress maps w.address w.addressPrefix = .ok (ownScript w)

theorem OwnsScript.length_publicKey {maps : CaseMaps} {w : Wallet} (h : OwnsScript maps w) :
    w.publicKey.toList.length = 33 := by
  have hx : (unmarshalCompressed w.publicKey.toList).x ≠ none := by
    obtain ⟨x, y, hpub⟩ := exists_of_isOnCurve h.onCurve
    rw [h.key_eq, hpub]
    exact Option.some_ne_none x
  obtain ⟨first, rest, hlist, hlength, -⟩ := form_of_unmarshalCompressed hx
  rw [hlist, List.length_cons, hlength]

/-- `FromPrivateKey` of a point on the curve: the key is that of the point and the address that of
the key. -/
theorem fromPrivateKey_eq_ok (maps : CaseMaps) (priv : PrivateKey) {hrp : List UInt8}
    (hkey : secp256k1.isOnCurve priv.pub = true) (hhrp : LowerPrintable hrp) :
    ∃ pub address, fromPrivateKey maps priv hrp = .ok ⟨priv, .ofList pub, address, hrp⟩ ∧
      (Slice.ofList pub).toList = pub ∧ marshalCompressed priv.pub = some pub ∧
      unmarshalCompressed pub = priv.pub ∧
      decodeAddress maps address hrp = .ok (hash160 pub) := by
  obtain ⟨pub, hpub, hunmarshal⟩ := unmarshalCompressed_marshalCompressed hkey
  obtain ⟨symbols, hconvert, hencode, hdecode⟩ := exists_address maps hhrp (hash160 pub)
  have hlist : (Slice.ofList pub).toList = pub :=
    Slice.toList_ofList (by rw [length_marshalCompressed hpub]; decide)
  have haddress : addressFromPublicKey maps pub hrp = .ok (addressText hrp symbols) := by
    rw [addressFromPublicKey, hconvert]
    exact hencode
  refine ⟨pub, addressText hrp symbols, ?_, hlist, hpub, hunmarshal, hdecode⟩
  rw [fromPrivateKey, hpub, orPanic_some_bind, haddress, orError_ok_bind]
  rfl

theorem exists_fromPrivateKey (maps : CaseMaps) (priv : PrivateKey) {hrp : List UInt8}
    (hkey : secp256k1.isOnCurve priv.pub = true) (hhrp : LowerPrintable hrp) :
    ∃ w, fromPrivateKey maps priv hrp = .ok w ∧ w.privateKey = priv ∧ w.addressPrefix = hrp ∧
      OwnsScript maps w := by
  obtain ⟨pub, address, hwallet, hlist, -, hunmarshal, hdecode⟩ :=
    fromPrivateKey_eq_ok maps priv hkey hhrp
  refine ⟨_, hwallet, rfl, rfl, hkey, ?_, ?_⟩
  · dsimp only
    rw [hlist, hunmarshal]
  · dsimp only [ownScript]
    rw [hlist, lockingScriptForAddress, hdecode]
    rfl

/-! ### Keys in hexadecimal form -/

section Hex

variable {maps : CaseMaps} {h hrp b : List UInt8}

theorem fromHexPrivateKey_of_error {e : WalletError} (hbytes : decodeHex h = .error e) :
    fromHexPrivateKey maps h hrp = .error (.error e) := by
  rw [fromHexPrivateKey, hbytes]
  rfl

theorem fromHexPrivateKey_of_ok (hbytes : decodeHex h = .ok b) :
    fromHexPrivateKey maps h hrp =
      fromPrivateKey maps ⟨beValue b, coordsOf (beValue b • basePoint)⟩ hrp := by
  rw [fromHexPrivateKey, hbytes, orError_ok_bind, runOp_bind (yields_scalarBaseMult b)]

/-- The coordinates of zero are nil, and `marshalCompressed` panics. -/
theorem fromHexPrivateKey_of_dvd (hbytes : decodeHex h = .ok b) (hdvd : secp256k1.N ∣ beValue b) :
    fromHexPrivateKey maps h hrp = .error .panic := by
  rw [fromHexPrivateKey_of_ok hbytes, (nsmul_eq_zero_iff_dvd basePoint_ne_zero _).mpr hdvd]
  rfl

/-- Every wallet that `FromHexPrivateKey` returns has a point on the curve. -/
theorem of_fromHexPrivateKey (hhrp : LowerPrintable hrp) {w : Wallet}
    (hwallet : fromHexPrivateKey maps h hrp = .ok w) :
    w.addressPrefix = hrp ∧ OwnsScript maps w := by
  cases hbytes : decodeHex h with
  | error e =>
    rw [fromHexPrivateKey_of_error hbytes] at hwallet
    cases hwallet
  | ok b =>
    by_cases hdvd : secp256k1.N ∣ beValue b
    · rw [fromHexPrivateKey_of_dvd hbytes hdvd] at hwallet
      cases hwallet
    · obtain ⟨w', hwallet', -, hprinted, howns⟩ := exists_fromPrivateKey maps
        ⟨beValue b, coordsOf (beValue b • basePoint)⟩
        (isOnCurve_coordsOf (mt (nsmul_eq_zero_iff_dvd basePoint_ne_zero _).mp hdvd)) hhrp
      rw [fromHexPrivateKey_of_ok hbytes] at hwallet
      cases hwallet'.symm.trans hwallet
      exact ⟨hprinted, howns⟩

/-- What a wallet made from a key should be: the number is not a multiple of the order, the point is
the multiple of the base point by it and on the curve, the public key is its compressed form, and
the address is decoded to the hash of that. -/
structure KeyTaken (maps : CaseMaps) (hrp : List UInt8) (w : Wallet) : Prop where
  not_dvd : ¬ (secp256k1.N : ℤ) ∣ w.privateKey.D
  point : w.privateKey.pub = coordsOf (w.privateKey.D • basePoint)
  onCurve : secp256k1.isOnCurve w.privateKey.pub = true
  compressed : marshalCompressed w.privateKey.pub = some w.publicKey.toList
  address : decodeAddress maps w.address hrp = .ok (hash160 w.publicKey.toList)

theorem exists_keyTaken (maps : CaseMaps) (hhrp : LowerPrintable hrp)
    (hbytes : decodeHex h = .ok b) (hdvd : ¬ secp256k1.N ∣ beValue b) :
    ∃ w, fromHexPrivateKey maps h hrp = .ok w ∧ KeyTaken maps hrp w := by
  have hcurve :=
    isOnCurve_coordsOf (mt (nsmul_eq_zero_iff_dvd basePoint_ne_zero (beValue b)).mp hdvd)
  obtain ⟨pub, address, hwallet, hlist, hmarshal, -, hdecode⟩ :=
    fromPrivateKey_eq_ok maps ⟨beValue b, coordsOf (beValue b • basePoint)⟩ hcurve hhrp
  refine ⟨_, (fromHexPrivateKey_of_ok hbytes).trans hwallet, ?_, ?_, hcurve, ?_, ?_⟩
  · exact mt Int.natCast_dvd_natCast.mp hdvd
  · dsimp only
    rw [natCast_zsmul]
  · dsimp only
    rw [hlist, hmarshal]
  · dsimp only
    rw [hlist, hdecode]

/-- A call of `FromHexPrivateKey` ends with an error or with a wallet as it should be, if and only
if the string is not the form of a multiple of the order of the group. Otherwise it panics. -/
theorem keyIntake_iff (maps : CaseMaps) (hhrp : LowerPrintable hrp) (h : List UInt8) :
    (((∃ e, fromHexPrivateKey maps h hrp = .error (.error e)) ∨
        ∃ w, fromHexPrivateKey maps h hrp = .ok w ∧ KeyTaken maps hrp w) ↔
      ∀ b, decodeHex h = .ok b → ¬ secp256k1.N ∣ beValue b) ∧
    ∀ b, decodeHex h = .ok b → secp256k1.N ∣ beValue b →
      fromHexPrivateKey maps h hrp = .error .panic := by
  refine ⟨⟨fun htotal b hbytes hdvd ↦ ?_, fun hkey ↦ ?_⟩,
    fun b hbytes hdvd ↦ fromHexPrivateKey_of_dvd hbytes hdvd⟩
  · rw [fromHexPrivateKey_of_dvd hbytes hdvd] at htotal
    rcases htotal with ⟨e, herror⟩ | ⟨w, hwallet, -⟩
    · cases herror
    · cases hwallet
  · cases hbytes : decodeHex h with
    | error e => exact .inl ⟨e, fromHexPrivateKey_of_error hbytes⟩
    | ok b => exact .inr (exists_keyTaken maps hhrp hbytes (hkey b hbytes))

end Hex

theorem keyIntake_one :
    (∃ e, fromHexPrivateKey Sample.asciiMaps [0x30, 0x31] Sample.nevel = .error (.error e)) ∨
      ∃ w, fromHexPrivateKey Sample.asciiMaps [0x30, 0x31] Sample.nevel = .ok w ∧
        KeyTaken Sample.asciiMaps Sample.nevel w := by
  have hbytes : decodeHex [0x30, 0x31] = .ok [1] := by decide
  refine (keyIntake_iff Sample.asciiMaps Sample.lowerPrintable_nevel _).1.mpr fun b hb hdvd ↦ ?_
  cases hbytes.symm.trans hb
  exact absurd (Nat.le_of_dvd (by decide) hdvd) (by decide)

/-- The string `00` makes `FromHexPrivateKey` panic. -/
theorem keyIntake_zero :
    LowerPrintable Sample.nevel ∧
      fromHexPrivateKey Sample.asciiMaps [0x30, 0x30] Sample.nevel = .error .panic :=
  ⟨Sample.lowerPrintable_nevel, fromHexPrivateKey_of_dvd (b := [0]) (by decide) (by decide)⟩

end NevelCore.Wallet
