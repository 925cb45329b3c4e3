import NevelCore.Errors
import NevelCore.Foundations.Numeral
import Mathlib.Tactic.Ring

/-!
# Bech32

The functions of `wallet/bech32.go`. A string is the list of its bytes. Upper and lower case of a
string of ASCII bytes are the standard library's; what it makes of other strings is left open.

The results are about `convertBits`, which regroups bits. Groups of bits are the digits of a number
(`groupsValue`), and a call keeps the number up to padding (`Pads`). `convertBits_pad_iff` and
`convertBits_noPad_iff` say what comes out with and without padding, and `convertBits_inverse` that
the two invert each other between bytes and symbols.
-/

set_option autoImplicit false
set_option relaxedAutoImplicit false

namespace NevelCore.Wallet

open Foundations

/-! ### Errors -/

/-- The errors of the package `wallet`. -/
inductive WalletError where
  | emptyHrp
  | invalidData
  | invalidString
  | invalidSeparator
  | invalidCharacter
  | invalidChecksum
  | invalidBitGroup
  | invalidPadding
  | wrongPrefix
  | inputOutOfRange
  | zeroAmount
  | insufficientFunds
  | oddHex
  | hexByte (byte : UInt8)
  | sign (text : String)
  | ledger (cause : Err)
deriving DecidableEq

/-- The verb `%#U` of the standard library for a byte: its code point, and itself if printable. -/
def codePoint (byte : UInt8) : String :=
  let printable := 0x20 ≤ byte ∧ byte ≤ 0x7e ∨ 0xa1 ≤ byte ∧ byte ≠ 0xad
  "U+00" ++ (hexString [byte]).toUpper ++
    if printable then " '" ++ String.singleton (Char.ofUInt8 byte) ++ "'" else ""

/-- The text of an error. -/
def WalletError.message : WalletError → String
  | .emptyHrp => "empty bech32 hrp"
  | .invalidData => "invalid bech32 data"
  | .invalidString => "invalid bech32 string"
  | .invalidSeparator => "invalid bech32 separator"
  | .invalidCharacter => "invalid bech32 character"
  | .invalidChecksum => "invalid bech32 checksum"
  | .invalidBitGroup => "invalid bit group"
  | .invalidPadding => "invalid padding"
  | .wrongPrefix => "wrong address prefix"
  | .inputOutOfRange => "input out of range"
  | .zeroAmount => "amount must be greater than zero"
  | .insufficientFunds => "insufficient funds"
  | .oddHex => "encoding/hex: odd length hex string"
  | .hexByte byte => "encoding/hex: invalid byte: " ++ codePoint byte
  | .sign text => text
  | .ledger cause => cause.message

/-! ### Strings -/

/-- What the standard library makes of strings that are not ASCII. -/
structure CaseMaps where
  lower : List UInt8 → List UInt8
  upper : List UInt8 → List UInt8

def isAscii (s : List UInt8) : Bool := s.all (· < 0x80)

def lowerByte (b : UInt8) : UInt8 := if 0x41 ≤ b ∧ b ≤ 0x5a then b + 0x20 else b

def upperByte (b : UInt8) : UInt8 := if 0x61 ≤ b ∧ b ≤ 0x7a then b - 0x20 else b

/-- Case of ASCII characters, others left alone. -/
def Sample.asciiMaps : CaseMaps := ⟨List.map lowerByte, List.map upperByte⟩

/-- `ToLower` of the standard library. -/
def toLower (maps : CaseMaps) (s : List UInt8) : List UInt8 :=
  if isAscii s then s.map lowerByte else maps.lower s

theorem Sample.toLower_asciiMaps (s : List UInt8) : toLower asciiMaps s = s.map lowerByte := by
  rw [toLower]
  split <;> rfl

/-- `ToUpper` of the standard library. -/
def toUpper (maps : CaseMaps) (s : List UInt8) : List UInt8 :=
  if isAscii s then s.map upperByte else maps.upper s

/-- `LastIndexByte` of the standard library. -/
def lastIndexByte (s : List UInt8) (c : UInt8) : Option ℕ :=
  if c ∈ s then some (s.length - 1 - s.reverse.idxOf c) else none

/-! ### The checksum -/

/-- `bech32HrpExpand`. -/
def bech32HrpExpand (hrp : List UInt8) : List UInt8 :=
  hrp.map (fun c : UInt8 ↦ c >>> 5) ++ 0 :: hrp.map fun c : UInt8 ↦ c &&& 31

def generators : List UInt32 := [0x3b6a57b2, 0x26508e6d, 0x1ea119fa, 0x3d4233dd, 0x2a1462b3]

/-- The body of the loop of `bech32Polymod`. -/
def polymodStep (chk : UInt32) (v : UInt8) : UInt32 :=
  let top := chk >>> 25
  let chk := (chk &&& 0x1ffffff) <<< 5 ^^^ v.toUInt32
  generators.zipIdx.foldl
    (fun chk (generator, i) ↦ if (top >>> UInt32.ofNat i) &&& 1 = 1 then chk ^^^ generator else chk)
    chk

/-- `bech32Polymod`. -/
def bech32Polymod (values : List UInt8) : UInt32 := values.foldl polymodStep 1

/-- `bech32CreateChecksum`. -/
def bech32CreateChecksum (hrp data : List UInt8) : List UInt8 :=
  let polymod := bech32Polymod (bech32HrpExpand hrp ++ data ++ [0, 0, 0, 0, 0, 0]) ^^^ 1
  (List.range 6).map fun i ↦ ((polymod >>> UInt32.ofNat (5 * (5 - i))) &&& 31).toUInt8

/-- `bech32VerifyChecksum`. -/
def bech32VerifyChecksum (hrp data : List UInt8) : Bool :=
  bech32Polymod (bech32HrpExpand hrp ++ data) = 1

/-! ### Encoding and decoding -/

def bech32Charset : List UInt8 :=
  ['q', 'p', 'z', 'r', 'y', '9', 'x', '8', 'g', 'f', '2', 't', 'v', 'd', 'w', '0', 's', '3', 'j',
    'n', '5', '4', 'k', 'h', 'c', 'e', '6', 'm', 'u', 'a', '7', 'l'].map Char.toUInt8

/-- The byte `'1'` in front of the data. -/
def separator : UInt8 := '1'.toUInt8

/-- The characters of some symbols. -/
def writeSymbols : List UInt8 → Except WalletError (List UInt8)
  | [] => .ok []
  | p :: symbols =>
    if p ≥ 32 then .error .invalidData
    else do
      let rest ← writeSymbols symbols
      pure (bech32Charset.getD p.toNat 0 :: rest)

/-- `bech32Encode`. -/
def bech32Encode (maps : CaseMaps) (hrp data : List UInt8) : Except WalletError (List UInt8) :=
  if hrp = [] then .error .emptyHrp
  else do
    let symbols ← writeSymbols (data ++ bech32CreateChecksum hrp data)
    pure (toLower maps hrp ++ separator :: symbols)

/-- The symbols of some characters. -/
def readSymbols : List UInt8 → Except WalletError (List UInt8)
  | [] => .ok []
  | c :: characters =>
    if c ∈ bech32Charset then do
      let rest ← readSymbols characters
      pure (UInt8.ofNat (bech32Charset.idxOf c) :: rest)
    else .error .invalidCharacter

/-- `bech32Decode` from the string in lower case on. -/
def bech32DecodeLower (s : List UInt8) : Except WalletError (List UInt8 × List UInt8) :=
  match lastIndexByte s separator with
  | none => .error .invalidSeparator
  | some pos =>
    if pos = 0 ∨ pos + 7 > s.length then .error .invalidSeparator
    else do
      let hrp := s.take pos
      let data ← readSymbols (s.drop (pos + 1))
      if !bech32VerifyChecksum hrp data then .error .invalidChecksum
      else pure (hrp, data.take (data.length - 6))

/-- `bech32Decode`. -/
def bech32Decode (maps : CaseMaps) (s : List UInt8) :
    Except WalletError (List UInt8 × List UInt8) :=
  if s.length < 8 ∨ toLower maps s ≠ s ∧ toUpper maps s ≠ s then .error .invalidString
  else bech32DecodeLower (toLower maps s)

/-! ### Groups of bits -/

/-- The inner loop of `convertBits`: puts out groups as long as there are enough bits. Returns the
number of bits left and what was put out. -/
def emitGroups (toBits acc : ℕ) : ℕ → ℕ → List UInt8 → ℕ × List UInt8
  | 0, bits, ret => (bits, ret)
  | fuel + 1, bits, ret =>
    if bits ≥ toBits then
      emitGroups toBits acc fuel (bits - toBits)
        (ret ++ [UInt8.ofNat ((acc >>> (bits - toBits)) &&& (2 ^ toBits - 1))])
    else (bits, ret)

/-- The loop of `convertBits`. Every round of its inner loop takes at least one bit away, so as many
rounds as there are bits are enough. -/
def convertLoop (fromBits toBits : ℕ) :
    List UInt8 → ℕ → ℕ → List UInt8 → Except WalletError (ℕ × ℕ × List UInt8)
  | [], acc, bits, ret => .ok (acc, bits, ret)
  | value :: data, acc, bits, ret =>
    let v := value.toNat
    if v >>> fromBits ≠ 0 then .error .invalidBitGroup
    else
      let acc := (acc <<< fromBits ||| v) &&& (2 ^ (fromBits + toBits - 1) - 1)
      let bits := bits + fromBits
      let (bits, ret) := emitGroups toBits acc bits bits ret
      convertLoop fromBits toBits data acc bits ret

/-- `convertBits`. The accumulator has less than `2 * fromBits + toBits` bits, which are few enough
for `uint` with groups of up to eight bits. -/
def convertBits (data : List UInt8) (fromBits toBits : ℕ) (pad : Bool) :
    Except WalletError (List UInt8) := do
  let (acc, bits, ret) ← convertLoop fromBits toBits data 0 0 []
  if pad then
    if bits > 0 then
      pure (ret ++ [UInt8.ofNat ((acc <<< (toBits - bits)) &&& (2 ^ toBits - 1))])
    else pure ret
  else if bits ≥ fromBits ∨ (acc <<< (toBits - bits)) &&& (2 ^ toBits - 1) ≠ 0 then
    .error .invalidPadding
  else pure ret

/-! ### Regrouping -/

/-- The value of groups of bits. -/
def groupsValue (width : ℕ) (groups : List UInt8) : ℕ :=
  ofNumeral (2 ^ width) (groups.map UInt8.toNat)

/-- All groups have at most so many bits. -/
def InWidth (width : ℕ) (groups : List UInt8) : Prop := ∀ b ∈ groups, b.toNat < 2 ^ width

theorem groupsValue_append_singleton (width : ℕ) (groups : List UInt8) (b : UInt8) :
    groupsValue width (groups ++ [b]) = 2 ^ width * groupsValue width groups + b.toNat := by
  rw [groupsValue, List.map_append, List.map_singleton, ofNumeral_append_singleton]
  rfl

theorem inWidth_append_singleton {width : ℕ} {groups : List UInt8} {b : UInt8} :
    InWidth width (groups ++ [b]) ↔ InWidth width groups ∧ b.toNat < 2 ^ width := by
  rw [InWidth, List.forall_mem_append, List.forall_mem_singleton]
  rfl

theorem InWidth.digit_lt {width : ℕ} {groups : List UInt8} (h : InWidth width groups) :
    ∀ d ∈ groups.map UInt8.toNat, d < 2 ^ width := by
  intro d hd
  obtain ⟨b, hb, rfl⟩ := List.mem_map.mp hd
  exact h b hb

theorem groupsValue_lt {width : ℕ} {groups : List UInt8} (h : InWidth width groups) :
    groupsValue width groups < (2 ^ width) ^ groups.length := by
  have hlt := ofNumeral_lt h.digit_lt
  rwa [List.length_map] at hlt

/-- Groups are determined by their number and their value. -/
theorem eq_of_groupsValue_eq {width : ℕ} {groups groups' : List UInt8} (h : InWidth width groups)
    (h' : InWidth width groups') (hlength : groups.length = groups'.length)
    (hvalue : groupsValue width groups = groupsValue width groups') : groups = groups' := by
  have hmap := eq_of_ofNumeral_eq h.digit_lt h'.digit_lt (by simpa using hlength) hvalue
  exact List.map_injective_iff.mpr (fun _ _ ↦ UInt8.toNat_inj.mp) hmap

/-- The state of the loops: the groups put out and the bits left in the accumulator are together the
bits of the value that went in. -/
structure Regrouped (toBits value count acc bits : ℕ) (ret : List UInt8) : Prop where
  count_eq : ret.length * toBits + bits = count
  value_eq : groupsValue toBits ret * 2 ^ bits + acc % 2 ^ bits = value
  inWidth : InWidth toBits ret

theorem toNat_group {toBits : ℕ} (hto : toBits ≤ 8) (x : ℕ) :
    (UInt8.ofNat (x &&& (2 ^ toBits - 1))).toNat = x % 2 ^ toBits := by
  have hlt : x % 2 ^ toBits < 2 ^ toBits := Nat.mod_lt _ (Nat.pow_pos (by decide))
  have hle : 2 ^ toBits ≤ 2 ^ 8 := Nat.pow_le_pow_right (by decide) hto
  rw [Nat.and_two_pow_sub_one_eq_mod, UInt8.toNat_ofNat_of_lt' (lt_of_lt_of_le hlt hle)]

/-- One round of the inner loop. -/
theorem Regrouped.emit {toBits value count acc bits : ℕ} {ret : List UInt8} (hto : toBits ≤ 8)
    (h : Regrouped toBits value count acc (bits + toBits) ret) :
    Regrouped toBits value count acc bits
      (ret ++ [UInt8.ofNat ((acc >>> bits) &&& (2 ^ toBits - 1))]) := by
  have hgroup := toNat_group hto (acc >>> bits)
  have hsplit : acc % 2 ^ (bits + toBits) =
      acc / 2 ^ bits % 2 ^ toBits * 2 ^ bits + acc % 2 ^ bits := by
    rw [Nat.pow_add, Nat.mod_mul, Nat.add_comm, Nat.mul_comm]
  refine ⟨?_, ?_, inWidth_append_singleton.mpr ⟨h.inWidth, ?_⟩⟩
  · rw [List.length_append, List.length_singleton, ← h.count_eq]
    ring
  · rw [groupsValue_append_singleton, hgroup, Nat.shiftRight_eq_div_pow, ← h.value_eq, hsplit]
    ring
  · rw [hgroup]
    exact Nat.mod_lt _ (Nat.pow_pos (by decide))

theorem Regrouped.emitGroups {toBits value count acc : ℕ} (hpos : 0 < toBits) (hto : toBits ≤ 8)
    {fuel bits : ℕ} {ret : List UInt8} (hfuel : bits ≤ fuel)
    (h : Regrouped toBits value count acc bits ret) :
    (emitGroups toBits acc fuel bits ret).1 < toBits ∧
      Regrouped toBits value count acc (emitGroups toBits acc fuel bits ret).1
        (emitGroups toBits acc fuel bits ret).2 := by
  induction fuel generalizing bits ret with
  | zero =>
    obtain rfl := Nat.le_zero.mp hfuel
    exact ⟨hpos, h⟩
  | succ fuel ih =>
    rw [Wallet.emitGroups]
    split
    · next hbits =>
      rw [← Nat.sub_add_cancel hbits] at h
      exact ih (by omega) (h.emit hto)
    · next hbits => exact ⟨not_le.mp hbits, h⟩

/-- A group is put behind the bits in the accumulator. None of them is lost by its mask. -/
theorem Regrouped.push {fromBits toBits value count acc bits v : ℕ} {ret : List UInt8}
    (hbits : bits < toBits) (hv : v < 2 ^ fromBits)
    (h : Regrouped toBits value count acc bits ret) :
    Regrouped toBits (2 ^ fromBits * value + v) (count + fromBits)
      ((acc <<< fromBits ||| v) &&& (2 ^ (fromBits + toBits - 1) - 1)) (bits + fromBits) ret := by
  have hmask : ((acc <<< fromBits ||| v) &&& (2 ^ (fromBits + toBits - 1) - 1)) %
      2 ^ (bits + fromBits) = acc % 2 ^ bits * 2 ^ fromBits + v := by
    rw [Nat.and_two_pow_sub_one_eq_mod,
      Nat.mod_mod_of_dvd _ (Nat.pow_dvd_pow 2 (by omega)), ← Nat.shiftLeft_add_eq_or_of_lt hv,
      Nat.shiftLeft_eq, Nat.add_comm bits, Nat.pow_add, Nat.mod_mul, Nat.mul_add_mod_self_right,
      Nat.mod_eq_of_lt hv, Nat.mul_comm acc, Nat.mul_add_div (Nat.pow_pos (by decide)),
      Nat.div_eq_of_lt hv, Nat.add_zero]
    ring
  refine ⟨?_, ?_, h.inWidth⟩
  · rw [← Nat.add_assoc, h.count_eq]
  · rw [hmask, ← h.value_eq, Nat.pow_add]
    ring

/-- The loop puts groups of the right width in, and stops at the first other one. -/
theorem convertLoop_cons {fromBits toBits acc bits : ℕ} {value : UInt8} {data ret : List UInt8}
    (hvalue : value.toNat < 2 ^ fromBits) :
    convertLoop fromBits toBits (value :: data) acc bits ret =
      convertLoop fromBits toBits data
        ((acc <<< fromBits ||| value.toNat) &&& (2 ^ (fromBits + toBits - 1) - 1))
        (emitGroups toBits
          ((acc <<< fromBits ||| value.toNat) &&& (2 ^ (fromBits + toBits - 1) - 1))
          (bits + fromBits) (bits + fromBits) ret).1
        (emitGroups toBits
          ((acc <<< fromBits ||| value.toNat) &&& (2 ^ (fromBits + toBits - 1) - 1))
          (bits + fromBits) (bits + fromBits) ret).2 := by
  rw [convertLoop, if_neg]
  rw [not_not, Nat.shiftRight_eq_div_pow]
  exact Nat.div_eq_of_lt hvalue

theorem exists_convertLoop {fromBits toBits : ℕ} (hpos : 0 < toBits) (hto : toBits ≤ 8)
    {data : List UInt8} (hdata : InWidth fromBits data) {before ret : List UInt8} {acc bits : ℕ}
    (hbits : bits < toBits)
    (h : Regrouped toBits (groupsValue fromBits before) (before.length * fromBits) acc bits ret) :
    ∃ acc' bits' ret', convertLoop fromBits toBits data acc bits ret = .ok (acc', bits', ret') ∧
      bits' < toBits ∧ Regrouped toBits (groupsValue fromBits (before ++ data))
        ((before ++ data).length * fromBits) acc' bits' ret' := by
  induction data generalizing before acc bits ret with
  | nil => exact ⟨acc, bits, ret, rfl, hbits, by rwa [List.append_nil]⟩
  | cons value data ih =>
    obtain ⟨hvalue, hrest⟩ := List.forall_mem_cons.mp hdata
    have hpush := h.push hbits hvalue
    rw [← groupsValue_append_singleton, ← Nat.succ_mul, Nat.succ_eq_add_one,
      ← List.length_singleton (a := value), ← List.length_append] at hpush
    obtain ⟨hlt, hemit⟩ := hpush.emitGroups hpos hto le_rfl
    rw [convertLoop_cons hvalue, List.append_cons]
    exact ih hrest hlt hemit

/-- The loop as `convertBits` runs it. -/
theorem run_convertLoop {fromBits toBits : ℕ} (hpos : 0 < toBits) (hto : toBits ≤ 8)
    {data : List UInt8} (hdata : InWidth fromBits data) :
    ∃ acc bits ret, convertLoop fromBits toBits data 0 0 [] = .ok (acc, bits, ret) ∧
      bits < toBits ∧
      Regrouped toBits (groupsValue fromBits data) (data.length * fromBits) acc bits ret := by
  have hstart : Regrouped toBits (groupsValue fromBits []) (([] : List UInt8).length * fromBits) 0 0
      [] := by
    refine ⟨?_, ?_, List.forall_mem_nil _⟩
    · rw [List.length_nil, Nat.zero_mul, Nat.zero_mul]
    · rw [Nat.pow_zero, Nat.mod_one]
      rfl
  exact exists_convertLoop hpos hto hdata hpos hstart

theorem convertLoop_error {fromBits toBits : ℕ} {data : List UInt8}
    (hdata : ¬ InWidth fromBits data) (acc bits : ℕ) (ret : List UInt8) :
    convertLoop fromBits toBits data acc bits ret = .error .invalidBitGroup := by
  induction data generalizing acc bits ret with
  | nil => exact absurd (List.forall_mem_nil _) hdata
  | cons value data ih =>
    by_cases hvalue : value.toNat < 2 ^ fromBits
    · rw [convertLoop_cons hvalue]
      exact ih (fun hrest ↦ hdata (List.forall_mem_cons.mpr ⟨hvalue, hrest⟩)) _ _ _
    · rw [convertLoop, if_pos]
      rw [Nat.shiftRight_eq_div_pow]
      exact (Nat.div_pos (not_lt.mp hvalue) (Nat.pow_pos (by decide))).ne'

/-- The groups `ret` hold the bits of the groups `data` and `rest` zero bits behind them. -/
structure Pads (fromBits toBits rest : ℕ) (data ret : List UInt8) : Prop where
  length_eq : ret.length * toBits = data.length * fromBits + rest
  value_eq : groupsValue toBits ret = groupsValue fromBits data * 2 ^ rest
  inWidth : InWidth fromBits data
  inWidth_ret : InWidth toBits ret

/-- Quotient and remainder are determined. -/
theorem eq_of_mul_add_eq {m q q' r r' : ℕ} (hr : r < m) (hr' : r' < m)
    (h : q * m + r = q' * m + r') : q = q' ∧ r = r' := by
  have hle {q q' r r' : ℕ} (hr' : r' < m) (h : q * m + r = q' * m + r') : q ≤ q' := by
    have hlt : q * m < (q' + 1) * m := by
      rw [Nat.succ_mul]
      omega
    exact Nat.lt_succ_iff.mp (Nat.lt_of_mul_lt_mul_right hlt)
  obtain rfl := Nat.le_antisymm (hle hr' h) (hle hr h.symm)
  exact ⟨rfl, by omega⟩

/-- Padded groups are determined by what they hold. -/
theorem Pads.unique {fromBits toBits rest rest' : ℕ} {data ret ret' : List UInt8}
    (h : Pads fromBits toBits rest data ret) (h' : Pads fromBits toBits rest' data ret')
    (hrest : rest < toBits) (hrest' : rest' < toBits) : ret = ret' := by
  have hlength : ret.length * toBits + rest' = ret'.length * toBits + rest := by
    rw [h.length_eq, h'.length_eq]
    omega
  obtain ⟨hsame, rfl⟩ := eq_of_mul_add_eq hrest' hrest hlength
  exact eq_of_groupsValue_eq h.inWidth_ret h'.inWidth_ret hsame (h.value_eq.trans h'.value_eq.symm)

/-- With padding, groups of the right width are padded with less than a group. -/
theorem exists_convertBits_pad {fromBits toBits : ℕ} (hpos : 0 < toBits) (hto : toBits ≤ 8)
    {data : List UInt8} (hdata : InWidth fromBits data) :
    ∃ ret rest, rest < toBits ∧ convertBits data fromBits toBits true = .ok ret ∧
      Pads fromBits toBits rest data ret := by
  obtain ⟨acc, bits, ret, hloop, hbits, h⟩ := run_convertLoop hpos hto hdata
  rw [convertBits, hloop]
  dsimp only [bind, Except.bind, pure, Except.pure]
  rw [if_pos rfl]
  by_cases hzero : bits > 0
  · rw [if_pos hzero]
    have hgroup : (UInt8.ofNat ((acc <<< (toBits - bits)) &&& (2 ^ toBits - 1))).toNat =
        acc % 2 ^ bits * 2 ^ (toBits - bits) := by
      rw [toNat_group hto, Nat.shiftLeft_eq, ← Nat.mul_mod_mul_right, ← Nat.pow_add,
        Nat.add_sub_of_le hbits.le]
    refine ⟨_, toBits - bits, by omega, rfl, ?_, ?_, hdata,
      inWidth_append_singleton.mpr ⟨h.inWidth, ?_⟩⟩
    · rw [List.length_append, List.length_singleton, Nat.add_mul, Nat.one_mul, ← h.count_eq]
      omega
    · rw [groupsValue_append_singleton, hgroup, ← h.value_eq, Nat.add_mul, Nat.mul_assoc,
        ← Nat.pow_add, Nat.add_sub_of_le hbits.le, Nat.mul_comm]
    · rw [toNat_group hto]
      exact Nat.mod_lt _ (Nat.pow_pos (by decide))
  · obtain rfl : bits = 0 := by omega
    rw [if_neg hzero]
    refine ⟨ret, 0, hpos, rfl, h.count_eq, ?_, hdata, h.inWidth⟩
    have hvalue := h.value_eq
    rw [Nat.pow_zero, Nat.mul_one, Nat.mod_one, Nat.add_zero] at hvalue
    rw [hvalue, Nat.pow_zero, Nat.mul_one]

theorem convertBits_error {fromBits toBits : ℕ} {data : List UInt8}
    (hdata : ¬ InWidth fromBits data) (pad : Bool) :
    convertBits data fromBits toBits pad = .error .invalidBitGroup := by
  rw [convertBits, convertLoop_error hdata]
  rfl

theorem convertBits_pad_iff {fromBits toBits : ℕ} (hpos : 0 < toBits) (hto : toBits ≤ 8)
    {data ret : List UInt8} :
    convertBits data fromBits toBits true = .ok ret ↔
      ∃ rest < toBits, Pads fromBits toBits rest data ret := by
  constructor
  · intro hrun
    have hdata : InWidth fromBits data := by
      by_contra hdata
      rw [convertBits_error hdata] at hrun
      cases hrun
    obtain ⟨ret', rest, hrest, hrun', h⟩ := exists_convertBits_pad hpos hto hdata
    cases hrun.symm.trans hrun'
    exact ⟨rest, hrest, h⟩
  · rintro ⟨rest, hrest, h⟩
    obtain ⟨ret', rest', hrest', hrun', h'⟩ := exists_convertBits_pad hpos hto h.inWidth
    rw [hrun', h'.unique h hrest' hrest]

/-- Without padding, the bits left over must be zero and fewer than a group that went in. -/
theorem convertBits_noPad_iff {fromBits toBits : ℕ} (hpos : 0 < toBits) (hto : toBits ≤ 8)
    {data ret : List UInt8} :
    convertBits data fromBits toBits false = .ok ret ↔
      ∃ rest < toBits, rest < fromBits ∧ Pads toBits fromBits rest ret data := by
  by_cases hdata : InWidth fromBits data
  swap
  · rw [convertBits_error hdata]
    exact ⟨nofun, fun ⟨_, _, _, h⟩ ↦ absurd h.inWidth_ret hdata⟩
  obtain ⟨acc, bits, ret', hloop, hbits, h⟩ := run_convertLoop hpos hto hdata
  have hleft : (acc <<< (toBits - bits)) &&& (2 ^ toBits - 1) = 0 ↔ acc % 2 ^ bits = 0 := by
    rw [Nat.and_two_pow_sub_one_eq_mod, Nat.shiftLeft_eq]
    nth_rewrite 2 [← Nat.add_sub_of_le hbits.le]
    rw [Nat.pow_add, Nat.mul_mod_mul_right, Nat.mul_eq_zero]
    exact or_iff_left (Nat.pow_pos (by decide)).ne'
  rw [convertBits, hloop]
  dsimp only [bind, Except.bind, pure, Except.pure]
  rw [if_neg Bool.false_ne_true]
  constructor
  · intro hrun
    split at hrun
    · cases hrun
    next hpadding =>
    cases hrun
    obtain ⟨hfew, hzero⟩ := not_or.mp hpadding
    have hvalue := h.value_eq
    rw [hleft.mp (not_not.mp hzero), Nat.add_zero] at hvalue
    exact ⟨bits, hbits, not_le.mp hfew, h.count_eq.symm, hvalue.symm, h.inWidth, hdata⟩
  · rintro ⟨rest, hrest, hfew, hpads⟩
    obtain ⟨hlength, rfl⟩ := eq_of_mul_add_eq hbits hrest (h.count_eq.trans hpads.length_eq)
    have hvalue := h.value_eq.trans hpads.value_eq
    obtain ⟨hsame, hzero⟩ := eq_of_mul_add_eq (Nat.mod_lt _ (Nat.pow_pos (by decide)))
      (Nat.pow_pos (by decide)) (hvalue.trans (Nat.add_zero _).symm)
    rw [if_neg (not_or.mpr ⟨not_le.mpr hfew, not_not.mpr (hleft.mpr hzero)⟩),
      eq_of_groupsValue_eq h.inWidth hpads.inWidth hlength hsame]

/-- Every byte string is regrouped, and the other direction undoes it. -/
theorem convertBits_inverse {bytes symbols : List UInt8} :
    convertBits bytes 8 5 true = .ok symbols ↔ convertBits symbols 5 8 false = .ok bytes := by
  rw [convertBits_pad_iff (by decide) (by decide), convertBits_noPad_iff (by decide) (by decide)]
  constructor
  · rintro ⟨rest, hrest, h⟩
    exact ⟨rest, by omega, hrest, h⟩
  · rintro ⟨rest, -, hrest, h⟩
    exact ⟨rest, hrest, h⟩

theorem exists_convertBits (bytes : List UInt8) :
    ∃ symbols, convertBits bytes 8 5 true = .ok symbols ∧ InWidth 5 symbols := by
  have hbytes : InWidth 8 bytes := fun b _ ↦ b.toNat_lt
  obtain ⟨symbols, rest, -, hrun, h⟩ := exists_convertBits_pad (show 0 < 5 by decide) (by decide)
    hbytes
  exact ⟨symbols, hrun, h.inWidth_ret⟩

end NevelCore.Wallet
