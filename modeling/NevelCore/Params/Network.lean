import NevelCore.Foundations.Bytes

/-!
# Network parameters and compact targets

The constants of `params/params.go`, the three networks, and the compact form of proof-of-work
targets. A target is an integer: the sign bit of the compact form makes it negative.
-/

set_option autoImplicit false
set_option relaxedAutoImplicit false

namespace NevelCore

/-! ### Constants -/

def unitsPerNevel : UInt64 := 100_000_000
def maxSupply : UInt64 := 21_000_000_000 * unitsPerNevel
def targetBlockSec : Int64 := 60
def initialReward : UInt64 := 500 * unitsPerNevel
def halvingInterval : UInt64 := 2_102_400
def difficultyAdjustmentInterval : UInt64 := 720
def difficultyWindow : UInt64 := difficultyAdjustmentInterval
def expectedRetargetSec : Int64 := targetBlockSec * difficultyAdjustmentInterval.toInt64
def coinbaseMaturity : UInt64 := 100
def minRelayFeePerByte : UInt64 := 1
def productionPowBits : UInt32 := 0x1d00ffff
def regtestPowBits : UInt32 := 0x207fffff

/-! ### Compact targets -/

/-- `CompactToBig`: the target a compact form stands for. -/
def compactToBig (compact : UInt32) : ℤ :=
  let size := (compact >>> 24).toNat
  let mantissa := (compact &&& 0x007fffff).toNat
  let bn := if size ≤ 3 then mantissa >>> (8 * (3 - size)) else mantissa <<< (8 * (size - 3))
  if compact &&& 0x00800000 ≠ 0 then -(bn : ℤ) else bn

/-- The length of the big-endian byte form of a number, without leading zero bytes. -/
def byteLength (n : ℕ) : ℕ := if n = 0 then 0 else n.log2 / 8 + 1

/-- `BigToCompact`: the compact form of a target. -/
def bigToCompact (n : ℤ) : UInt32 :=
  if n = 0 then 0
  else
    let size := byteLength n.natAbs
    -- `Rsh` on a negative integer rounds down, and `Uint64` reads the absolute value
    let compact :=
      if size ≤ 3 then UInt32.ofNat (n * 2 ^ (8 * (3 - size))).natAbs
      else UInt32.ofNat (n / 2 ^ (8 * (size - 3))).natAbs
    if compact &&& 0x00800000 ≠ 0 then compact >>> 8 ||| UInt32.ofNat (size + 1) <<< 24
    else compact ||| UInt32.ofNat size <<< 24

/-! ### Networks -/

/-- The part of `params.Network` that the chain reads. -/
structure Network where
  genesisBits : UInt32
  powLimit : ℤ
deriving DecidableEq

/-- `MaxPowLimit`. -/
def maxPowLimit : ℤ := 2 ^ 256 - 1

def mainnet : Network where
  genesisBits := productionPowBits
  powLimit := compactToBig productionPowBits

def testnet : Network where
  genesisBits := productionPowBits
  powLimit := compactToBig productionPowBits

def regtest : Network where
  genesisBits := regtestPowBits
  powLimit := compactToBig regtestPowBits

/-- `ByName`. -/
def networkByName (name : String) : Network :=
  if name = "mainnet" then mainnet else if name = "testnet" then testnet else regtest

/-- The proof-of-work limit of every network is within the range of a hash. -/
theorem networkByName_powLimit_le (name : String) :
    (networkByName name).powLimit ≤ maxPowLimit := by
  unfold networkByName
  split_ifs <;> decide

theorem networkByName_powLimit_pos (name : String) : 0 < (networkByName name).powLimit := by
  unfold networkByName
  split_ifs <;> decide

/-- The bits of every network stand for its limit. -/
theorem compactToBig_genesisBits (name : String) :
    compactToBig (networkByName name).genesisBits = (networkByName name).powLimit := by
  unfold networkByName
  split_ifs <;> rfl

end NevelCore
