import NevelCore.Foundations.Bytes
import NevelCore.Foundations.NotedProgram
import NevelCore.Foundations.PrimeOrderCurve

/-!
# The curve operations

The curve of `wallet/secp256k1.go`, which implements the curve interface of the standard library
with affine coordinates over arbitrary integers. Coordinates are pointers, and the zero point is
returned as two nil pointers, where that interface has the pair `(0, 0)`. So a caller may read a nil
pointer, and every operation here is a program that may stop at one, and that notes what each call
returns.
-/

set_option autoImplicit false
set_option relaxedAutoImplicit false

namespace NevelCore.Wallet

open Foundations

/-- The coordinates that an operation takes and returns, as pointers. -/
structure Coords where
  x : Option ℤ
  y : Option ℤ
deriving DecidableEq

inductive Panic where
  | nilDereference
deriving DecidableEq

/-- A program that may stop at a nil pointer. It notes the coordinates that each call of a curve
operation returns. -/
abbrev Op (α : Type) := Prog (notes Coords) Panic α

/-- Reads through a pointer. -/
def deref : Option ℤ → Op ℤ
  | some value => pure value
  | none => .fail .nilDereference

/-- Returns coordinates to the caller. -/
def give (r : Coords) : Op Coords := do
  takeNote r
  pure r

/-- `ModInverse` of the standard library, `none` if there is no inverse. -/
def modInverse (g n : ℤ) : Option ℤ :=
  if Int.gcd g n = 1 then some (Int.gcdA g n % n) else none

/-- `CurveParams` of the standard library. -/
structure CurveParams where
  P : ℕ
  N : ℕ
  B : ℕ
  Gx : ℕ
  Gy : ℕ

namespace CurveParams

/-- `IsOnCurve`. -/
def isOnCurve (c : CurveParams) : Coords → Bool
  | ⟨some x, some y⟩ =>
    0 ≤ x && 0 ≤ y && x < c.P && y < c.P && y * y % c.P = (x * x * x + c.B) % c.P
  | _ => false

/-- `Double`. -/
def double (c : CurveParams) : Coords → Op Coords
  | ⟨some x1, some y1⟩ =>
    if y1 = 0 then give ⟨none, none⟩
    else
      let num := 3 * (x1 * x1)
      let den := 2 * y1 % c.P
      -- without an inverse the denominator is left as it is
      let den := (modInverse den c.P).getD den
      let lambda := num * den % c.P
      let x3 := (lambda * lambda - 2 * x1) % c.P
      give ⟨some x3, some ((lambda * (x1 - x3) - y1) % c.P)⟩
  | _ => give ⟨none, none⟩

/-- `Add`. -/
def add (c : CurveParams) : Coords → Coords → Op Coords
  | ⟨some x1, some y1⟩, ⟨some x2, some y2⟩ =>
    if x1 = x2 then
      if (y1 + y2) % c.P = 0 then give ⟨none, none⟩
      else do
        let r ← c.double ⟨some x1, some y1⟩
        give r
    else
      let num := y2 - y1
      let den := (x2 - x1) % c.P
      let den := (modInverse den c.P).getD den
      let lambda := num * den % c.P
      let x3 := (lambda * lambda - x1 - x2) % c.P
      give ⟨some x3, some ((lambda * (x1 - x3) - y1) % c.P)⟩
  | ⟨some x1, some y1⟩, _ => give ⟨some x1, some y1⟩
  | _, second => do
    let x ← deref second.x
    let y ← deref second.y
    give ⟨some x, some y⟩

/-- The body of the inner loop of `ScalarMult`, for one bit of a byte. -/
def scalarBit (c : CurveParams) (b : Coords) (byteVal : UInt8) (r : Coords) (bitNum : UInt8) :
    Op Coords := do
  let r ← (if r.x ≠ none then c.double r else pure r : Op Coords)
  if byteVal &&& 1 <<< bitNum ≠ 0 then c.add r b else pure r

/-- The inner loop of `ScalarMult`. -/
def scalarByte (c : CurveParams) (b : Coords) (r : Coords) (byteVal : UInt8) : Op Coords :=
  [7, 6, 5, 4, 3, 2, 1, 0].foldlM (c.scalarBit b byteVal) r

/-- `ScalarMult`. -/
def scalarMult (c : CurveParams) (b : Coords) (k : List UInt8) : Op Coords := do
  let r ← k.foldlM (c.scalarByte b) ⟨none, none⟩
  give r

/-- The coordinates of the base point. -/
def base (c : CurveParams) : Coords := ⟨some c.Gx, some c.Gy⟩

/-- `ScalarBaseMult`. -/
def scalarBaseMult (c : CurveParams) (k : List UInt8) : Op Coords := do
  let r ← c.scalarMult c.base k
  give r

end CurveParams

end NevelCore.Wallet
