import NevelCore.Foundations.Bytes

/-!
# RIPEMD-160

The digest of `wallet/ripemd160.go`. Two lines of eighty rounds run over each block of 64 bytes, and
their results are added crosswise to the state. The digest is 20 bytes long
(`length_ripemd160Digest`).
-/

set_option autoImplicit false
set_option relaxedAutoImplicit false

namespace NevelCore.Wallet

open Foundations

/-- The words of the left line, in the order of its rounds. -/
def r1 : List ℕ :=
  [0, 1, 2, 3, 4, 5, 6, 7, 8, 9, 10, 11, 12, 13, 14, 15,
   7, 4, 13, 1, 10, 6, 15, 3, 12, 0, 9, 5, 2, 14, 11, 8,
   3, 10, 14, 4, 9, 15, 8, 1, 2, 7, 0, 6, 13, 11, 5, 12,
   1, 9, 11, 10, 0, 8, 12, 4, 13, 3, 7, 15, 14, 5, 6, 2,
   4, 0, 5, 9, 7, 12, 2, 10, 14, 1, 3, 8, 11, 6, 15, 13]

/-- The words of the right line. -/
def r2 : List ℕ :=
  [5, 14, 7, 0, 9, 2, 11, 4, 13, 6, 15, 8, 1, 10, 3, 12,
   6, 11, 3, 7, 0, 13, 5, 10, 14, 15, 8, 12, 4, 9, 1, 2,
   15, 5, 1, 3, 7, 14, 6, 9, 11, 8, 12, 2, 10, 0, 4, 13,
   8, 6, 4, 1, 3, 11, 15, 0, 5, 12, 2, 13, 9, 7, 10, 14,
   12, 15, 10, 4, 1, 5, 8, 7, 6, 2, 13, 14, 0, 3, 9, 11]

/-- The rotations of the left line. -/
def s1 : List UInt32 :=
  [11, 14, 15, 12, 5, 8, 7, 9, 11, 13, 14, 15, 6, 7, 9, 8,
   7, 6, 8, 13, 11, 9, 7, 15, 7, 12, 15, 9, 11, 7, 13, 12,
   11, 13, 6, 7, 14, 9, 13, 15, 14, 8, 13, 6, 5, 12, 7, 5,
   11, 12, 14, 15, 14, 15, 9, 8, 9, 14, 5, 6, 8, 6, 5, 12,
   9, 15, 5, 11, 6, 8, 13, 12, 5, 12, 13, 14, 11, 8, 5, 6]

/-- The rotations of the right line. -/
def s2 : List UInt32 :=
  [8, 9, 9, 11, 13, 15, 15, 5, 7, 7, 8, 11, 14, 14, 12, 6,
   9, 13, 15, 7, 12, 8, 9, 11, 7, 7, 12, 7, 6, 15, 13, 11,
   9, 7, 15, 11, 8, 6, 6, 14, 12, 13, 5, 14, 13, 13, 7, 5,
   15, 5, 8, 11, 14, 14, 6, 14, 6, 9, 12, 9, 12, 5, 15, 8,
   8, 5, 12, 9, 12, 5, 14, 6, 8, 13, 6, 5, 15, 13, 11, 11]

/-- `ripemdF`. -/
def ripemdF (j : ℕ) (x y z : UInt32) : UInt32 :=
  if j < 16 then x ^^^ y ^^^ z
  else if j < 32 then (x &&& y) ||| (~~~x &&& z)
  else if j < 48 then (x ||| ~~~y) ^^^ z
  else if j < 64 then (x &&& z) ||| (y &&& ~~~z)
  else x ^^^ (y ||| ~~~z)

/-- `ripemdK1`. -/
def ripemdK1 (j : ℕ) : UInt32 :=
  if j < 16 then 0
  else if j < 32 then 0x5a827999
  else if j < 48 then 0x6ed9eba1
  else if j < 64 then 0x8f1bbcdc
  else 0xa953fd4e

/-- `ripemdK2`. -/
def ripemdK2 (j : ℕ) : UInt32 :=
  if j < 16 then 0x50a28be6
  else if j < 32 then 0x5c4dd124
  else if j < 48 then 0x6d703ef3
  else if j < 64 then 0x7a6d76e9
  else 0

/-- `bitsRotateLeft32`. -/
def bitsRotateLeft32 (x k : UInt32) : UInt32 := x <<< k ||| x >>> (32 - k)

/-- Five words, the state of the digest and that of a line. -/
structure Line where
  a : UInt32
  b : UInt32
  c : UInt32
  d : UInt32
  e : UInt32

/-- One round of a line: the function value, word and constant of the round are added, and the sum
is rotated. -/
def Line.round (l : Line) (f word k rotation : UInt32) : Line :=
  ⟨l.e, bitsRotateLeft32 (l.a + f + word + k) rotation + l.e, l.b, bitsRotateLeft32 l.c 10, l.d⟩

/-- Round `j` of both lines. The right one takes the functions from the last to the first. -/
def ripemdRound (x : List UInt32) (lines : Line × Line) (j : ℕ) : Line × Line :=
  (lines.1.round (ripemdF j lines.1.b lines.1.c lines.1.d) (x.getD (r1.getD j 0) 0) (ripemdK1 j)
      (s1.getD j 0),
    lines.2.round (ripemdF (79 - j) lines.2.b lines.2.c lines.2.d) (x.getD (r2.getD j 0) 0)
      (ripemdK2 j) (s2.getD j 0))

/-- Word `i` of a block. -/
def wordAt (block : List UInt8) (i : ℕ) : UInt32 :=
  UInt32.ofNat (leValue ((block.drop (i * 4)).take 4))

/-- The body of the loop over the blocks. -/
def ripemdBlock (h : Line) (block : List UInt8) : Line :=
  let x := (List.range 16).map (wordAt block)
  let lines := (List.range 80).foldl (ripemdRound x) (h, h)
  ⟨h.b + lines.1.c + lines.2.d, h.c + lines.1.d + lines.2.e, h.d + lines.1.e + lines.2.a,
    h.e + lines.1.a + lines.2.b, h.a + lines.1.b + lines.2.c⟩

/-- The loop over the blocks of padded data. -/
def ripemdBlocks : ℕ → Line → List UInt8 → Line
  | 0, h, _ => h
  | count + 1, h, data => ripemdBlocks count (ripemdBlock h (data.take 64)) (data.drop 64)

/-- The message with its end mark and its length in bits, a whole number of blocks. -/
def ripemdPad (msg : List UInt8) : List UInt8 :=
  msg ++ 0x80 :: List.replicate ((119 - msg.length % 64) % 64) 0 ++ leBytes 8 (msg.length * 8)

/-- `ripemd160Digest`. -/
def ripemd160Digest (msg : List UInt8) : List UInt8 :=
  let data := ripemdPad msg
  let h := ripemdBlocks (data.length / 64)
    ⟨0x67452301, 0xefcdab89, 0x98badcfe, 0x10325476, 0xc3d2e1f0⟩ data
  leBytes 4 h.a.toNat ++ (leBytes 4 h.b.toNat ++ (leBytes 4 h.c.toNat ++
    (leBytes 4 h.d.toNat ++ leBytes 4 h.e.toNat)))

theorem length_ripemd160Digest (msg : List UInt8) : (ripemd160Digest msg).length = 20 := by
  simp only [ripemd160Digest, List.length_append, length_leBytes]

example : ripemd160Digest [] = beBytes 20 0x9c1185a5c5e9fc54612808977ee8f548b2258d31 := by
  decide +kernel

end NevelCore.Wallet
