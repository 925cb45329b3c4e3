import NevelCore.Foundations.Bytes
import Mathlib.Logic.Function.Iterate

/-!
# SHA-256

The hash function of FIPS 180-4 on byte lists. Words are numbers below `2 ^ 32`, and every addition
of the compression function is reduced modulo `2 ^ 32`. The definitions compute, so that a digest of
a fixed message is found by evaluation.

`absorb_zeroRun` gives the state after a message that is a whole number of leading blocks, a run of
zero blocks and a tail: the run contributes one iterate of `compressZero`, the compression of the
block of 64 zero bytes, whose schedule is constantly zero.
-/

set_option autoImplicit false
set_option relaxedAutoImplicit false

namespace NevelCore.Foundations

namespace Sha256

/-- The round constants. -/
def roundConstants : List ℕ :=
  [0x428a2f98, 0x71374491, 0xb5c0fbcf, 0xe9b5dba5, 0x3956c25b, 0x59f111f1, 0x923f82a4, 0xab1c5ed5,
   0xd807aa98, 0x12835b01, 0x243185be, 0x550c7dc3, 0x72be5d74, 0x80deb1fe, 0x9bdc06a7, 0xc19bf174,
   0xe49b69c1, 0xefbe4786, 0x0fc19dc6, 0x240ca1cc, 0x2de92c6f, 0x4a7484aa, 0x5cb0a9dc, 0x76f988da,
   0x983e5152, 0xa831c66d, 0xb00327c8, 0xbf597fc7, 0xc6e00bf3, 0xd5a79147, 0x06ca6351, 0x14292967,
   0x27b70a85, 0x2e1b2138, 0x4d2c6dfc, 0x53380d13, 0x650a7354, 0x766a0abb, 0x81c2c92e, 0x92722c85,
   0xa2bfe8a1, 0xa81a664b, 0xc24b8b70, 0xc76c51a3, 0xd192e819, 0xd6990624, 0xf40e3585, 0x106aa070,
   0x19a4c116, 0x1e376c08, 0x2748774c, 0x34b0bcb5, 0x391c0cb3, 0x4ed8aa4a, 0x5b9cca4f, 0x682e6ff3,
   0x748f82ee, 0x78a5636f, 0x84c87814, 0x8cc70208, 0x90befffa, 0xa4506ceb, 0xbef9a3f7, 0xc67178f2]

/-- The low 32 bits of a number. -/
def word (x : ℕ) : ℕ := x % 4294967296

/-- A word written twice in a row, so that its rotations are windows of the result. -/
def twice (x : ℕ) : ℕ := x * 4294967297

/-- Rotation of a word to the right. -/
def rotr (count x : ℕ) : ℕ := word (twice x >>> count)

/-- `Σ₀` of the standard. -/
def bigSigma0 (x : ℕ) : ℕ := rotr 2 x ^^^ rotr 13 x ^^^ rotr 22 x

/-- `Σ₁` of the standard. -/
def bigSigma1 (x : ℕ) : ℕ := rotr 6 x ^^^ rotr 11 x ^^^ rotr 25 x

/-- `σ₀` of the standard. -/
def smallSigma0 (x : ℕ) : ℕ := rotr 7 x ^^^ rotr 18 x ^^^ x >>> 3

/-- `σ₁` of the standard. -/
def smallSigma1 (x : ℕ) : ℕ := rotr 17 x ^^^ rotr 19 x ^^^ x >>> 10

/-- `Ch` of the standard: the bits of `y` where `x` is set, those of `z` elsewhere. -/
def choose (x y z : ℕ) : ℕ := z ^^^ (x &&& (y ^^^ z))

/-- `Maj` of the standard: the bits set in at least two of the words. -/
def majority (x y z : ℕ) : ℕ := (x &&& y) ^^^ (z &&& (x ^^^ y))

/-- The eight working words. -/
structure State where
  a : ℕ
  b : ℕ
  c : ℕ
  d : ℕ
  e : ℕ
  f : ℕ
  g : ℕ
  h : ℕ
deriving DecidableEq

/-- The initial hash value. -/
def initial : State :=
  ⟨0x6a09e667, 0xbb67ae85, 0x3c6ef372, 0xa54ff53a, 0x510e527f, 0x9b05688c, 0x1f83d9ab, 0x5be0cd19⟩

/-- One round, on the sum of its round constant and its schedule word. -/
def round (s : State) (input : ℕ) : State :=
  let t₁ := s.h + input + (bigSigma1 s.e + choose s.e s.f s.g)
  let t₂ := bigSigma0 s.a + majority s.a s.b s.c
  ⟨word (t₁ + t₂), s.a, s.b, s.c, word (s.d + t₁), s.e, s.f, s.g⟩

/-- The wordwise sum of two states. -/
def add (s t : State) : State :=
  ⟨word (s.a + t.a), word (s.b + t.b), word (s.c + t.c), word (s.d + t.d),
    word (s.e + t.e), word (s.f + t.f), word (s.g + t.g), word (s.h + t.h)⟩

/-- The big-endian words of a byte list. -/
def words : List UInt8 → List ℕ
  | p :: q :: r :: s :: rest =>
    (((p.toNat * 256 + q.toNat) * 256 + r.toNat) * 256 + s.toNat) :: words rest
  | _ => []

/-- Extends a schedule, held last word first, by `count` words. -/
def extend : ℕ → List ℕ → List ℕ
  | 0, ws => ws
  | count + 1, ws =>
    extend count (word (smallSigma1 (ws.getD 1 0) + ws.getD 6 0 +
      (smallSigma0 (ws.getD 14 0) + ws.getD 15 0)) :: ws)

/-- The 64 schedule words of a block. -/
def schedule (block : List UInt8) : List ℕ := (extend 48 (words block).reverse).reverse

/-- The compression function. -/
def compress (s : State) (block : List UInt8) : State :=
  add s ((List.zipWith (· + ·) roundConstants (schedule block)).foldl round s)

/-- The first `count` blocks of 64 bytes of a byte list. -/
def blocks : ℕ → List UInt8 → List (List UInt8)
  | 0, _ => []
  | count + 1, bytes => bytes.take 64 :: blocks count (bytes.drop 64)

/-- The bytes that complete a message of the given length to a whole number of blocks. -/
def padding (length : ℕ) : List UInt8 :=
  0x80 :: List.replicate ((119 - length % 64) % 64) 0 ++ beBytes 8 (8 * length)

/-- The bytes of a state. -/
def stateBytes (s : State) : List UInt8 :=
  beBytes 4 s.a ++ beBytes 4 s.b ++ beBytes 4 s.c ++ beBytes 4 s.d ++
    beBytes 4 s.e ++ beBytes 4 s.f ++ beBytes 4 s.g ++ beBytes 4 s.h

/-- The digest a final state stands for. -/
def digest (s : State) : Bytes32 := ⟨stateBytes s, by simp [stateBytes]⟩

/-- The state after all blocks of a message. -/
def absorb (message : List UInt8) : State :=
  (blocks ((message.length + 8) / 64 + 1) (message ++ padding message.length)).foldl
    compress initial

end Sha256

open Sha256

/-- The SHA-256 digest of a message. -/
def sha256 (message : List UInt8) : Bytes32 := digest (absorb message)

example : sha256 [0x61, 0x62, 0x63] =
    ⟨[0xba, 0x78, 0x16, 0xbf, 0x8f, 0x01, 0xcf, 0xea, 0x41, 0x41, 0x40, 0xde, 0x5d, 0xae, 0x22, 0x23,
      0xb0, 0x03, 0x61, 0xa3, 0x96, 0x17, 0x7a, 0x9c, 0xb4, 0x10, 0xff, 0x61, 0xf2, 0x00, 0x15, 0xad],
      rfl⟩ := by
  decide +kernel

/-! ### Runs of zero blocks -/

namespace Sha256

/-- The compression of a block of zero bytes. -/
def compressZero (s : State) : State := add s (roundConstants.foldl round s)

theorem compress_replicate_zero (s : State) :
    compress s (List.replicate 64 0) = compressZero s := by
  have hinput : List.zipWith (· + ·) roundConstants (schedule (List.replicate 64 0)) =
      roundConstants := by
    decide +kernel
  rw [compress, compressZero, hinput]

theorem blocks_append {count : ℕ} {first : List UInt8} (hlength : first.length = 64 * count)
    (more : ℕ) (second : List UInt8) :
    blocks (count + more) (first ++ second) = blocks count first ++ blocks more second := by
  induction count generalizing first with
  | zero =>
    rw [List.eq_nil_of_length_eq_zero hlength, Nat.zero_add]
    rfl
  | succ count ih =>
    have hle : 64 ≤ first.length := by omega
    have hrest : (first.drop 64).length = 64 * count := by
      rw [List.length_drop]
      omega
    rw [Nat.add_right_comm, blocks, blocks, List.take_append_of_le_length hle,
      List.drop_append_of_le_length hle, ih hrest, List.cons_append]

theorem blocks_replicate (count : ℕ) (byte : UInt8) :
    blocks count (List.replicate (64 * count) byte) =
      List.replicate count (List.replicate 64 byte) := by
  induction count with
  | zero => rfl
  | succ count ih =>
    rw [blocks, List.take_replicate, List.drop_replicate, List.replicate_succ, ← ih]
    congr 1

theorem foldl_compress_zero (count : ℕ) (s : State) :
    (List.replicate count (List.replicate 64 0)).foldl compress s = compressZero^[count] s := by
  induction count generalizing s with
  | zero => rfl
  | succ count ih =>
    rw [List.replicate_succ, List.foldl_cons, compress_replicate_zero, ih,
      Function.iterate_succ_apply]

/-- The state after a message of `front` leading blocks, `count` zero blocks and a tail. -/
theorem absorb_zeroRun {front : ℕ} {first : List UInt8} (hfirst : first.length = 64 * front)
    (count : ℕ) (last : List UInt8) :
    absorb (first ++ List.replicate (64 * count) 0 ++ last) =
      (blocks ((last.length + 8) / 64 + 1)
        (last ++ padding (64 * front + 64 * count + last.length))).foldl compress
          (compressZero^[count] ((blocks front first).foldl compress initial)) := by
  have hlength : (first ++ List.replicate (64 * count) 0 ++ last).length =
      64 * front + 64 * count + last.length := by
    rw [List.length_append, List.length_append, List.length_replicate, hfirst]
  have hcount : (64 * front + 64 * count + last.length + 8) / 64 + 1 =
      front + (count + ((last.length + 8) / 64 + 1)) := by
    omega
  rw [absorb, hlength, hcount, List.append_assoc, List.append_assoc, blocks_append hfirst,
    blocks_append (by rw [List.length_replicate]), blocks_replicate, List.foldl_append,
    List.foldl_append, foldl_compress_zero]

/-! ### Evaluation on packed states

The same compression on a state packed in one number, written with the operations on numbers
themselves, so that a long run of zero blocks is evaluated one block at a time. -/

/-- The word of a packed state that starts at a bit. -/
def slot (packed start : ℕ) : ℕ := Nat.mod (Nat.shiftRight packed start) 4294967296

/-- The state packed in a number. -/
def unpack (packed : ℕ) : State :=
  ⟨slot packed 224, slot packed 192, slot packed 160, slot packed 128,
    slot packed 96, slot packed 64, slot packed 32, slot packed 0⟩

/-- A further word below a packed number. -/
def push (packed x : ℕ) : ℕ := Nat.add (Nat.mul packed 4294967296) (Nat.mod x 4294967296)

/-- Eight sums of words, packed. -/
def pack (a b c d e f g h : ℕ) : ℕ :=
  push (push (push (push (push (push (push (push 0 a) b) c) d) e) f) g) h

/-- The rounds on eight words, handing the last eight words to a continuation. -/
def rounds : List ℕ → ℕ → ℕ → ℕ → ℕ → ℕ → ℕ → ℕ → ℕ → (ℕ → ℕ → ℕ → ℕ → ℕ → ℕ → ℕ → ℕ → ℕ) → ℕ
  | [], a, b, c, d, e, f, g, h, k => k a b c d e f g h
  | w :: ws, a, b, c, d, e, f, g, h, k =>
    (fun t₁ ↦ rounds ws
      (Nat.mod (Nat.add t₁ (Nat.add
        ((fun x ↦ Nat.xor (Nat.xor (Nat.shiftRight x 2) (Nat.shiftRight x 13))
          (Nat.shiftRight x 22)) (Nat.mul a 4294967297))
        (Nat.xor (Nat.land a b) (Nat.land c (Nat.xor a b))))) 4294967296)
      a b c (Nat.mod (Nat.add d t₁) 4294967296) e f g k)
    (Nat.add (Nat.add h w) (Nat.add
      ((fun x ↦ Nat.xor (Nat.xor (Nat.shiftRight x 6) (Nat.shiftRight x 11))
        (Nat.shiftRight x 25)) (Nat.mul e 4294967297))
      (Nat.xor g (Nat.land e (Nat.xor f g)))))

/-- `compressZero` on a packed state. -/
def packedCompressZero (packed : ℕ) : ℕ :=
  rounds roundConstants (slot packed 224) (slot packed 192) (slot packed 160) (slot packed 128)
    (slot packed 96) (slot packed 64) (slot packed 32) (slot packed 0) fun a b c d e f g h ↦
      pack (Nat.add (slot packed 224) a) (Nat.add (slot packed 192) b)
        (Nat.add (slot packed 160) c) (Nat.add (slot packed 128) d) (Nat.add (slot packed 96) e)
        (Nat.add (slot packed 64) f) (Nat.add (slot packed 32) g) (Nat.add (slot packed 0) h)

/-- A function applied to a number. The case split has the number evaluated first. -/
def strictly (f : ℕ → ℕ) : ℕ → ℕ
  | 0 => f 0
  | n + 1 => f (n + 1)

/-- Iterates `packedCompressZero`, evaluating the state after every block. -/
def packedZeroRun : ℕ → ℕ → ℕ
  | 0, packed => packed
  | count + 1, packed => strictly (packedZeroRun count) (packedCompressZero packed)

theorem strictly_apply (f : ℕ → ℕ) (n : ℕ) : strictly f n = f n := by
  cases n <;> rfl

theorem bigSigma0_eq (x : ℕ) :
    bigSigma0 x = word (twice x >>> 2 ^^^ twice x >>> 13 ^^^ twice x >>> 22) := by
  simp only [bigSigma0, rotr, word]
  rw [show 4294967296 = 2 ^ 32 from rfl, ← Nat.xor_mod_two_pow, ← Nat.xor_mod_two_pow]

theorem bigSigma1_eq (x : ℕ) :
    bigSigma1 x = word (twice x >>> 6 ^^^ twice x >>> 11 ^^^ twice x >>> 25) := by
  simp only [bigSigma1, rotr, word]
  rw [show 4294967296 = 2 ^ 32 from rfl, ← Nat.xor_mod_two_pow, ← Nat.xor_mod_two_pow]

theorem rounds_eq (ws : List ℕ) (s : State) (k : ℕ → ℕ → ℕ → ℕ → ℕ → ℕ → ℕ → ℕ → ℕ) :
    rounds ws s.a s.b s.c s.d s.e s.f s.g s.h k =
      k (ws.foldl round s).a (ws.foldl round s).b (ws.foldl round s).c (ws.foldl round s).d
        (ws.foldl round s).e (ws.foldl round s).f (ws.foldl round s).g (ws.foldl round s).h := by
  induction ws generalizing s with
  | nil => rfl
  | cons w ws ih =>
    rw [List.foldl_cons, ← ih (round s w)]
    have hnewA : (round s w).a = Nat.mod (Nat.add
        (Nat.add (Nat.add s.h w) (Nat.add (Nat.xor (Nat.xor (Nat.shiftRight (Nat.mul s.e 4294967297) 6)
          (Nat.shiftRight (Nat.mul s.e 4294967297) 11)) (Nat.shiftRight (Nat.mul s.e 4294967297) 25))
          (Nat.xor s.g (Nat.land s.e (Nat.xor s.f s.g)))))
        (Nat.add (Nat.xor (Nat.xor (Nat.shiftRight (Nat.mul s.a 4294967297) 2)
          (Nat.shiftRight (Nat.mul s.a 4294967297) 13)) (Nat.shiftRight (Nat.mul s.a 4294967297) 22))
          (Nat.xor (Nat.land s.a s.b) (Nat.land s.c (Nat.xor s.a s.b))))) 4294967296 := by
      change word (s.h + w + (bigSigma1 s.e + choose s.e s.f s.g) +
        (bigSigma0 s.a + majority s.a s.b s.c)) = word (s.h + w +
          ((twice s.e >>> 6 ^^^ twice s.e >>> 11 ^^^ twice s.e >>> 25) + choose s.e s.f s.g) +
          ((twice s.a >>> 2 ^^^ twice s.a >>> 13 ^^^ twice s.a >>> 22) + majority s.a s.b s.c))
      rw [bigSigma0_eq, bigSigma1_eq]
      simp only [word]
      omega
    have hnewE : (round s w).e = Nat.mod (Nat.add s.d
        (Nat.add (Nat.add s.h w) (Nat.add (Nat.xor (Nat.xor (Nat.shiftRight (Nat.mul s.e 4294967297) 6)
          (Nat.shiftRight (Nat.mul s.e 4294967297) 11)) (Nat.shiftRight (Nat.mul s.e 4294967297) 25))
          (Nat.xor s.g (Nat.land s.e (Nat.xor s.f s.g)))))) 4294967296 := by
      change word (s.d + (s.h + w + (bigSigma1 s.e + choose s.e s.f s.g))) = word (s.d + (s.h + w +
          ((twice s.e >>> 6 ^^^ twice s.e >>> 11 ^^^ twice s.e >>> 25) + choose s.e s.f s.g)))
      rw [bigSigma1_eq]
      simp only [word]
      omega
    rw [rounds]
    beta_reduce
    rw [← hnewA, ← hnewE]
    rfl

theorem slot_push (packed x start : ℕ) :
    slot (push packed x) (start + 32) = slot packed start := by
  change (packed * 4294967296 + x % 4294967296) >>> (start + 32) % 4294967296 =
    packed >>> start % 4294967296
  have hsplit : (packed * 4294967296 + x % 4294967296) >>> 32 = packed := by
    rw [Nat.shiftRight_eq_div_pow]
    omega
  rw [Nat.add_comm start 32, Nat.shiftRight_add, hsplit]

theorem slot_push_zero (packed x : ℕ) : slot (push packed x) 0 = word x := by
  change (packed * 4294967296 + x % 4294967296) >>> 0 % 4294967296 = x % 4294967296
  rw [Nat.shiftRight_zero]
  omega

theorem unpack_pack (a b c d e f g h : ℕ) :
    unpack (pack a b c d e f g h) =
      ⟨word a, word b, word c, word d, word e, word f, word g, word h⟩ := by
  simp only [unpack, pack, slot_push _ _ 192, slot_push _ _ 160, slot_push _ _ 128,
    slot_push _ _ 96, slot_push _ _ 64, slot_push _ _ 32, slot_push _ _ 0, slot_push_zero]

/-- Rounds on the words of a packed state, added to it. -/
theorem unpack_rounds (inputs : List ℕ) (packed : ℕ) :
    unpack (rounds inputs (slot packed 224) (slot packed 192) (slot packed 160) (slot packed 128)
      (slot packed 96) (slot packed 64) (slot packed 32) (slot packed 0) fun a b c d e f g h ↦
        pack (Nat.add (slot packed 224) a) (Nat.add (slot packed 192) b)
          (Nat.add (slot packed 160) c) (Nat.add (slot packed 128) d) (Nat.add (slot packed 96) e)
          (Nat.add (slot packed 64) f) (Nat.add (slot packed 32) g) (Nat.add (slot packed 0) h)) =
      add (unpack packed) (inputs.foldl round (unpack packed)) := by
  rw [show rounds inputs (slot packed 224) (slot packed 192) (slot packed 160) (slot packed 128)
    (slot packed 96) (slot packed 64) (slot packed 32) (slot packed 0) _ = _
      from rounds_eq inputs (unpack packed) _, unpack_pack]
  generalize inputs.foldl round (unpack packed) = last
  rfl

theorem unpack_packedCompressZero (packed : ℕ) :
    unpack (packedCompressZero packed) = compressZero (unpack packed) :=
  unpack_rounds roundConstants packed

/-- A run of zero blocks is evaluated on the packed state. -/
theorem iterate_compressZero (count packed : ℕ) :
    compressZero^[count] (unpack packed) = unpack (packedZeroRun count packed) := by
  induction count generalizing packed with
  | zero => rfl
  | succ count ih =>
    rw [Function.iterate_succ_apply, ← unpack_packedCompressZero, ih, packedZeroRun,
      strictly_apply]

end Sha256

end NevelCore.Foundations
