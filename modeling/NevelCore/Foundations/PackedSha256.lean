import NevelCore.Foundations.Sha256

/-!
# Digests on packed numbers

A second way to compute SHA-256, on which evaluation is fast: the state and the window of sixteen
schedule words are packed in one number each, and all operations are those on numbers themselves.
`packedSha256` computes the digest as a number from the message as a number, and `toList_sha256`
says that it is the digest of the standard. The schedule is generated word by word from the window
(`schedule_eq_stream`), and the window of a block is the block read as a big-endian number
(`slots_beValue`).
-/

set_option autoImplicit false
set_option relaxedAutoImplicit false

namespace NevelCore.Foundations

namespace Sha256

/-! ### The schedule as a stream -/

/-- The word behind a window of sixteen words. -/
def nextWord (window : List ℕ) : ℕ :=
  word (smallSigma1 (window.getD 14 0) + window.getD 9 0 +
    (smallSigma0 (window.getD 1 0) + window.getD 0 0))

/-- The first `count` words of the schedule that starts with a window. -/
def stream : ℕ → List ℕ → List ℕ
  | 0, _ => []
  | count + 1, window => window.headD 0 :: stream count (window.tail ++ [nextWord window])

theorem stream_eq_take {count : ℕ} {window : List ℕ} (h : count ≤ window.length) :
    stream count window = window.take count := by
  induction count generalizing window with
  | zero => rfl
  | succ count ih =>
    cases window with
    | nil => exact absurd h (Nat.not_succ_le_zero count)
    | cons first rest =>
      have hrest : count ≤ rest.length := Nat.le_of_succ_le_succ h
      have hlength : count ≤ (rest ++ [nextWord (first :: rest)]).length := by
        rw [List.length_append]
        exact Nat.le_add_right_of_le hrest
      rw [stream, List.tail_cons, ih hlength, List.take_append_of_le_length hrest]
      rfl

/-- The sixteen words a schedule held last word first goes on from, counted from its end. -/
theorem getD_window {ws : List ℕ} (h : 16 ≤ ws.length) {index : ℕ} (hindex : index < 16) :
    (ws.take 16).reverse.getD (15 - index) 0 = ws.getD index 0 := by
  have hlength : (ws.take 16).length = 16 := by
    rw [List.length_take]
    omega
  rw [List.getD_eq_getElem?_getD, List.getD_eq_getElem?_getD,
    List.getElem?_reverse (by omega), hlength, List.getElem?_take_of_lt (by omega)]
  congr 2
  omega

/-- The words of a schedule from sixteen words on, held last word first. -/
theorem reverse_extend (count : ℕ) {ws : List ℕ} (h : 16 ≤ ws.length) :
    (extend count ws).reverse =
      (ws.drop 16).reverse ++ stream (count + 16) (ws.take 16).reverse := by
  induction count generalizing ws with
  | zero =>
    have hlength : 16 ≤ (ws.take 16).reverse.length := by
      rw [List.length_reverse, List.length_take]
      omega
    rw [extend, Nat.zero_add, stream_eq_take hlength, List.take_of_length_le, ← List.reverse_append,
      List.take_append_drop]
    rw [List.length_reverse, List.length_take]
    omega
  | succ count ih =>
    have hdrop : ws.drop 15 = ws.getD 15 0 :: ws.drop 16 := by
      rw [List.drop_eq_getElem_cons (by omega), List.getD_eq_getElem?_getD,
        List.getElem?_eq_getElem (by omega), Option.getD_some]
    have hwindow : (ws.take 16).reverse = ws.getD 15 0 :: (ws.take 15).reverse := by
      rw [List.take_succ_eq_append_getElem (by omega), List.reverse_append,
        List.getD_eq_getElem?_getD, List.getElem?_eq_getElem (by omega), Option.getD_some]
      rfl
    have hnext : nextWord (ws.take 16).reverse = word (smallSigma1 (ws.getD 1 0) + ws.getD 6 0 +
        (smallSigma0 (ws.getD 14 0) + ws.getD 15 0)) := by
      rw [nextWord, getD_window h (show 1 < 16 by decide), getD_window h (show 6 < 16 by decide),
        getD_window h (show 14 < 16 by decide), getD_window h (show 15 < 16 by decide)]
    rw [extend, ih (by rw [List.length_cons]; omega), ← hnext, List.drop_succ_cons,
      List.take_succ_cons, hdrop, List.reverse_cons, List.reverse_cons, List.append_assoc, hwindow,
      Nat.add_right_comm count 1 16]
    rfl

/-- The schedule of a block is the stream of its sixteen words. -/
theorem schedule_eq_stream {block : List UInt8} (h : (words block).length = 16) :
    schedule block = stream 64 (words block) := by
  have hlength : 16 ≤ (words block).reverse.length := by rw [List.length_reverse, h]
  rw [schedule, reverse_extend 48 hlength, List.drop_of_length_le, List.take_of_length_le,
    List.reverse_reverse]
  · rfl
  · rw [List.length_reverse, h]
  · rw [List.length_reverse, h]

/-! ### The packed window -/

/-- The lowest `count` words of a number, the highest one first. -/
def slots : ℕ → ℕ → List ℕ
  | 0, _ => []
  | count + 1, packed => slot packed (32 * count) :: slots count packed

def packedSigma0 (x : ℕ) : ℕ :=
  Nat.xor (Nat.mod (Nat.xor (Nat.shiftRight (Nat.mul x 4294967297) 7)
    (Nat.shiftRight (Nat.mul x 4294967297) 18)) 4294967296) (Nat.shiftRight x 3)

def packedSigma1 (x : ℕ) : ℕ :=
  Nat.xor (Nat.mod (Nat.xor (Nat.shiftRight (Nat.mul x 4294967297) 17)
    (Nat.shiftRight (Nat.mul x 4294967297) 19)) 4294967296) (Nat.shiftRight x 10)

/-- `stream` on a packed window. -/
def packedStream : ℕ → ℕ → List ℕ
  | 0, _ => []
  | count + 1, window => slot window 480 :: packedStream count (push window
      (Nat.add (Nat.add (packedSigma1 (slot window 32)) (slot window 192))
        (Nat.add (packedSigma0 (slot window 448)) (slot window 480))))

/-- The rounds with some inputs, on a packed state. -/
def packedRounds (inputs : List ℕ) (packed : ℕ) : ℕ :=
  rounds inputs (slot packed 224) (slot packed 192) (slot packed 160) (slot packed 128)
    (slot packed 96) (slot packed 64) (slot packed 32) (slot packed 0) fun a b c d e f g h ↦
      pack (Nat.add (slot packed 224) a) (Nat.add (slot packed 192) b)
        (Nat.add (slot packed 160) c) (Nat.add (slot packed 128) d) (Nat.add (slot packed 96) e)
        (Nat.add (slot packed 64) f) (Nat.add (slot packed 32) g) (Nat.add (slot packed 0) h)

/-- `compress` on a packed state and a packed window. -/
def packedCompress (packed window : ℕ) : ℕ :=
  packedRounds (List.zipWith Nat.add roundConstants (packedStream 64 window)) packed

/-- The packed initial state. -/
def packedInitial : ℕ :=
  0x6a09e667bb67ae853c6ef372a54ff53a510e527f9b05688c1f83d9ab5be0cd19

/-- `compress` on the lowest `count` blocks of a number, evaluating the state after every block. -/
def packedFold : ℕ → ℕ → ℕ → ℕ
  | 0, _, packed => packed
  | count + 1, number, packed =>
    strictly (packedFold count number)
      (packedCompress packed (Nat.shiftRight number (Nat.mul 512 count)))

end Sha256

open Sha256

/-- The digest, as a number, of a message of some length, given as a number. -/
def packedSha256 (length number : ℕ) : ℕ :=
  packedFold ((length + 8) / 64 + 1)
    (number * 256 ^ (padding length).length + beValue (padding length)) packedInitial

namespace Sha256

theorem smallSigma0_eq_packed (x : ℕ) : smallSigma0 x = packedSigma0 x := by
  change word (twice x >>> 7) ^^^ word (twice x >>> 18) ^^^ x >>> 3 =
    word (twice x >>> 7 ^^^ twice x >>> 18) ^^^ x >>> 3
  simp only [word]
  rw [show 4294967296 = 2 ^ 32 from rfl, ← Nat.xor_mod_two_pow]

theorem smallSigma1_eq_packed (x : ℕ) : smallSigma1 x = packedSigma1 x := by
  change word (twice x >>> 17) ^^^ word (twice x >>> 19) ^^^ x >>> 10 =
    word (twice x >>> 17 ^^^ twice x >>> 19) ^^^ x >>> 10
  simp only [word]
  rw [show 4294967296 = 2 ^ 32 from rfl, ← Nat.xor_mod_two_pow]

theorem slots_push (count packed x : ℕ) :
    slots (count + 1) (push packed x) = slots count packed ++ [word x] := by
  induction count with
  | zero => exact congrArg (· :: []) (slot_push_zero packed x)
  | succ count ih =>
    rw [slots, ih, slots, Nat.mul_succ, slot_push]
    rfl

/-- The packed window gives the same stream. -/
theorem packedStream_eq (count window : ℕ) :
    packedStream count window = stream count (slots 16 window) := by
  induction count generalizing window with
  | zero => rfl
  | succ count ih =>
    rw [packedStream, stream, ih, slots_push, ← smallSigma0_eq_packed, ← smallSigma1_eq_packed]
    rfl

theorem unpack_packedRounds (inputs : List ℕ) (packed : ℕ) :
    unpack (packedRounds inputs packed) =
      add (unpack packed) (inputs.foldl round (unpack packed)) :=
  unpack_rounds inputs packed

/-! ### Blocks as windows -/

theorem slot_add_of_lt (high : ℕ) {low count : ℕ} (hlow : low < 2 ^ (32 * count)) :
    slot (high * 2 ^ (32 * count) + low) (32 * count) = word high := by
  change (high * 2 ^ (32 * count) + low) >>> (32 * count) % 4294967296 = high % 4294967296
  rw [Nat.shiftRight_eq_div_pow, Nat.add_comm, Nat.add_mul_div_right _ _ (Nat.two_pow_pos _),
    Nat.div_eq_of_lt hlow, Nat.zero_add]

theorem slot_add_of_le (high low : ℕ) {count index : ℕ} (hindex : index + 1 ≤ count) :
    slot (high * 2 ^ (32 * count) + low) (32 * index) = slot low (32 * index) := by
  have hsplit :
      2 ^ (32 * count) = 2 ^ (32 * (count - index - 1)) * 4294967296 * 2 ^ (32 * index) := by
    rw [show 4294967296 = 2 ^ 32 from rfl, ← Nat.pow_add, ← Nat.pow_add]
    congr 1
    omega
  change (high * 2 ^ (32 * count) + low) >>> (32 * index) % 4294967296 =
    low >>> (32 * index) % 4294967296
  rw [Nat.shiftRight_eq_div_pow, Nat.shiftRight_eq_div_pow, hsplit, ← Nat.mul_assoc, Nat.add_comm,
    Nat.add_mul_div_right _ _ (Nat.two_pow_pos _), ← Nat.mul_assoc, Nat.add_mul_mod_self_right]

theorem slots_add (high low : ℕ) {count index : ℕ} (hindex : index ≤ count) :
    slots index (high * 2 ^ (32 * count) + low) = slots index low := by
  induction index with
  | zero => rfl
  | succ index ih => rw [slots, slots, slot_add_of_le high low hindex, ih (by omega)]

/-- The words of a byte list are the slots of the number its bytes write. -/
theorem slots_beValue {count : ℕ} {bytes : List UInt8} (h : bytes.length = 4 * count) :
    slots count (beValue bytes) = words bytes := by
  induction count generalizing bytes with
  | zero =>
    rw [List.eq_nil_of_length_eq_zero h]
    rfl
  | succ count ih =>
    match bytes, h with
    | p :: q :: r :: s :: rest, h =>
      have hrest : rest.length = 4 * count := by
        simp only [List.length_cons] at h
        omega
      have hlow : beValue rest < 2 ^ (32 * count) := by
        have hlt := beValue_lt rest
        rwa [hrest, show 256 = 2 ^ 8 from rfl, ← Nat.pow_mul, ← Nat.mul_assoc] at hlt
      have hvalue : beValue (p :: q :: r :: s :: rest) =
          (((p.toNat * 256 + q.toNat) * 256 + r.toNat) * 256 + s.toNat) * 2 ^ (32 * count) +
            beValue rest := by
        have hfour : beValue [p, q, r, s] =
            ((p.toNat * 256 + q.toNat) * 256 + r.toNat) * 256 + s.toNat := by
          simp only [beValue, List.foldl_cons, List.foldl_nil]
          omega
        rw [show p :: q :: r :: s :: rest = [p, q, r, s] ++ rest from rfl, beValue_append, hfour,
          hrest, show 256 = 2 ^ 8 from rfl, ← Nat.pow_mul, ← Nat.mul_assoc]
      have hp := p.toNat_lt
      have hq := q.toNat_lt
      have hr := r.toNat_lt
      have hs := s.toNat_lt
      rw [hvalue, slots, slot_add_of_lt _ hlow, slots_add _ _ le_rfl, ih hrest, words, word,
        Nat.mod_eq_of_lt (by omega)]

/-- Compression on the packed state, with a window that has the block in its lowest bits. -/
theorem unpack_packedCompress (packed high : ℕ) {block : List UInt8} (h : block.length = 64) :
    unpack (packedCompress packed (high * 2 ^ 512 + beValue block)) =
      compress (unpack packed) block := by
  have hwords : slots 16 (high * 2 ^ 512 + beValue block) = words block := by
    rw [show 512 = 32 * 16 from rfl, slots_add _ _ le_rfl]
    exact slots_beValue h
  have hlength : (words block).length = 16 := by
    rw [← hwords]
    rfl
  rw [packedCompress, unpack_packedRounds, packedStream_eq, hwords, ← schedule_eq_stream hlength]
  rfl

theorem unpack_packedFold {count : ℕ} {bytes : List UInt8} (h : bytes.length = 64 * count)
    (high packed : ℕ) :
    unpack (packedFold count (high * 2 ^ (512 * count) + beValue bytes) packed) =
      (blocks count bytes).foldl compress (unpack packed) := by
  induction count generalizing bytes high packed with
  | zero => rfl
  | succ count ih =>
    have hblock : (bytes.take 64).length = 64 := by
      rw [List.length_take]
      omega
    have hrest : (bytes.drop 64).length = 64 * count := by
      rw [List.length_drop]
      omega
    have hpow : 256 ^ (64 * count) = 2 ^ (512 * count) := by
      rw [show 256 = 2 ^ 8 from rfl, ← Nat.pow_mul, ← Nat.mul_assoc]
    have hlow : beValue (bytes.drop 64) < 2 ^ (512 * count) := by
      rw [← hpow, ← hrest]
      exact beValue_lt _
    have hnumber : high * 2 ^ (512 * (count + 1)) + beValue bytes =
        (high * 2 ^ 512 + beValue (bytes.take 64)) * 2 ^ (512 * count) +
          beValue (bytes.drop 64) := by
      conv_lhs => rw [← List.take_append_drop 64 bytes]
      rw [beValue_append, hrest, hpow, Nat.mul_succ, Nat.pow_add, ← Nat.mul_assoc, Nat.add_mul,
        Nat.mul_right_comm high, Nat.add_assoc]
    have hwindow : Nat.shiftRight (high * 2 ^ (512 * (count + 1)) + beValue bytes)
        (Nat.mul 512 count) = high * 2 ^ 512 + beValue (bytes.take 64) := by
      rw [hnumber]
      change _ >>> (512 * count) = _
      rw [Nat.shiftRight_eq_div_pow, Nat.add_comm, Nat.add_mul_div_right _ _ (Nat.two_pow_pos _),
        Nat.div_eq_of_lt hlow, Nat.zero_add]
    rw [packedFold, strictly_apply, hwindow, hnumber, ih hrest, unpack_packedCompress _ _ hblock,
      blocks, List.foldl_cons]

theorem push_lt {packed bound : ℕ} (h : packed < bound) (x : ℕ) :
    push packed x < bound * 4294967296 := by
  change packed * 4294967296 + x % 4294967296 < bound * 4294967296
  omega

theorem pack_lt (a b c d e f g h : ℕ) : pack a b c d e f g h < 256 ^ 32 :=
  push_lt (push_lt (push_lt (push_lt (push_lt (push_lt (push_lt (push_lt Nat.zero_lt_one a) b) c) d)
    e) f) g) h

theorem packedRounds_lt (inputs : List ℕ) (packed : ℕ) : packedRounds inputs packed < 256 ^ 32 := by
  rw [packedRounds, show rounds inputs (slot packed 224) (slot packed 192) (slot packed 160)
    (slot packed 128) (slot packed 96) (slot packed 64) (slot packed 32) (slot packed 0) _ = _ from
      rounds_eq inputs (unpack packed) _]
  exact pack_lt _ _ _ _ _ _ _ _

theorem packedFold_lt (count number : ℕ) {packed : ℕ} (h : packed < 256 ^ 32) :
    packedFold count number packed < 256 ^ 32 := by
  induction count generalizing packed with
  | zero => exact h
  | succ count ih =>
    rw [packedFold, strictly_apply]
    exact ih (packedRounds_lt _ _)

theorem length_padding (length : ℕ) :
    length + (padding length).length = 64 * ((length + 8) / 64 + 1) := by
  simp only [padding, List.cons_append, List.length_cons, List.length_append, List.length_replicate,
    length_beBytes]
  omega

theorem flatMap_slots (count packed : ℕ) :
    (slots count packed).flatMap (beBytes 4) = beBytes (4 * count) packed := by
  induction count with
  | zero => rfl
  | succ count ih =>
    have hslot : beBytes 4 (slot packed (32 * count)) = beBytes 4 (packed / 256 ^ (4 * count)) := by
      change (leBytes 4 (packed >>> (32 * count) % 256 ^ 4)).reverse = _
      rw [leBytes_mod, Nat.shiftRight_eq_div_pow, show 256 = 2 ^ 8 from rfl, ← Nat.pow_mul,
        ← Nat.mul_assoc]
      rfl
    rw [slots, List.flatMap_cons, ih, hslot, Nat.mul_succ, Nat.add_comm, beBytes_add]

theorem stateBytes_unpack (packed : ℕ) : stateBytes (unpack packed) = beBytes 32 packed := by
  rw [← flatMap_slots 8 packed]
  simp only [stateBytes, unpack, slots, List.flatMap_cons, List.flatMap_nil, List.append_nil,
    List.append_assoc]

end Sha256

/-- The digest of a message is the number that `packedSha256` computes from it. -/
theorem toList_sha256 (message : List UInt8) :
    (sha256 message).toList = beBytes 32 (packedSha256 message.length (beValue message)) := by
  have hlength : (message ++ padding message.length).length =
      64 * ((message.length + 8) / 64 + 1) := by
    rw [List.length_append, length_padding]
  have hfold := unpack_packedFold hlength 0 packedInitial
  rw [Nat.zero_mul, Nat.zero_add, beValue_append] at hfold
  change stateBytes (absorb message) = _
  rw [← stateBytes_unpack, packedSha256, hfold]
  rfl

theorem packedSha256_lt (length number : ℕ) : packedSha256 length number < 256 ^ 32 :=
  packedFold_lt _ _ (by decide)

end NevelCore.Foundations
