import NevelCore.Foundations.Bytes

/-!
# AES in Galois/counter mode

The block cipher AES, for keys of 16, 24 and 32 bytes, and the mode of operation in which the
standard library's package `cipher` of Go uses it: the plaintext is hidden by a stream that comes
from the counter, and a tag of 16 bytes depends on the ciphertext and on the additional data. What
is sealed can be opened (`openGcm_sealGcm`).
-/

set_option autoImplicit false
set_option relaxedAutoImplicit false

namespace NevelCore.Foundations.Aes

/-! ### The block cipher -/

def sbox : List UInt8 :=
  [0x63, 0x7c, 0x77, 0x7b, 0xf2, 0x6b, 0x6f, 0xc5, 0x30, 0x01, 0x67, 0x2b, 0xfe, 0xd7, 0xab, 0x76,
    0xca, 0x82, 0xc9, 0x7d, 0xfa, 0x59, 0x47, 0xf0, 0xad, 0xd4, 0xa2, 0xaf, 0x9c, 0xa4, 0x72, 0xc0,
    0xb7, 0xfd, 0x93, 0x26, 0x36, 0x3f, 0xf7, 0xcc, 0x34, 0xa5, 0xe5, 0xf1, 0x71, 0xd8, 0x31, 0x15,
    0x04, 0xc7, 0x23, 0xc3, 0x18, 0x96, 0x05, 0x9a, 0x07, 0x12, 0x80, 0xe2, 0xeb, 0x27, 0xb2, 0x75,
    0x09, 0x83, 0x2c, 0x1a, 0x1b, 0x6e, 0x5a, 0xa0, 0x52, 0x3b, 0xd6, 0xb3, 0x29, 0xe3, 0x2f, 0x84,
    0x53, 0xd1, 0x00, 0xed, 0x20, 0xfc, 0xb1, 0x5b, 0x6a, 0xcb, 0xbe, 0x39, 0x4a, 0x4c, 0x58, 0xcf,
    0xd0, 0xef, 0xaa, 0xfb, 0x43, 0x4d, 0x33, 0x85, 0x45, 0xf9, 0x02, 0x7f, 0x50, 0x3c, 0x9f, 0xa8,
    0x51, 0xa3, 0x40, 0x8f, 0x92, 0x9d, 0x38, 0xf5, 0xbc, 0xb6, 0xda, 0x21, 0x10, 0xff, 0xf3, 0xd2,
    0xcd, 0x0c, 0x13, 0xec, 0x5f, 0x97, 0x44, 0x17, 0xc4, 0xa7, 0x7e, 0x3d, 0x64, 0x5d, 0x19, 0x73,
    0x60, 0x81, 0x4f, 0xdc, 0x22, 0x2a, 0x90, 0x88, 0x46, 0xee, 0xb8, 0x14, 0xde, 0x5e, 0x0b, 0xdb,
    0xe0, 0x32, 0x3a, 0x0a, 0x49, 0x06, 0x24, 0x5c, 0xc2, 0xd3, 0xac, 0x62, 0x91, 0x95, 0xe4, 0x79,
    0xe7, 0xc8, 0x37, 0x6d, 0x8d, 0xd5, 0x4e, 0xa9, 0x6c, 0x56, 0xf4, 0xea, 0x65, 0x7a, 0xae, 0x08,
    0xba, 0x78, 0x25, 0x2e, 0x1c, 0xa6, 0xb4, 0xc6, 0xe8, 0xdd, 0x74, 0x1f, 0x4b, 0xbd, 0x8b, 0x8a,
    0x70, 0x3e, 0xb5, 0x66, 0x48, 0x03, 0xf6, 0x0e, 0x61, 0x35, 0x57, 0xb9, 0x86, 0xc1, 0x1d, 0x9e,
    0xe1, 0xf8, 0x98, 0x11, 0x69, 0xd9, 0x8e, 0x94, 0x9b, 0x1e, 0x87, 0xe9, 0xce, 0x55, 0x28, 0xdf,
    0x8c, 0xa1, 0x89, 0x0d, 0xbf, 0xe6, 0x42, 0x68, 0x41, 0x99, 0x2d, 0x0f, 0xb0, 0x54, 0xbb, 0x16]

def subByte (b : UInt8) : UInt8 := sbox.getD b.toNat 0

/-- Twice a byte, as a polynomial. -/
def double (b : UInt8) : UInt8 := (b <<< 1) ^^^ if b < 0x80 then 0 else 0x1b

def xorBytes (first second : List UInt8) : List UInt8 := List.zipWith (· ^^^ ·) first second

/-- The constant of a round of the key expansion. -/
def roundConstant (round : ℕ) : UInt8 := double^[round - 1] 1

/-- The next word of the expanded key, whose words are given from the last one back. -/
def nextWord (keyWords count : ℕ) (words : List (List UInt8)) : List UInt8 :=
  let last := words.headD []
  let mixed :=
    if count % keyWords = 0 then
      xorBytes ((last.rotate 1).map subByte) [roundConstant (count / keyWords), 0, 0, 0]
    else if 6 < keyWords ∧ count % keyWords = 4 then last.map subByte
    else last
  xorBytes (words.getD (keyWords - 1) []) mixed

/-- So many more words of the expanded key. -/
def expandWords (keyWords : ℕ) : ℕ → ℕ → List (List UInt8) → List (List UInt8)
  | 0, _, words => words
  | left + 1, count, words =>
    expandWords keyWords left (count + 1) (nextWord keyWords count words :: words)

/-- The keys of the rounds. -/
def roundKeys (key : List UInt8) : List (List UInt8) :=
  let keyWords := key.length / 4
  let first := (List.range keyWords).map fun i ↦ (key.drop (4 * i)).take 4
  let words := (expandWords keyWords (4 * (keyWords + 7) - keyWords) keyWords first.reverse).reverse
  (List.range (keyWords + 7)).map fun i ↦ ((words.drop (4 * i)).take 4).flatten

/-- Adds the key of a round to the sixteen bytes of a block. -/
def addRoundKey (key state : List UInt8) : List UInt8 :=
  (List.range 16).map fun i ↦ state.getD i 0 ^^^ key.getD i 0

/-- The rows of a block, which stand across its columns of four bytes, are shifted. -/
def shiftRows (state : List UInt8) : List UInt8 :=
  [0, 5, 10, 15, 4, 9, 14, 3, 8, 13, 2, 7, 12, 1, 6, 11].map fun i ↦ state.getD i 0

def mixColumns : List UInt8 → List UInt8
  | a :: b :: c :: d :: state =>
    (double a ^^^ double b ^^^ b ^^^ c ^^^ d) :: (a ^^^ double b ^^^ double c ^^^ c ^^^ d) ::
      (a ^^^ b ^^^ double c ^^^ double d ^^^ d) :: (double a ^^^ a ^^^ b ^^^ c ^^^ double d) ::
      mixColumns state
  | state => state

/-- The rounds after the first key, of which the last one does not mix the columns. -/
def encryptRounds (state : List UInt8) : List (List UInt8) → List UInt8
  | [] => state
  | [key] => addRoundKey key (shiftRows (state.map subByte))
  | key :: keys => encryptRounds (addRoundKey key (mixColumns (shiftRows (state.map subByte)))) keys

/-- `Encrypt` on a block of sixteen bytes. -/
def encryptBlock (key block : List UInt8) : List UInt8 :=
  match roundKeys key with
  | [] => addRoundKey [] block
  | first :: keys => encryptRounds (addRoundKey first block) keys

theorem length_addRoundKey (key state : List UInt8) : (addRoundKey key state).length = 16 := by
  rw [addRoundKey, List.length_map, List.length_range]

theorem length_encryptRounds {state : List UInt8} (h : state.length = 16)
    (keys : List (List UInt8)) : (encryptRounds state keys).length = 16 := by
  induction keys generalizing state with
  | nil => exact h
  | cons key keys ih =>
    cases keys with
    | nil => exact length_addRoundKey _ _
    | cons key' keys => exact ih (length_addRoundKey _ _)

theorem length_encryptBlock (key block : List UInt8) : (encryptBlock key block).length = 16 := by
  rw [encryptBlock]
  cases roundKeys key with
  | nil => exact length_addRoundKey _ _
  | cons first keys => exact length_encryptRounds (length_addRoundKey _ _) keys

/-! ### The mode of operation -/

/-- The cipher of a nonce of twelve bytes and a counter. -/
def counterBlock (key nonce : List UInt8) (counter : ℕ) : List UInt8 :=
  encryptBlock key (nonce ++ beBytes 4 counter)

/-- The blocks of a stream that hide so many bytes. -/
def keyStream (key nonce : List UInt8) (length : ℕ) : List UInt8 :=
  (List.range ((length + 15) / 16)).flatMap fun i ↦ counterBlock key nonce (i + 2)

/-- One step of a product of polynomials over two elements, with the coefficient of the lowest power
first, modulo the polynomial of the mode. -/
def productStep (x : ℕ) (state : ℕ × ℕ) (bit : ℕ) : ℕ × ℕ :=
  (if x.testBit (127 - bit) then state.1 ^^^ state.2 else state.1,
    if state.2 % 2 = 1 then (state.2 / 2) ^^^ (0xe1 <<< 120) else state.2 / 2)

def product (x y : ℕ) : ℕ := ((List.range 128).foldl (productStep x) (0, y)).1

/-- The numbers of blocks of sixteen bytes, the last one filled up with zeros. -/
def blockValues (bytes : List UInt8) : List ℕ :=
  (List.range ((bytes.length + 15) / 16)).map fun i ↦
    let block := (bytes.drop (16 * i)).take 16
    beValue (block ++ List.replicate (16 - block.length) 0)

def gcmTag (key nonce ciphertext data : List UInt8) : List UInt8 :=
  let subkey := beValue (encryptBlock key (List.replicate 16 0))
  let lengths := 8 * data.length * 2 ^ 64 + 8 * ciphertext.length
  let hash := (blockValues data ++ blockValues ciphertext ++ [lengths]).foldl
    (fun hash block ↦ product (hash ^^^ block) subkey) 0
  beBytes 16 (hash ^^^ beValue (counterBlock key nonce 1))

/-- `Seal`. -/
def sealGcm (key nonce plain data : List UInt8) : List UInt8 :=
  let ciphertext := xorBytes plain (keyStream key nonce plain.length)
  ciphertext ++ gcmTag key nonce ciphertext data

/-- `Open`. -/
def openGcm (key nonce text data : List UInt8) : Option (List UInt8) :=
  let ciphertext := text.take (text.length - 16)
  if text.length < 16 ∨ text.drop (text.length - 16) ≠ gcmTag key nonce ciphertext data then none
  else some (xorBytes ciphertext (keyStream key nonce ciphertext.length))

theorem length_keyStream (key nonce : List UInt8) (length : ℕ) :
    (keyStream key nonce length).length = 16 * ((length + 15) / 16) := by
  have hblocks : ∀ count, ((List.range count).flatMap fun i ↦
      counterBlock key nonce (i + 2)).length = 16 * count := by
    intro count
    induction count with
    | zero => rfl
    | succ count ih =>
      rw [List.range_succ, List.flatMap_append, List.length_append, ih, List.flatMap_singleton,
        counterBlock, length_encryptBlock]
      omega
  exact hblocks _

theorem xorBytes_xorBytes {bytes stream : List UInt8} (h : bytes.length ≤ stream.length) :
    xorBytes (xorBytes bytes stream) stream = bytes := by
  induction bytes generalizing stream with
  | nil => rfl
  | cons byte bytes ih =>
    cases stream with
    | nil => exact absurd h (by simp)
    | cons s stream =>
      have hbyte : byte ^^^ s ^^^ s = byte := by
        rw [UInt8.xor_assoc, UInt8.xor_self, UInt8.xor_zero]
      have hrest := ih (Nat.le_of_succ_le_succ h)
      change (byte ^^^ s ^^^ s) :: xorBytes (xorBytes bytes stream) stream = _
      rw [hbyte, hrest]

theorem length_gcmTag (key nonce ciphertext data : List UInt8) :
    (gcmTag key nonce ciphertext data).length = 16 := length_beBytes 16 _

/-- What is sealed can be opened, with the same key, nonce and additional data. -/
theorem openGcm_sealGcm (key nonce plain data : List UInt8) :
    openGcm key nonce (sealGcm key nonce plain data) data = some plain := by
  have hstream : plain.length ≤ (keyStream key nonce plain.length).length := by
    rw [length_keyStream]
    omega
  have hcipher : (xorBytes plain (keyStream key nonce plain.length)).length = plain.length := by
    rw [xorBytes, List.length_zipWith]
    omega
  have hback := xorBytes_xorBytes hstream
  have htag := length_gcmTag key nonce (xorBytes plain (keyStream key nonce plain.length)) data
  rw [openGcm, sealGcm]
  generalize xorBytes plain (keyStream key nonce plain.length) = ciphertext at hcipher hback htag ⊢
  rw [List.length_append, htag, Nat.add_sub_cancel, List.take_left, List.drop_left, if_neg,
    hcipher, hback]
  rintro (hlt | hne)
  · omega
  · exact hne rfl

/-- A block of zeros under a key of zeros. -/
example : sealGcm (List.replicate 32 0) (List.replicate 12 0) (List.replicate 16 0) [] =
    [0xce, 0xa7, 0x40, 0x3d, 0x4d, 0x60, 0x6b, 0x6e, 0x07, 0x4e, 0xc5, 0xd3, 0xba, 0xf3, 0x9d, 0x18,
      0xd0, 0xd1, 0xc8, 0xa7, 0x99, 0x99, 0x6b, 0xf0, 0x26, 0x5b, 0x98, 0xb5, 0xd4, 0x8a, 0xb9,
      0x19] := by decide +kernel

end NevelCore.Foundations.Aes
