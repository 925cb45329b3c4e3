import Mathlib.Algebra.Ring.Int.Defs
import Mathlib.Algebra.Ring.Nat
import Mathlib.Data.Nat.Basic
import Mathlib.Data.List.Basic
import Mathlib.Data.List.Induction

/-!
# Slices, fixed arrays and byte numerals

A slice is a list together with the bound that its length fits the signed 32-bit range, which is
what the built-in length of a slice can hold on every platform. `Bytes32` is the fixed array of 32
bytes. `leBytes` and `beBytes` write a number in a fixed count of bytes, least or most significant
first, and `leValue` and `beValue` read one back (`leValue_leBytes`, `leBytes_leValue`). Numerals
with the most significant byte first are the reversed ones (`beValue_eq_leValue_reverse`).
`encodeHex` writes bytes as a text, which is ASCII (`validUTF8_encodeHex`).
-/

set_option autoImplicit false
set_option relaxedAutoImplicit false

namespace NevelCore.Foundations

/-- A slice, a list whose length is within the range of a signed 32-bit integer. -/
structure Slice (α : Type) where
  toList : List α
  length_lt : toList.length < 2 ^ 31
deriving DecidableEq

namespace Slice

variable {α : Type}

@[ext] theorem ext {first second : Slice α} (h : first.toList = second.toList) :
    first = second := by
  cases first
  cases second
  cases h
  rfl

/-- The slice of a list. A list longer than a slice can be is cut to the greatest length. -/
def ofList (items : List α) : Slice α :=
  ⟨items.take (2 ^ 31 - 1), by
    have h := List.length_take_le (2 ^ 31 - 1) items
    omega⟩

theorem toList_ofList {items : List α} (h : items.length < 2 ^ 31) :
    (ofList items).toList = items :=
  List.take_of_length_le (by omega)

end Slice

/-- An array of 32 bytes. -/
structure Bytes32 where
  toList : List UInt8
  length_eq : toList.length = 32
deriving DecidableEq

namespace Bytes32

@[ext] theorem ext {first second : Bytes32} (h : first.toList = second.toList) :
    first = second := by
  cases first
  cases second
  cases h
  rfl

/-- The array of 32 zero bytes. -/
def zero : Bytes32 := ⟨List.replicate 32 0, by decide⟩

/-- The first 32 bytes, filled up with zeros. -/
def padded (bytes : List UInt8) : Bytes32 := ⟨(bytes ++ List.replicate 32 0).take 32, by simp⟩

theorem padded_toList (array : Bytes32) : padded array.toList = array := by
  refine Bytes32.ext ?_
  change (array.toList ++ List.replicate 32 0).take 32 = array.toList
  rw [← array.length_eq, List.take_left]

theorem length_zipWith (f : UInt8 → UInt8 → UInt8) (first second : Bytes32) :
    (List.zipWith f first.toList second.toList).length = 32 := by
  rw [List.length_zipWith, first.length_eq, second.length_eq, Nat.min_self]

/-- The exclusive or, byte by byte. -/
def xor (first second : Bytes32) : Bytes32 :=
  ⟨List.zipWith (· ^^^ ·) first.toList second.toList, length_zipWith _ first second⟩

end Bytes32

/-! ### Numbers as bytes -/

/-- The `count` low bytes of a number, least significant first. -/
def leBytes : ℕ → ℕ → List UInt8
  | 0, _ => []
  | count + 1, value => UInt8.ofNat (value % 256) :: leBytes count (value / 256)

/-- The number whose bytes, least significant first, are given. -/
def leValue : List UInt8 → ℕ
  | [] => 0
  | byte :: rest => byte.toNat + 256 * leValue rest

/-- The `count` low bytes of a number, most significant first. -/
def beBytes (count value : ℕ) : List UInt8 := (leBytes count value).reverse

/-- The number whose bytes, most significant first, are given. -/
def beValue (bytes : List UInt8) : ℕ := bytes.foldl (fun value byte ↦ 256 * value + byte.toNat) 0

@[simp] theorem length_leBytes (count value : ℕ) : (leBytes count value).length = count := by
  induction count generalizing value with
  | zero => rfl
  | succ count ih => rw [leBytes, List.length_cons, ih]

@[simp] theorem length_beBytes (count value : ℕ) : (beBytes count value).length = count := by
  rw [beBytes, List.length_reverse, length_leBytes]

/-- Reading back a number written in `count` bytes gives it modulo `256 ^ count`. -/
theorem leValue_leBytes (count value : ℕ) :
    leValue (leBytes count value) = value % 256 ^ count := by
  induction count generalizing value with
  | zero => simp [leBytes, leValue, Nat.mod_one]
  | succ count ih =>
    have hbyte : (UInt8.ofNat (value % 256)).toNat = value % 256 := by
      simp
    rw [leBytes, leValue, ih, hbyte, Nat.pow_succ', Nat.mod_mul]

/-- Writing the number read from some bytes gives these bytes back. -/
theorem leBytes_leValue (bytes : List UInt8) : leBytes bytes.length (leValue bytes) = bytes := by
  induction bytes with
  | nil => rfl
  | cons byte rest ih =>
    have hbyte : byte.toNat < 256 := byte.toNat_lt
    have hlow : (byte.toNat + 256 * leValue rest) % 256 = byte.toNat := by omega
    have hhigh : (byte.toNat + 256 * leValue rest) / 256 = leValue rest := by omega
    rw [List.length_cons, leBytes, leValue, hlow, hhigh, ih, UInt8.ofNat_toNat]

/-- The number read from `count` bytes is below `256 ^ count`. -/
theorem leValue_lt (bytes : List UInt8) : leValue bytes < 256 ^ bytes.length := by
  have h := leValue_leBytes bytes.length (leValue bytes)
  rw [leBytes_leValue] at h
  rw [h]
  exact Nat.mod_lt _ (Nat.pow_pos (by decide))

theorem leBytes_mod (count value : ℕ) :
    leBytes count (value % 256 ^ count) = leBytes count value := by
  have h := leBytes_leValue (leBytes count value)
  rwa [length_leBytes, leValue_leBytes] at h

theorem leBytes_add (low high value : ℕ) :
    leBytes (low + high) value = leBytes low value ++ leBytes high (value / 256 ^ low) := by
  induction low generalizing value with
  | zero => rw [Nat.zero_add, Nat.pow_zero, Nat.div_one, leBytes, List.nil_append]
  | succ low ih =>
    rw [Nat.add_right_comm, leBytes, leBytes, ih, Nat.div_div_eq_div_mul, Nat.pow_succ',
      List.cons_append]

theorem leValue_append (low high : List UInt8) :
    leValue (low ++ high) = leValue low + 256 ^ low.length * leValue high := by
  induction low with
  | nil => rw [List.nil_append, leValue, List.length_nil, Nat.pow_zero, Nat.one_mul, Nat.zero_add]
  | cons byte low ih =>
    rw [List.cons_append, leValue, leValue, ih, List.length_cons, Nat.pow_succ', Nat.mul_add,
      Nat.mul_assoc, Nat.add_assoc]

theorem beValue_eq_leValue_reverse (bytes : List UInt8) :
    beValue bytes = leValue bytes.reverse := by
  induction bytes using List.reverseRecOn with
  | nil => rfl
  | append_singleton bytes byte ih =>
    rw [beValue, List.foldl_append, ← beValue, ih, List.reverse_append]
    exact Nat.add_comm _ _

theorem beValue_lt (bytes : List UInt8) : beValue bytes < 256 ^ bytes.length := by
  have h := leValue_lt bytes.reverse
  rwa [← beValue_eq_leValue_reverse, List.length_reverse] at h

theorem beValue_append (high low : List UInt8) :
    beValue (high ++ low) = beValue high * 256 ^ low.length + beValue low := by
  rw [beValue_eq_leValue_reverse, List.reverse_append, leValue_append, List.length_reverse,
    ← beValue_eq_leValue_reverse, ← beValue_eq_leValue_reverse, Nat.add_comm, Nat.mul_comm]

theorem beValue_beBytes (count value : ℕ) :
    beValue (beBytes count value) = value % 256 ^ count := by
  rw [beValue_eq_leValue_reverse, beBytes, List.reverse_reverse, leValue_leBytes]

theorem beBytes_beValue (bytes : List UInt8) : beBytes bytes.length (beValue bytes) = bytes := by
  rw [beBytes, beValue_eq_leValue_reverse, ← List.length_reverse, leBytes_leValue,
    List.reverse_reverse]

theorem beBytes_add (high low value : ℕ) :
    beBytes (high + low) value = beBytes high (value / 256 ^ low) ++ beBytes low value := by
  rw [beBytes, Nat.add_comm, leBytes_add, List.reverse_append, beBytes, beBytes]

/-! ### Bytes as text -/

/-- A hexadecimal digit, in lower case. -/
def hexCharacter (digit : UInt8) : UInt8 := if digit < 10 then 0x30 + digit else 0x57 + digit

/-- `EncodeToString` of the standard library's package `hex`. -/
def encodeHex (bytes : List UInt8) : List UInt8 :=
  bytes.flatMap fun byte : UInt8 ↦ [hexCharacter (byte >>> 4), hexCharacter (byte &&& 0x0f)]

theorem encodeHex_cons (byte : UInt8) (bytes : List UInt8) :
    encodeHex (byte :: bytes) =
      hexCharacter (byte >>> 4) :: hexCharacter (byte &&& 0x0f) :: encodeHex bytes :=
  rfl

theorem zipWith_xor_zero (bytes : List UInt8) :
    List.zipWith (· ^^^ ·) (List.replicate bytes.length 0) bytes = bytes := by
  induction bytes with
  | nil => rfl
  | cons byte bytes ih =>
    rw [List.length_cons, List.replicate_succ, List.zipWith_cons_cons, ih, UInt8.zero_xor]

/-- The text is the UTF-8 form of some characters. -/
def ValidUTF8 (text : List UInt8) : Prop :=
  ∃ chars : List Char, text = chars.flatMap String.utf8EncodeChar

/-- What holds of the first bytes one by one holds of each. -/
@[elab_as_elim] theorem of_table {P : UInt8 → Prop} {bound : ℕ} (byte : UInt8)
    (hbyte : byte.toNat < bound) (h : ∀ v : Fin bound, P (UInt8.ofNat v)) : P byte := by
  have hv := h ⟨byte.toNat, hbyte⟩
  rwa [UInt8.ofNat_toNat] at hv

theorem utf8EncodeChar_of_ascii {byte : UInt8} (h : byte.toNat < 128) :
    String.utf8EncodeChar (Char.ofUInt8 byte) = [byte] :=
  of_table byte h (by decide)

/-- A text of bytes below 128 is valid. -/
theorem validUTF8_of_ascii {text : List UInt8} (h : ∀ byte ∈ text, byte.toNat < 128) :
    ValidUTF8 text := by
  induction text with
  | nil => exact ⟨[], rfl⟩
  | cons byte text ih =>
    obtain ⟨hbyte, htext⟩ := List.forall_mem_cons.mp h
    obtain ⟨chars, hchars⟩ := ih htext
    refine ⟨Char.ofUInt8 byte :: chars, ?_⟩
    rw [List.flatMap_cons, utf8EncodeChar_of_ascii hbyte, ← hchars]
    rfl

theorem hexCharacter_lt {digit : UInt8} (h : digit.toNat < 16) :
    (hexCharacter digit).toNat < 128 :=
  of_table digit h (by decide)

theorem toNat_high_lt (byte : UInt8) : (byte >>> 4).toNat < 16 := by
  have hbyte := byte.toNat_lt
  have hfour : (4 : UInt8).toNat % 8 = 4 := rfl
  rw [UInt8.toNat_shiftRight, hfour, Nat.shiftRight_eq_div_pow]
  omega

theorem toNat_low_lt (byte : UInt8) : (byte &&& 0x0f).toNat < 16 := by
  rw [UInt8.toNat_and]
  exact lt_of_le_of_lt Nat.and_le_right (by decide)

theorem validUTF8_encodeHex (bytes : List UInt8) : ValidUTF8 (encodeHex bytes) := by
  refine validUTF8_of_ascii fun c hc ↦ ?_
  obtain ⟨byte, -, hc⟩ := List.mem_flatMap.mp hc
  rcases List.mem_pair.mp hc with rfl | rfl
  · exact hexCharacter_lt (toNat_high_lt byte)
  · exact hexCharacter_lt (toNat_low_lt byte)

end NevelCore.Foundations
