import Mathlib.Data.Nat.Digits.Defs
import NevelCore.Foundations.Bytes

/-!
# Numbers and bytes as texts

The decimal text of a number, as `strconv` writes it and `SetString` of the package `math/big` reads
it, and the hexadecimal and base64 texts of bytes. Different numbers have different decimal texts
(`decimal_injective`), different bytes have different hexadecimal texts (`encodeHex_injective`), and
neither text has a character that is no digit. Base64 texts are read back (`decodeBase64_encode`).
-/

set_option autoImplicit false
set_option relaxedAutoImplicit false

namespace NevelCore.Foundations

/-! ### Decimal texts -/

/-- The digits of a number, in base ten. -/
def decimal (n : ℕ) : List UInt8 := (Nat.toDigits 10 n).map Char.toUInt8

/-- A character is a decimal digit. -/
def IsDecimalDigit (c : UInt8) : Prop := 0x30 ≤ c ∧ c ≤ 0x39

instance : DecidablePred IsDecimalDigit := fun _ ↦ instDecidableAnd

/-- One more digit of a number, most significant digit first. -/
def readDigit (value : ℕ) (c : UInt8) : Option ℕ :=
  if IsDecimalDigit c then some (10 * value + (c - 0x30).toNat) else none

/-- The number with the given digits. -/
def readDecimal (text : List UInt8) : Option ℕ :=
  if text = [] then none else text.foldlM readDigit 0

/-- `SetString` for base ten: digits, with a sign or without one. -/
def readInteger : List UInt8 → Option ℤ
  | 0x2b :: digits => (readDecimal digits).map Int.ofNat
  | 0x2d :: digits => (readDecimal digits).map fun n ↦ -Int.ofNat n
  | digits => (readDecimal digits).map Int.ofNat

theorem digit_table : ∀ d : Fin 10, IsDecimalDigit (Nat.digitChar d).toUInt8 ∧
    ((Nat.digitChar d).toUInt8 - 0x30).toNat = d := by decide

theorem readDigit_digitChar (value : ℕ) {d : ℕ} (hd : d < 10) :
    readDigit value (Nat.digitChar d).toUInt8 = some (10 * value + d) := by
  obtain ⟨hdigit, hvalue⟩ := digit_table ⟨d, hd⟩
  rw [readDigit, if_pos hdigit, hvalue]

theorem decimal_of_lt {n : ℕ} (h : n < 10) : decimal n = [(Nat.digitChar n).toUInt8] := by
  rw [decimal, Nat.toDigits_of_lt_base h, List.map_singleton]

theorem decimal_of_le {n : ℕ} (h : 10 ≤ n) :
    decimal n = decimal (n / 10) ++ [(Nat.digitChar (n % 10)).toUInt8] := by
  rw [decimal, Nat.toDigits_of_base_le (by decide) h, List.map_append, List.map_singleton]
  rfl

theorem foldlM_decimal (n : ℕ) : (decimal n).foldlM readDigit 0 = some n := by
  -- the digits before the last one are those of the tenth part
  induction n using Nat.strong_induction_on with
  | _ n ih =>
    rcases Nat.lt_or_ge n 10 with h | h
    · rw [decimal_of_lt h, List.foldlM_cons, readDigit_digitChar 0 h]
      simp
    · have hmod : n % 10 < 10 := Nat.mod_lt n (by decide)
      rw [decimal_of_le h, List.foldlM_append, ih (n / 10) (by omega)]
      change (readDigit (n / 10) _ >>= fun value ↦ some value) = _
      rw [readDigit_digitChar _ hmod, Nat.div_add_mod]
      rfl

theorem isDecimalDigit_of_mem_decimal {n : ℕ} {c : UInt8} (h : c ∈ decimal n) :
    IsDecimalDigit c := by
  induction n using Nat.strong_induction_on with
  | _ n ih =>
    rcases Nat.lt_or_ge n 10 with hn | hn
    · rw [decimal_of_lt hn, List.mem_singleton] at h
      exact h ▸ (digit_table ⟨n, hn⟩).1
    · rw [decimal_of_le hn, List.mem_append, List.mem_singleton] at h
      rcases h with h | h
      · exact ih (n / 10) (by omega) h
      · exact h ▸ (digit_table ⟨n % 10, Nat.mod_lt n (by decide)⟩).1

theorem decimal_ne_nil (n : ℕ) : decimal n ≠ [] := by
  rcases Nat.lt_or_ge n 10 with h | h
  · rw [decimal_of_lt h]
    exact List.cons_ne_nil _ _
  · rw [decimal_of_le h]
    exact List.append_ne_nil_of_right_ne_nil _ (List.cons_ne_nil _ _)

theorem readDecimal_decimal (n : ℕ) : readDecimal (decimal n) = some n := by
  rw [readDecimal, if_neg (decimal_ne_nil n), foldlM_decimal]

theorem decimal_injective : Function.Injective decimal := fun n n' h ↦
  Option.some.inj (by rw [← readDecimal_decimal n, h, readDecimal_decimal n'])

/-- A text of digits has no sign. -/
theorem readInteger_decimal (n : ℕ) : readInteger (decimal n) = some (Int.ofNat n) := by
  have hfirst : ∀ c ∈ decimal n, c ≠ 0x2b ∧ c ≠ 0x2d := by
    intro c hc
    have hdigit := isDecimalDigit_of_mem_decimal hc
    constructor
    · rintro rfl
      exact absurd hdigit (by decide)
    · rintro rfl
      exact absurd hdigit (by decide)
  have hread : (readDecimal (decimal n)).map Int.ofNat = some (Int.ofNat n) := by
    rw [readDecimal_decimal]
    rfl
  rw [readInteger.eq_def]
  split
  · next digits heq => exact absurd rfl (hfirst 0x2b (heq ▸ List.mem_cons_self)).1
  · next digits heq => exact absurd rfl (hfirst 0x2d (heq ▸ List.mem_cons_self)).2
  · exact hread

/-! ### Hexadecimal texts -/

theorem hexCharacter_table : ∀ d d' : Fin 16,
    hexCharacter (UInt8.ofNat d) = hexCharacter (UInt8.ofNat d') → d = d' := by decide

theorem hexCharacter_injOn {digit digit' : UInt8} (h : digit.toNat < 16) (h' : digit'.toNat < 16)
    (heq : hexCharacter digit = hexCharacter digit') : digit = digit' := by
  have hvalue : digit.toNat = digit'.toNat :=
    Fin.mk.inj_iff.mp (hexCharacter_table ⟨digit.toNat, h⟩ ⟨digit'.toNat, h'⟩
      (by rw [UInt8.ofNat_toNat, UInt8.ofNat_toNat, heq]))
  exact UInt8.toNat_inj.mp hvalue

theorem eq_of_halves {byte byte' : UInt8} (hhigh : byte >>> 4 = byte' >>> 4)
    (hlow : byte &&& 0x0f = byte' &&& 0x0f) : byte = byte' := by
  have hsplit : ∀ v : Fin 256, (UInt8.ofNat v >>> 4) <<< 4 ||| (UInt8.ofNat v &&& 0x0f) =
      UInt8.ofNat v := by decide +kernel
  have hbyte : (byte >>> 4) <<< 4 ||| (byte &&& 0x0f) = byte := of_table byte byte.toNat_lt hsplit
  rw [← hbyte, hhigh, hlow]
  exact of_table byte' byte'.toNat_lt hsplit

theorem encodeHex_injective : Function.Injective encodeHex := by
  intro bytes
  induction bytes with
  | nil =>
    intro bytes' h
    cases bytes' with
    | nil => rfl
    | cons byte' bytes' => cases h
  | cons byte bytes ih =>
    intro bytes' h
    cases bytes' with
    | nil => cases h
    | cons byte' bytes' =>
      rw [encodeHex_cons, encodeHex_cons] at h
      obtain ⟨hhigh, h⟩ := List.cons.inj h
      obtain ⟨hlow, h⟩ := List.cons.inj h
      rw [ih h, eq_of_halves
        (hexCharacter_injOn (toNat_high_lt byte) (toNat_high_lt byte') hhigh)
        (hexCharacter_injOn (toNat_low_lt byte) (toNat_low_lt byte') hlow)]

@[simp] theorem length_encodeHex (bytes : List UInt8) :
    (encodeHex bytes).length = 2 * bytes.length := by
  induction bytes with
  | nil => rfl
  | cons byte bytes ih =>
    rw [encodeHex_cons, List.length_cons, List.length_cons, ih, List.length_cons]
    omega

/-- A character of a hexadecimal text is one of the sixteen digits. -/
theorem exists_of_mem_encodeHex {bytes : List UInt8} {c : UInt8} (h : c ∈ encodeHex bytes) :
    ∃ digit : UInt8, digit.toNat < 16 ∧ c = hexCharacter digit := by
  rw [encodeHex, List.mem_flatMap] at h
  obtain ⟨byte, -, hc⟩ := h
  rcases List.mem_cons.mp hc with rfl | hc
  · exact ⟨byte >>> 4, toNat_high_lt byte, rfl⟩
  · rw [List.mem_singleton] at hc
    exact ⟨byte &&& 0x0f, toNat_low_lt byte, hc⟩

/-! ### Base64 texts -/

/-- The character of six bits. -/
def base64Character (bits : ℕ) : UInt8 :=
  if bits < 26 then UInt8.ofNat (0x41 + bits)
  else if bits < 52 then UInt8.ofNat (0x61 + (bits - 26))
  else if bits < 62 then UInt8.ofNat (0x30 + (bits - 52))
  else if bits = 62 then 0x2b
  else 0x2f

/-- The six bits of a character. -/
def base64Value (c : UInt8) : Option ℕ :=
  if 0x41 ≤ c ∧ c ≤ 0x5a then some (c.toNat - 0x41)
  else if 0x61 ≤ c ∧ c ≤ 0x7a then some (c.toNat - 0x61 + 26)
  else if IsDecimalDigit c then some (c.toNat - 0x30 + 52)
  else if c = 0x2b then some 62
  else if c = 0x2f then some 63
  else none

/-- `EncodeToString` of the standard encoding of the package `base64`. -/
def encodeBase64 : List UInt8 → List UInt8
  | [] => []
  | [a] => [base64Character (a.toNat / 4), base64Character (a.toNat % 4 * 16), 0x3d, 0x3d]
  | [a, b] =>
    [base64Character (a.toNat / 4), base64Character (a.toNat % 4 * 16 + b.toNat / 16),
      base64Character (b.toNat % 16 * 4), 0x3d]
  | a :: b :: c :: bytes =>
    base64Character (a.toNat / 4) :: base64Character (a.toNat % 4 * 16 + b.toNat / 16) ::
      base64Character (b.toNat % 16 * 4 + c.toNat / 64) :: base64Character (c.toNat % 64) ::
        encodeBase64 bytes

/-- `DecodeString`. -/
def decodeBase64 : List UInt8 → Option (List UInt8)
  | [] => some []
  | w :: x :: y :: z :: text => do
    let w ← base64Value w
    let x ← base64Value x
    let a := UInt8.ofNat (w * 4 + x / 16)
    if y = 0x3d ∧ z = 0x3d ∧ text = [] then some [a]
    else do
      let y ← base64Value y
      let b := UInt8.ofNat (x % 16 * 16 + y / 4)
      if z = 0x3d ∧ text = [] then some [a, b]
      else do
        let z ← base64Value z
        let bytes ← decodeBase64 text
        some (a :: b :: UInt8.ofNat (y % 4 * 64 + z) :: bytes)
  | _ => none

theorem base64_table : ∀ bits : Fin 64, base64Value (base64Character bits) = some bits.val ∧
    base64Character bits ≠ 0x3d := by decide

theorem base64Value_character {bits : ℕ} (h : bits < 64) :
    base64Value (base64Character bits) = some bits := (base64_table ⟨bits, h⟩).1

theorem base64Character_ne {bits : ℕ} (h : bits < 64) : base64Character bits ≠ 0x3d :=
  (base64_table ⟨bits, h⟩).2

theorem decodeBase64_encode (bytes : List UInt8) :
    decodeBase64 (encodeBase64 bytes) = some bytes := by
  fun_induction encodeBase64 bytes with
  | case1 => rfl
  | case2 a =>
    have ha := a.toNat_lt
    have hbyte : a.toNat / 4 * 4 + a.toNat % 4 * 16 / 16 = a.toNat := by omega
    rw [decodeBase64, base64Value_character (by omega), base64Value_character (by omega)]
    dsimp only [Option.bind_eq_bind, Option.bind_some]
    rw [if_pos ⟨rfl, rfl, rfl⟩, hbyte, UInt8.ofNat_toNat]
  | case3 a b =>
    have ha := a.toNat_lt
    have hb := b.toNat_lt
    have hfirst : a.toNat / 4 * 4 + (a.toNat % 4 * 16 + b.toNat / 16) / 16 = a.toNat := by omega
    have hsecond : (a.toNat % 4 * 16 + b.toNat / 16) % 16 * 16 + b.toNat % 16 * 4 / 4 =
      b.toNat := by omega
    have hne : base64Character (b.toNat % 16 * 4) ≠ 0x3d := base64Character_ne (by omega)
    rw [decodeBase64, base64Value_character (by omega), base64Value_character (by omega),
      base64Value_character (by omega)]
    dsimp only [Option.bind_eq_bind, Option.bind_some]
    rw [if_neg fun h ↦ hne h.1, if_pos ⟨rfl, rfl⟩, hfirst, hsecond, UInt8.ofNat_toNat,
      UInt8.ofNat_toNat]
  | case4 a b c bytes ih =>
    have ha := a.toNat_lt
    have hb := b.toNat_lt
    have hc := c.toNat_lt
    have hfirst : a.toNat / 4 * 4 + (a.toNat % 4 * 16 + b.toNat / 16) / 16 = a.toNat := by omega
    have hsecond : (a.toNat % 4 * 16 + b.toNat / 16) % 16 * 16 +
      (b.toNat % 16 * 4 + c.toNat / 64) / 4 = b.toNat := by omega
    have hthird : (b.toNat % 16 * 4 + c.toNat / 64) % 4 * 64 + c.toNat % 64 = c.toNat := by omega
    have hne : base64Character (c.toNat % 64) ≠ 0x3d := base64Character_ne (by omega)
    rw [decodeBase64, base64Value_character (by omega), base64Value_character (by omega),
      base64Value_character (by omega), base64Value_character (by omega), ih]
    dsimp only [Option.bind_eq_bind, Option.bind_some]
    rw [if_neg fun h ↦ hne h.2.1, if_neg fun h ↦ hne h.1, hfirst, hsecond, hthird,
      UInt8.ofNat_toNat, UInt8.ofNat_toNat, UInt8.ofNat_toNat]

end NevelCore.Foundations
