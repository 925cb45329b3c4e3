import NevelCore.Foundations.TextNumerals

/-!
# JSON texts

Values of JSON, with whole numbers, and their texts as the standard library's package `json` of Go
writes them: on one line, or on many lines with an indentation of two blanks. The reader skips
blanks between the tokens, and takes the value at the front of a text. Whatever the layout, it reads
back what was written (`decode_write`, `parse_write`).

Texts are given by their bytes, and those of a value are meant to be valid UTF-8. What the package
would refuse as a number, such as one with zeros in front, is not told apart here.
-/

set_option autoImplicit false
set_option relaxedAutoImplicit false

namespace NevelCore.Foundations.JsonText

inductive Value where
  | null
  | bool (b : Bool)
  | number (n : ℤ)
  | text (bytes : List UInt8)
  | array (items : List Value)
  | object (fields : List (List UInt8 × Value))

/-! ### Texts in quotes -/

/-- The form of a byte in quotes. -/
def escapeByte (c : UInt8) : List UInt8 :=
  if c = 0x22 ∨ c = 0x5c then [0x5c, c]
  else if c = 0x08 then [0x5c, 0x62]
  else if c = 0x0c then [0x5c, 0x66]
  else if c = 0x0a then [0x5c, 0x6e]
  else if c = 0x0d then [0x5c, 0x72]
  else if c = 0x09 then [0x5c, 0x74]
  else if c < 0x20 ∨ c = 0x3c ∨ c = 0x3e ∨ c = 0x26 then
    [0x5c, 0x75, 0x30, 0x30, hexCharacter (c >>> 4), hexCharacter (c &&& 0x0f)]
  else [c]

/-- The form of a text in quotes. The separators of lines and of paragraphs, two characters of three
bytes, are written by their numbers. -/
def escape : List UInt8 → List UInt8
  | [] => []
  | 0xe2 :: 0x80 :: 0xa8 :: text => [0x5c, 0x75, 0x32, 0x30, 0x32, 0x38] ++ escape text
  | 0xe2 :: 0x80 :: 0xa9 :: text => [0x5c, 0x75, 0x32, 0x30, 0x32, 0x39] ++ escape text
  | c :: text => escapeByte c ++ escape text

def quote (text : List UInt8) : List UInt8 := 0x22 :: (escape text ++ [0x22])

/-- Where a reader stands in quotes: between characters, after a backslash, or in the number of a
character, with so many digits to come after the next one. -/
inductive TextState where
  | plain
  | escaped
  | code (left value : ℕ)

/-- The byte that stands after a backslash as a letter. -/
def unescape (c : UInt8) : Option UInt8 :=
  if c = 0x22 ∨ c = 0x5c ∨ c = 0x2f then some c
  else if c = 0x62 then some 0x08
  else if c = 0x66 then some 0x0c
  else if c = 0x6e then some 0x0a
  else if c = 0x72 then some 0x0d
  else if c = 0x74 then some 0x09
  else none

def hexValue (c : UInt8) : Option ℕ :=
  if IsDecimalDigit c then some (c.toNat - 0x30)
  else if 0x61 ≤ c ∧ c ≤ 0x66 then some (c.toNat - 0x57)
  else if 0x41 ≤ c ∧ c ≤ 0x46 then some (c.toNat - 0x37)
  else none

/-- The bytes of a character with a number of four digits. Halves of greater characters are not
read. -/
def codeBytes (code : ℕ) : Option (List UInt8) :=
  if 0xd800 ≤ code ∧ code < 0xe000 then none else some (String.utf8EncodeChar (Char.ofNat code))

/-- Puts bytes before a text that is read. -/
def emit (bytes : List UInt8) (result : Option (List UInt8 × List UInt8)) :
    Option (List UInt8 × List UInt8) :=
  result.map fun (text, rest) ↦ (bytes ++ text, rest)

/-- Reads up to the closing quote. -/
def readText : TextState → List UInt8 → Option (List UInt8 × List UInt8)
  | _, [] => none
  | .plain, c :: input =>
    if c = 0x22 then some ([], input)
    else if c = 0x5c then readText .escaped input
    else if c < 0x20 then none
    else emit [c] (readText .plain input)
  | .escaped, c :: input =>
    if c = 0x75 then readText (.code 3 0) input
    else (unescape c).bind fun byte ↦ emit [byte] (readText .plain input)
  | .code 0 value, c :: input => do
    let digit ← hexValue c
    let bytes ← codeBytes (16 * value + digit)
    emit bytes (readText .plain input)
  | .code (left + 1) value, c :: input => do
    let digit ← hexValue c
    readText (.code left (16 * value + digit)) input

theorem code_table : ∀ v : Fin 64,
    hexValue (hexCharacter (UInt8.ofNat v >>> 4)) = some (v.val / 16) ∧
    hexValue (hexCharacter (UInt8.ofNat v &&& 0x0f)) = some (v.val % 16) ∧
    codeBytes (16 * (v.val / 16) + v.val % 16) = some [UInt8.ofNat v] := by decide

theorem readText_code {c : UInt8} (h : c.toNat < 64) (input : List UInt8) :
    readText .plain
        (0x5c :: 0x75 :: 0x30 :: 0x30 :: hexCharacter (c >>> 4) :: hexCharacter (c &&& 0x0f) ::
          input) =
      emit [c] (readText .plain input) := by
  obtain ⟨hhigh, hlow, hcode⟩ := code_table ⟨c.toNat, h⟩
  rw [UInt8.ofNat_toNat] at hhigh hlow hcode
  change (do
    let digit ← hexValue (hexCharacter (c >>> 4))
    readText (.code 0 (16 * 0 + digit)) (hexCharacter (c &&& 0x0f) :: input)) = _
  rw [hhigh, Option.bind_eq_bind, Option.bind_some, readText, hlow, Option.bind_eq_bind,
    Option.bind_some, Nat.mul_zero, Nat.zero_add, hcode]
  rfl

theorem readText_escapeByte (c : UInt8) (input : List UInt8) :
    readText .plain (escapeByte c ++ input) = emit [c] (readText .plain input) := by
  unfold escapeByte
  split_ifs with hquote hb hf hn hr ht hcode
  · rcases hquote with rfl | rfl
    · rfl
    · rfl
  · rw [hb]
    rfl
  · rw [hf]
    rfl
  · rw [hn]
    rfl
  · rw [hr]
    rfl
  · rw [ht]
    rfl
  · refine readText_code ?_ input
    rcases hcode with hlt | rfl | rfl | rfl
    · exact Nat.lt_trans (UInt8.lt_iff_toNat_lt.mp hlt) (by decide)
    · decide
    · decide
    · decide
  · rw [not_or] at hquote hcode
    rw [List.singleton_append, readText, if_neg hquote.1, if_neg hquote.2, if_neg hcode.1]

/-- A text in quotes is read up to the closing quote. -/
theorem readText_escape (text rest : List UInt8) :
    readText .plain (escape text ++ 0x22 :: rest) = some (text, rest) := by
  fun_induction escape text with
  | case1 => rfl
  | case2 text ih =>
    change emit [0xe2, 0x80, 0xa8] (readText .plain (escape text ++ 0x22 :: rest)) = _
    rw [ih]
    rfl
  | case3 text ih =>
    change emit [0xe2, 0x80, 0xa9] (readText .plain (escape text ++ 0x22 :: rest)) = _
    rw [ih]
    rfl
  | case4 c text _ _ ih =>
    rw [List.append_assoc, readText_escapeByte, ih]
    rfl

/-! ### Blanks and numbers -/

def IsSpace (c : UInt8) : Prop := c = 0x20 ∨ c = 0x09 ∨ c = 0x0a ∨ c = 0x0d

instance : DecidablePred IsSpace := fun _ ↦ instDecidableOr

def skipSpace (input : List UInt8) : List UInt8 := input.dropWhile fun c ↦ IsSpace c

theorem skipSpace_append {spaces : List UInt8} (h : ∀ c ∈ spaces, IsSpace c) (input : List UInt8) :
    skipSpace (spaces ++ input) = skipSpace input :=
  List.dropWhile_append_of_pos fun c hc ↦ decide_eq_true (h c hc)

theorem skipSpace_cons {c : UInt8} (h : ¬ IsSpace c) (input : List UInt8) :
    skipSpace (c :: input) = c :: input :=
  List.dropWhile_cons_of_neg fun hc ↦ h (of_decide_eq_true hc)

/-- A text does not begin with a digit. -/
def Stops (rest : List UInt8) : Prop := ∀ c ∈ rest.head?, ¬ IsDecimalDigit c

theorem stops_cons {c : UInt8} (h : ¬ IsDecimalDigit c) (rest : List UInt8) :
    Stops (c :: rest) := fun _ hc ↦ Option.some.inj hc ▸ h

def writeNumber : ℤ → List UInt8
  | .ofNat n => decimal n
  | .negSucc n => 0x2d :: decimal (n + 1)

/-- The number at the front of a text. -/
def readDigits (input : List UInt8) : Option (ℕ × List UInt8) :=
  (readDecimal (input.takeWhile fun c ↦ IsDecimalDigit c)).map
    (·, input.dropWhile fun c ↦ IsDecimalDigit c)

/-- The number at the front of a text, with a sign or without one. -/
def readNumber : List UInt8 → Option (ℤ × List UInt8)
  | [] => none
  | c :: input =>
    if c = 0x2d then (readDigits input).map fun (n, rest) ↦ (-n, rest)
    else (readDigits (c :: input)).map fun (n, rest) ↦ (n, rest)

theorem readDigits_decimal (n : ℕ) {rest : List UInt8} (h : Stops rest) :
    readDigits (decimal n ++ rest) = some (n, rest) := by
  have hdigits : ∀ c ∈ decimal n, decide (IsDecimalDigit c) = true := fun c hc ↦
    decide_eq_true (isDecimalDigit_of_mem_decimal hc)
  have hrest : rest.takeWhile (fun c ↦ IsDecimalDigit c) = [] ∧
      rest.dropWhile (fun c ↦ IsDecimalDigit c) = rest := by
    cases rest with
    | nil => exact ⟨rfl, rfl⟩
    | cons c rest =>
      have hc : ¬ decide (IsDecimalDigit c) = true := fun hc ↦ h c rfl (of_decide_eq_true hc)
      exact ⟨List.takeWhile_cons_of_neg hc, List.dropWhile_cons_of_neg hc⟩
  rw [readDigits, List.takeWhile_append_of_pos hdigits, List.dropWhile_append_of_pos hdigits,
    hrest.1, hrest.2, List.append_nil, readDecimal_decimal]
  rfl

theorem exists_decimal_eq_cons (n : ℕ) :
    ∃ c digits, decimal n = c :: digits ∧ IsDecimalDigit c := by
  obtain ⟨c, digits, h⟩ := List.exists_cons_of_ne_nil (decimal_ne_nil n)
  exact ⟨c, digits, h, isDecimalDigit_of_mem_decimal (h ▸ List.mem_cons_self)⟩

theorem readNumber_writeNumber (n : ℤ) {rest : List UInt8} (h : Stops rest) :
    readNumber (writeNumber n ++ rest) = some (n, rest) := by
  cases n with
  | ofNat n =>
    obtain ⟨c, digits, hcons, hdigit⟩ := exists_decimal_eq_cons n
    have hminus : c ≠ 0x2d := by
      rintro rfl
      exact absurd hdigit (by decide)
    have hread := readDigits_decimal n h
    rw [hcons] at hread
    rw [writeNumber, hcons, List.cons_append, readNumber, if_neg hminus, ← List.cons_append, hread]
    rfl
  | negSucc n =>
    rw [writeNumber, List.cons_append, readNumber, if_pos rfl, readDigits_decimal _ h]
    rfl

theorem exists_writeNumber_eq_cons (n : ℤ) :
    ∃ c text, writeNumber n = c :: text ∧ (IsDecimalDigit c ∨ c = 0x2d) := by
  cases n with
  | ofNat n =>
    obtain ⟨c, digits, hcons, hdigit⟩ := exists_decimal_eq_cons n
    exact ⟨c, digits, hcons, .inl hdigit⟩
  | negSucc n => exact ⟨_, _, rfl, .inr rfl⟩

/-! ### Values -/

/-- How a value is laid out: on one line, or on lines at a depth. -/
abbrev Layout := Option ℕ

namespace Layout

/-- The layout of what is inside a value. -/
def inner (layout : Layout) : Layout := layout.map (· + 1)

def newline : Layout → List UInt8
  | none => []
  | some depth => 0x0a :: List.replicate (2 * depth) 0x20

def colon : Layout → List UInt8
  | none => [0x3a]
  | some _ => [0x3a, 0x20]

end Layout

mutual

/-- The text of a value. -/
def write (layout : Layout) : Value → List UInt8
  | .null => [0x6e, 0x75, 0x6c, 0x6c]
  | .bool true => [0x74, 0x72, 0x75, 0x65]
  | .bool false => [0x66, 0x61, 0x6c, 0x73, 0x65]
  | .number n => writeNumber n
  | .text bytes => quote bytes
  | .array [] => [0x5b, 0x5d]
  | .array (item :: items) =>
    0x5b :: (layout.inner.newline ++ write layout.inner item ++ writeItems layout.inner items ++
      (layout.newline ++ [0x5d]))
  | .object [] => [0x7b, 0x7d]
  | .object ((key, value) :: fields) =>
    0x7b :: (layout.inner.newline ++ quote key ++ layout.colon ++ write layout.inner value ++
      writeFields layout.inner fields ++ (layout.newline ++ [0x7d]))

/-- Items that follow another one. -/
def writeItems (layout : Layout) : List Value → List UInt8
  | [] => []
  | item :: items => 0x2c :: (layout.newline ++ write layout item ++ writeItems layout items)

/-- Fields that follow another one. -/
def writeFields (layout : Layout) : List (List UInt8 × Value) → List UInt8
  | [] => []
  | (key, value) :: fields =>
    0x2c :: (layout.newline ++ quote key ++ layout.colon ++ write layout value ++
      writeFields layout fields)

end

/-- Takes a text from the front of another one. -/
def expect (text input : List UInt8) : Option (List UInt8) :=
  if text <+: input then some (input.drop text.length) else none

theorem expect_append (text rest : List UInt8) : expect text (text ++ rest) = some rest := by
  rw [expect, if_pos (List.prefix_append _ _), List.drop_left]

/-- The key of a field, with the colon. -/
def readKey (input : List UInt8) : Option (List UInt8 × List UInt8) := do
  let input ← expect [0x22] (skipSpace input)
  let (key, input) ← readText .plain input
  let input ← expect [0x3a] (skipSpace input)
  some (key, input)

mutual

/-- The value at the front of a text, after blanks. -/
def readValue : ℕ → List UInt8 → Option (Value × List UInt8)
  | 0, _ => none
  | fuel + 1, input =>
    match skipSpace input with
    | [] => none
    | c :: input =>
      if c = 0x22 then do
        let (text, rest) ← readText .plain input
        some (.text text, rest)
      else if c = 0x5b then
        match expect [0x5d] (skipSpace input) with
        | some rest => some (.array [], rest)
        | none => do
          let (item, input) ← readValue fuel input
          let (items, rest) ← readItems fuel input
          some (.array (item :: items), rest)
      else if c = 0x7b then
        match expect [0x7d] (skipSpace input) with
        | some rest => some (.object [], rest)
        | none => do
          let (key, input) ← readKey input
          let (value, input) ← readValue fuel input
          let (fields, rest) ← readFields fuel input
          some (.object ((key, value) :: fields), rest)
      else if c = 0x6e then do
        let rest ← expect [0x75, 0x6c, 0x6c] input
        some (.null, rest)
      else if c = 0x74 then do
        let rest ← expect [0x72, 0x75, 0x65] input
        some (.bool true, rest)
      else if c = 0x66 then do
        let rest ← expect [0x61, 0x6c, 0x73, 0x65] input
        some (.bool false, rest)
      else do
        let (n, rest) ← readNumber (c :: input)
        some (.number n, rest)

/-- The items after the first one, and the closing bracket. -/
def readItems : ℕ → List UInt8 → Option (List Value × List UInt8)
  | 0, _ => none
  | fuel + 1, input =>
    match skipSpace input with
    | [] => none
    | c :: input =>
      if c = 0x5d then some ([], input)
      else if c = 0x2c then do
        let (item, input) ← readValue fuel input
        let (items, rest) ← readItems fuel input
        some (item :: items, rest)
      else none

/-- The fields after the first one, and the closing brace. -/
def readFields : ℕ → List UInt8 → Option (List (List UInt8 × Value) × List UInt8)
  | 0, _ => none
  | fuel + 1, input =>
    match skipSpace input with
    | [] => none
    | c :: input =>
      if c = 0x7d then some ([], input)
      else if c = 0x2c then do
        let (key, input) ← readKey input
        let (value, input) ← readValue fuel input
        let (fields, rest) ← readFields fuel input
        some ((key, value) :: fields, rest)
      else none

end

/-! ### Reading back -/

theorem isSpace_of_mem_newline {layout : Layout} {c : UInt8} (h : c ∈ layout.newline) :
    IsSpace c := by
  cases layout with
  | none => cases h
  | some depth =>
    rcases List.mem_cons.mp h with rfl | h
    · decide
    · rw [List.eq_of_mem_replicate h]
      decide

/-- A value begins neither with a blank nor with a closing bracket. -/
theorem exists_write_eq_cons (layout : Layout) (v : Value) :
    ∃ c text, write layout v = c :: text ∧ ¬ IsSpace c ∧ c ≠ 0x5d := by
  cases v with
  | null => exact ⟨_, _, rfl, by decide, by decide⟩
  | bool b => cases b <;> exact ⟨_, _, rfl, by decide, by decide⟩
  | number n =>
    obtain ⟨c, text, hcons, hc⟩ := exists_writeNumber_eq_cons n
    refine ⟨c, text, hcons, ?_, ?_⟩
    · rintro (rfl | rfl | rfl | rfl) <;> exact absurd hc (by decide)
    · rintro rfl
      exact absurd hc (by decide)
  | text bytes => exact ⟨_, _, rfl, by decide, by decide⟩
  | array items => cases items <;> exact ⟨_, _, rfl, by decide, by decide⟩
  | object fields => cases fields <;> exact ⟨_, _, rfl, by decide, by decide⟩

theorem readKey_quote {spaces : List UInt8} (h : ∀ c ∈ spaces, IsSpace c) (key : List UInt8)
    (layout : Layout) (rest : List UInt8) :
    ∃ blanks, (∀ c ∈ blanks, IsSpace c) ∧
      readKey (spaces ++ (quote key ++ (layout.colon ++ rest))) = some (key, blanks ++ rest) := by
  have hcolon : ∃ blanks, (∀ c ∈ blanks, IsSpace c) ∧ layout.colon = 0x3a :: blanks := by
    cases layout with
    | none => exact ⟨[], nofun, rfl⟩
    | some depth => exact ⟨[0x20], List.forall_mem_singleton.mpr (by decide), rfl⟩
  obtain ⟨blanks, hblanks, hcolon⟩ := hcolon
  refine ⟨blanks, hblanks, ?_⟩
  have hopen : expect [0x22] (0x22 :: (escape key ++ 0x22 :: 0x3a :: (blanks ++ rest))) =
    some (escape key ++ 0x22 :: 0x3a :: (blanks ++ rest)) := expect_append [0x22] _
  have hclose : expect [0x3a] (0x3a :: (blanks ++ rest)) = some (blanks ++ rest) :=
    expect_append [0x3a] _
  rw [readKey, skipSpace_append h, quote, hcolon, List.cons_append, List.append_assoc,
    List.singleton_append, skipSpace_cons (by decide), List.cons_append, hopen,
    Option.bind_eq_bind, Option.bind_some, readText_escape, Option.bind_eq_bind, Option.bind_some]
  dsimp only
  rw [skipSpace_cons (by decide), hclose]
  rfl

/-- The reader with so much fuel takes texts up to that length. -/
structure Reads (fuel : ℕ) : Prop where
  value : ∀ (layout : Layout) (v : Value) {spaces rest : List UInt8}, (∀ c ∈ spaces, IsSpace c) →
    (write layout v).length ≤ fuel → Stops rest →
    readValue fuel (spaces ++ (write layout v ++ rest)) = some (v, rest)
  items : ∀ (layout : Layout) (vs : List Value) {spaces : List UInt8} (rest : List UInt8),
    (∀ c ∈ spaces, IsSpace c) → (writeItems layout vs).length < fuel →
    readItems fuel (writeItems layout vs ++ (spaces ++ 0x5d :: rest)) = some (vs, rest)
  fields : ∀ (layout : Layout) (fs : List (List UInt8 × Value)) {spaces : List UInt8}
    (rest : List UInt8), (∀ c ∈ spaces, IsSpace c) → (writeFields layout fs).length < fuel →
    readFields fuel (writeFields layout fs ++ (spaces ++ 0x7d :: rest)) = some (fs, rest)

theorem stops_of_isSpace {spaces : List UInt8} (h : ∀ c ∈ spaces, IsSpace c) {d : UInt8}
    (hd : ¬ IsDecimalDigit d) (rest : List UInt8) : Stops (spaces ++ d :: rest) := by
  cases spaces with
  | nil => exact stops_cons hd rest
  | cons c spaces =>
    refine stops_cons ?_ _
    rcases h c List.mem_cons_self with rfl | rfl | rfl | rfl <;> decide

section Step

variable {fuel : ℕ} {layout : Layout} {spaces : List UInt8}

theorem stops_writeItems (layout : Layout) (h : ∀ c ∈ spaces, IsSpace c) (vs : List Value)
    (rest : List UInt8) : Stops (writeItems layout vs ++ (spaces ++ 0x5d :: rest)) := by
  cases vs with
  | nil => exact stops_of_isSpace h (by decide) rest
  | cons v vs => exact stops_cons (by decide) _

theorem stops_writeFields (layout : Layout) (h : ∀ c ∈ spaces, IsSpace c)
    (fs : List (List UInt8 × Value)) (rest : List UInt8) :
    Stops (writeFields layout fs ++ (spaces ++ 0x7d :: rest)) := by
  cases fs with
  | nil => exact stops_of_isSpace h (by decide) rest
  | cons f fs => exact stops_cons (by decide) _

theorem Reads.items_succ (h : Reads fuel) (vs : List Value) (rest : List UInt8)
    (hspaces : ∀ c ∈ spaces, IsSpace c) (hlength : (writeItems layout vs).length < fuel + 1) :
    readItems (fuel + 1) (writeItems layout vs ++ (spaces ++ 0x5d :: rest)) = some (vs, rest) := by
  cases vs with
  | nil =>
    rw [writeItems, List.nil_append, readItems, skipSpace_append hspaces,
      skipSpace_cons (by decide)]
    exact if_pos rfl
  | cons v vs =>
    rw [writeItems, List.length_cons, List.length_append, List.length_append] at hlength
    have hnewline : ∀ c ∈ layout.newline, IsSpace c := fun _ ↦ isSpace_of_mem_newline
    have hvalue := h.value layout v hnewline (by omega)
      (stops_writeItems layout hspaces vs rest)
    have hitems := h.items layout vs rest hspaces (by omega)
    rw [writeItems, List.cons_append, readItems, skipSpace_cons (by decide)]
    dsimp only
    rw [if_neg (by decide), if_pos rfl, List.append_assoc, List.append_assoc, hvalue,
      Option.bind_eq_bind, Option.bind_some]
    dsimp only
    rw [hitems]
    rfl

theorem Reads.fields_succ (h : Reads fuel) (fs : List (List UInt8 × Value)) (rest : List UInt8)
    (hspaces : ∀ c ∈ spaces, IsSpace c) (hlength : (writeFields layout fs).length < fuel + 1) :
    readFields (fuel + 1) (writeFields layout fs ++ (spaces ++ 0x7d :: rest)) =
      some (fs, rest) := by
  cases fs with
  | nil =>
    rw [writeFields, List.nil_append, readFields, skipSpace_append hspaces,
      skipSpace_cons (by decide)]
    exact if_pos rfl
  | cons f fs =>
    obtain ⟨key, v⟩ := f
    rw [writeFields, List.length_cons] at hlength
    simp only [List.length_append] at hlength
    have hnewline : ∀ c ∈ layout.newline, IsSpace c := fun _ ↦ isSpace_of_mem_newline
    obtain ⟨blanks, hblanks, hkey⟩ := readKey_quote hnewline key layout
      (write layout v ++ (writeFields layout fs ++ (spaces ++ 0x7d :: rest)))
    have hvalue := h.value layout v hblanks (by omega)
      (stops_writeFields layout hspaces fs rest)
    have hfields := h.fields layout fs rest hspaces (by omega)
    rw [writeFields, List.cons_append, readFields, skipSpace_cons (by decide)]
    dsimp only
    rw [if_neg (by decide), if_pos rfl]
    simp only [List.append_assoc]
    rw [hkey, Option.bind_eq_bind, Option.bind_some]
    dsimp only
    rw [hvalue, Option.bind_eq_bind, Option.bind_some]
    dsimp only
    rw [hfields]
    rfl

theorem Reads.array_succ (h : Reads fuel) (vs : List Value) {rest : List UInt8}
    (hspaces : ∀ c ∈ spaces, IsSpace c) (hlength : (write layout (.array vs)).length ≤ fuel + 1) :
    readValue (fuel + 1) (spaces ++ (write layout (.array vs) ++ rest)) =
      some (.array vs, rest) := by
  rw [readValue, skipSpace_append hspaces]
  cases vs with
  | nil =>
    rw [write, List.cons_append, skipSpace_cons (by decide)]
    dsimp only
    rw [if_neg (by decide), if_pos rfl, List.singleton_append, skipSpace_cons (by decide),
      show expect [0x5d] (0x5d :: rest) = some rest from expect_append [0x5d] rest]
  | cons v vs =>
    rw [write, List.length_cons] at hlength
    simp only [List.length_append, List.length_singleton] at hlength
    have hnewline : ∀ c ∈ layout.newline, IsSpace c := fun _ ↦ isSpace_of_mem_newline
    have hinner : ∀ c ∈ layout.inner.newline, IsSpace c := fun _ ↦ isSpace_of_mem_newline
    have hvalue := h.value layout.inner v hinner (by omega)
      (stops_writeItems layout.inner hnewline vs rest)
    have hitems := h.items layout.inner vs rest hnewline (by omega)
    -- the array does not end at once
    have hnone : ∀ input, expect [0x5d]
        (skipSpace (layout.inner.newline ++ (write layout.inner v ++ input))) = none := by
      intro input
      obtain ⟨c, text, hcons, hc, hne⟩ := exists_write_eq_cons layout.inner v
      rw [skipSpace_append hinner, hcons, List.cons_append, skipSpace_cons hc, expect, if_neg]
      rintro ⟨tail, htail⟩
      exact hne (List.cons.inj htail).1.symm
    rw [write, List.cons_append, skipSpace_cons (by decide)]
    dsimp only
    rw [if_neg (by decide), if_pos rfl]
    simp only [List.append_assoc, List.singleton_append]
    rw [hnone]
    dsimp only
    rw [hvalue, Option.bind_eq_bind, Option.bind_some]
    dsimp only
    rw [hitems]
    rfl

theorem Reads.object_succ (h : Reads fuel) (fs : List (List UInt8 × Value)) {rest : List UInt8}
    (hspaces : ∀ c ∈ spaces, IsSpace c) (hlength : (write layout (.object fs)).length ≤ fuel + 1) :
    readValue (fuel + 1) (spaces ++ (write layout (.object fs) ++ rest)) =
      some (.object fs, rest) := by
  rw [readValue, skipSpace_append hspaces]
  cases fs with
  | nil =>
    rw [write, List.cons_append, skipSpace_cons (by decide)]
    dsimp only
    rw [if_neg (by decide), if_neg (by decide), if_pos rfl, List.singleton_append,
      skipSpace_cons (by decide),
      show expect [0x7d] (0x7d :: rest) = some rest from expect_append [0x7d] rest]
  | cons f fs =>
    obtain ⟨key, v⟩ := f
    rw [write, List.length_cons] at hlength
    simp only [List.length_append, List.length_singleton] at hlength
    have hnewline : ∀ c ∈ layout.newline, IsSpace c := fun _ ↦ isSpace_of_mem_newline
    have hinner : ∀ c ∈ layout.inner.newline, IsSpace c := fun _ ↦ isSpace_of_mem_newline
    obtain ⟨blanks, hblanks, hkey⟩ := readKey_quote hinner key layout
      (write layout.inner v ++ (writeFields layout.inner fs ++ (layout.newline ++ 0x7d :: rest)))
    have hvalue := h.value layout.inner v hblanks (by omega)
      (stops_writeFields layout.inner hnewline fs rest)
    have hfields := h.fields layout.inner fs rest hnewline (by omega)
    have hnone : ∀ input, expect [0x7d]
        (skipSpace (layout.inner.newline ++ (quote key ++ input))) = none := by
      intro input
      rw [skipSpace_append hinner, quote, List.cons_append, skipSpace_cons (by decide), expect,
        if_neg]
      rintro ⟨tail, htail⟩
      exact absurd (List.cons.inj htail).1 (by decide)
    rw [write, List.cons_append, skipSpace_cons (by decide)]
    dsimp only
    rw [if_neg (by decide), if_neg (by decide), if_pos rfl]
    simp only [List.append_assoc, List.singleton_append]
    rw [hnone]
    dsimp only
    rw [hkey, Option.bind_eq_bind, Option.bind_some]
    dsimp only
    rw [hvalue, Option.bind_eq_bind, Option.bind_some]
    dsimp only
    rw [hfields]
    rfl

theorem Reads.value_succ (h : Reads fuel) (v : Value) {rest : List UInt8}
    (hspaces : ∀ c ∈ spaces, IsSpace c) (hlength : (write layout v).length ≤ fuel + 1)
    (hrest : Stops rest) :
    readValue (fuel + 1) (spaces ++ (write layout v ++ rest)) = some (v, rest) := by
  cases v with
  | null =>
    rw [readValue, skipSpace_append hspaces, write, List.cons_append, skipSpace_cons (by decide)]
    rfl
  | bool b =>
    rw [readValue, skipSpace_append hspaces]
    cases b with
    | true =>
      rw [write, List.cons_append, skipSpace_cons (by decide)]
      rfl
    | false =>
      rw [write, List.cons_append, skipSpace_cons (by decide)]
      rfl
  | number n =>
    obtain ⟨c, text, hcons, hc⟩ := exists_writeNumber_eq_cons n
    have hother : ∀ d, ¬ (IsDecimalDigit d ∨ d = 0x2d) → c ≠ d := fun d hd heq ↦ hd (heq ▸ hc)
    have hspace : ¬ IsSpace c := by
      rintro (rfl | rfl | rfl | rfl) <;> exact absurd hc (by decide)
    have hread := readNumber_writeNumber n hrest
    rw [hcons, List.cons_append] at hread
    rw [readValue, skipSpace_append hspaces, write, hcons, List.cons_append,
      skipSpace_cons hspace]
    dsimp only
    rw [if_neg (hother _ (by decide)), if_neg (hother _ (by decide)),
      if_neg (hother _ (by decide)), if_neg (hother _ (by decide)), if_neg (hother _ (by decide)),
      if_neg (hother _ (by decide)), hread]
    rfl
  | text bytes =>
    rw [readValue, skipSpace_append hspaces, write, quote, List.cons_append,
      skipSpace_cons (by decide)]
    dsimp only
    rw [if_pos rfl, List.append_assoc, List.singleton_append, readText_escape]
    rfl
  | array vs => exact h.array_succ vs hspaces hlength
  | object fs => exact h.object_succ fs hspaces hlength

end Step

theorem reads (fuel : ℕ) : Reads fuel := by
  induction fuel with
  | zero =>
    refine ⟨fun layout v _ _ _ hlength _ ↦ ?_, fun _ _ _ _ _ hlength ↦ absurd hlength (by omega),
      fun _ _ _ _ _ hlength ↦ absurd hlength (by omega)⟩
    obtain ⟨c, text, hcons, -⟩ := exists_write_eq_cons layout v
    rw [hcons] at hlength
    exact absurd hlength (by simp)
  | succ fuel ih =>
    exact ⟨fun _ v _ _ hspaces hlength hrest ↦ ih.value_succ v hspaces hlength hrest,
      fun _ vs _ rest hspaces hlength ↦ ih.items_succ vs rest hspaces hlength,
      fun _ fs _ rest hspaces hlength ↦ ih.fields_succ fs rest hspaces hlength⟩

/-- The value at the front of a text. -/
def decode (input : List UInt8) : Option (Value × List UInt8) := readValue input.length input

/-- The value of a text, with nothing but blanks behind it. -/
def parse (input : List UInt8) : Option Value := do
  let (v, rest) ← decode input
  if skipSpace rest = [] then some v else none

theorem decode_write (layout : Layout) (v : Value) {rest : List UInt8} (hrest : Stops rest) :
    decode (write layout v ++ rest) = some (v, rest) := by
  have hlength : (write layout v).length ≤ (write layout v ++ rest).length := by
    rw [List.length_append]
    exact Nat.le_add_right _ _
  have hspaces : ∀ c ∈ ([] : List UInt8), IsSpace c := nofun
  exact (reads _).value layout v hspaces hlength hrest

theorem decode_write_all (layout : Layout) (v : Value) :
    decode (write layout v) = some (v, []) := by
  have hstops : Stops [] := nofun
  rw [← decode_write layout v hstops, List.append_nil]

theorem parse_write (layout : Layout) (v : Value) : parse (write layout v) = some v := by
  rw [parse, decode_write_all]
  rfl

end NevelCore.Foundations.JsonText
