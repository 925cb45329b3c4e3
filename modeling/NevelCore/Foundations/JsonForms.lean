import NevelCore.Foundations.JsonText

/-!
# Values as JSON

How the package `json` of Go writes values of a type and reads them back. A `Form` has the JSON
value of each value of a type, and reads `null` as the zero value, as it reads an empty slice, which
is written as one that is nil. The `Fields` of an object are put together one by one: they are
written in their order, and left out if they are empty and may be; they are read in any order, and
one that is missing is zero. A key is read only as it is written, and the first of two equal ones
counts, where the package also takes other cases, and the last.

What is written is read back (`Form.unmarshal_marshal`, `Form.unmarshal_marshalIndent`), also by a
decoder that may read only so many bytes (`Form.decodeWithin_marshal`).
-/

set_option autoImplicit false
set_option relaxedAutoImplicit false

namespace NevelCore.Foundations.JsonText

structure Form (α : Type) where
  zero : α
  toValue : α → Value
  ofValue : Value → Option α
  ofValue_null : ofValue .null = some zero
  ofValue_toValue : ∀ a, ofValue (toValue a) = some a

variable {α β : Type}

namespace Form

/-! ### Texts -/

/-- `Marshal`. -/
def marshal (form : Form α) (a : α) : List UInt8 := write none (form.toValue a)

/-- `MarshalIndent` with two blanks. -/
def marshalIndent (form : Form α) (a : α) : List UInt8 := write (some 0) (form.toValue a)

/-- `Unmarshal`. -/
def unmarshal (form : Form α) (text : List UInt8) : Option α := (parse text).bind form.ofValue

/-- `Unmarshal`, with an error for what is not read. -/
def unmarshalOrError (form : Form α) (text : List UInt8) : Except String α :=
  (form.unmarshal text).elim (.error "invalid JSON") .ok

/-- `Decode` of a decoder that may read so many bytes. -/
def decodeWithin (form : Form α) (limit : ℕ) (text : List UInt8) : Option α :=
  (decode (text.take limit)).bind fun (v, _) ↦ form.ofValue v

theorem unmarshal_marshal (form : Form α) (a : α) : form.unmarshal (form.marshal a) = some a := by
  rw [unmarshal, marshal, parse_write, Option.bind_some, form.ofValue_toValue]

theorem unmarshal_marshalIndent (form : Form α) (a : α) :
    form.unmarshal (form.marshalIndent a) = some a := by
  rw [unmarshal, marshalIndent, parse_write, Option.bind_some, form.ofValue_toValue]

theorem unmarshalOrError_marshal (form : Form α) (a : α) :
    form.unmarshalOrError (form.marshal a) = .ok a := by
  rw [unmarshalOrError, form.unmarshal_marshal, Option.elim_some]

theorem unmarshalOrError_marshalIndent (form : Form α) (a : α) :
    form.unmarshalOrError (form.marshalIndent a) = .ok a := by
  rw [unmarshalOrError, form.unmarshal_marshalIndent, Option.elim_some]

theorem decodeWithin_marshal (form : Form α) {limit : ℕ} {a : α}
    (h : (form.marshal a).length ≤ limit) : form.decodeWithin limit (form.marshal a) = some a := by
  rw [decodeWithin, List.take_of_length_le h, marshal, decode_write_all, Option.bind_some]
  exact form.ofValue_toValue a

theorem marshal_ne_nil (form : Form α) (a : α) : form.marshal a ≠ [] := by
  obtain ⟨c, text, hcons, -⟩ := exists_write_eq_cons none (form.toValue a)
  rw [marshal, hcons]
  exact List.cons_ne_nil _ _

/-! ### Forms -/

/-- The form of a type that has the values of another one. -/
def map (form : Form α) (f : α → β) (g : β → α) (h : ∀ b, f (g b) = b) : Form β where
  zero := f form.zero
  toValue b := form.toValue (g b)
  ofValue v := (form.ofValue v).map f
  ofValue_null := by rw [form.ofValue_null, Option.map_some]
  ofValue_toValue b := by rw [form.ofValue_toValue, Option.map_some, h]

def bool : Form Bool where
  zero := false
  toValue := .bool
  ofValue
    | .null => some false
    | .bool b => some b
    | _ => none
  ofValue_null := rfl
  ofValue_toValue _ := rfl

/-- Whole numbers of a range. -/
def integer (toInt : α → ℤ) (ofInt : ℤ → α) (low high : ℤ)
    (h : ∀ a, low ≤ toInt a ∧ toInt a < high ∧ ofInt (toInt a) = a) : Form α where
  zero := ofInt 0
  toValue a := .number (toInt a)
  ofValue
    | .null => some (ofInt 0)
    | .number n => if low ≤ n ∧ n < high then some (ofInt n) else none
    | _ => none
  ofValue_null := rfl
  ofValue_toValue a := by
    obtain ⟨hlow, hhigh, heq⟩ := h a
    dsimp only
    rw [if_pos ⟨hlow, hhigh⟩, heq]

def uint8 : Form UInt8 :=
  integer (fun n ↦ n.toNat) (fun n ↦ UInt8.ofNat n.toNat) 0 (2 ^ 8) fun n ↦ by
    have hlt := n.toNat_lt
    refine ⟨by omega, by omega, ?_⟩
    rw [Int.toNat_natCast, UInt8.ofNat_toNat]

def uint32 : Form UInt32 :=
  integer (fun n ↦ n.toNat) (fun n ↦ UInt32.ofNat n.toNat) 0 (2 ^ 32) fun n ↦ by
    have hlt := n.toNat_lt
    refine ⟨by omega, by omega, ?_⟩
    rw [Int.toNat_natCast, UInt32.ofNat_toNat]

def uint64 : Form UInt64 :=
  integer (fun n ↦ n.toNat) (fun n ↦ UInt64.ofNat n.toNat) 0 (2 ^ 64) fun n ↦ by
    have hlt := n.toNat_lt
    refine ⟨by omega, by omega, ?_⟩
    rw [Int.toNat_natCast, UInt64.ofNat_toNat]

def int64 : Form Int64 :=
  integer Int64.toInt Int64.ofInt (-2 ^ 63) (2 ^ 63) fun n ↦
    ⟨n.le_toInt, n.toInt_lt, Int64.ofInt_toInt n⟩

def text : Form (List UInt8) where
  zero := []
  toValue := .text
  ofValue
    | .null => some []
    | .text bytes => some bytes
    | _ => none
  ofValue_null := rfl
  ofValue_toValue _ := rfl

/-- Texts that are valid UTF-8. -/
def string : Form String where
  zero := ""
  toValue s := .text s.toUTF8.data.toList
  ofValue
    | .null => some ""
    | .text bytes => String.fromUTF8? ⟨bytes.toArray⟩
    | _ => none
  ofValue_null := rfl
  ofValue_toValue s := by
    dsimp only
    rw [Array.toArray_toList, String.fromUTF8?]
    exact dif_pos s.isValidUTF8

/-- A slice of bytes. -/
def bytes : Form (List UInt8) where
  zero := []
  toValue bytes := if bytes = [] then .null else .text (encodeBase64 bytes)
  ofValue
    | .null => some []
    | .text text => decodeBase64 text
    | _ => none
  ofValue_null := rfl
  ofValue_toValue bytes := by
    split_ifs with h
    · rw [h]
    · exact decodeBase64_encode bytes

theorem mapM_toValue (form : Form α) (items : List α) :
    (items.map form.toValue).mapM form.ofValue = some items := by
  induction items with
  | nil => rfl
  | cons item items ih =>
    rw [List.map_cons, List.mapM_cons, form.ofValue_toValue, ih]
    rfl

/-- A slice of other values. -/
def list (form : Form α) : Form (List α) where
  zero := []
  toValue items := if items.isEmpty then .null else .array (items.map form.toValue)
  ofValue
    | .null => some []
    | .array items => items.mapM form.ofValue
    | _ => none
  ofValue_null := rfl
  ofValue_toValue items := by
    cases items with
    | nil => rfl
    | cons item items => exact form.mapM_toValue (item :: items)

/-- Slices, by the form of their lists. -/
def slice (form : Form (List α)) (h : form.zero = []) : Form (Slice α) where
  zero := ⟨[], Nat.two_pow_pos 31⟩
  toValue items := form.toValue items.toList
  ofValue v := (form.ofValue v).bind fun items ↦
    if h : items.length < 2 ^ 31 then some ⟨items, h⟩ else none
  ofValue_null := by
    rw [form.ofValue_null, h]
    rfl
  ofValue_toValue items := by
    rw [form.ofValue_toValue, Option.bind_some, dif_pos items.length_lt]

/-- An array of bytes is written as its numbers, and filled up or cut when it is read. -/
def bytes32 : Form Bytes32 where
  zero := .padded []
  toValue array := .array (array.toList.map uint8.toValue)
  ofValue
    | .null => some (.padded [])
    | .array items => (items.mapM uint8.ofValue).map .padded
    | _ => none
  ofValue_null := rfl
  ofValue_toValue array := by
    dsimp only
    rw [mapM_toValue, Option.map_some, Bytes32.padded_toList]

end Form

/-! ### Objects -/

/-- The fields of an object: their keys, their values, where one may be left out, and how they are
read. -/
structure Fields (α : Type) where
  zero : α
  keys : List (List UInt8)
  values : α → List (Option Value)
  read : List (Option Value) → Option α
  length_values : ∀ a, (values a).length = keys.length
  read_values : ∀ a, read (values a) = some a

/-- The fields that are not left out. -/
def present (keys : List (List UInt8)) (values : List (Option Value)) :
    List (List UInt8 × Value) :=
  (keys.zip values).filterMap fun (key, value) ↦ value.map (key, ·)

theorem lookup_present_of_notMem {key : List UInt8} {keys : List (List UInt8)}
    (h : key ∉ keys) (values : List (Option Value)) : (present keys values).lookup key = none := by
  refine List.lookup_eq_none_iff.mpr fun field hfield ↦ ?_
  obtain ⟨⟨key', value⟩, hmem, hsome⟩ := List.mem_filterMap.mp hfield
  obtain ⟨v, -, rfl⟩ := Option.map_eq_some_iff.mp hsome
  have hkey : key ≠ key' := fun heq ↦ h (heq ▸ (List.of_mem_zip hmem).1)
  exact bne_iff_ne.mpr hkey

/-- Each field is found under its key. -/
theorem map_lookup_present {keys : List (List UInt8)} (h : keys.Nodup)
    {values : List (Option Value)} (hlength : values.length = keys.length) :
    keys.map (fun key ↦ (present keys values).lookup key) = values := by
  induction keys generalizing values with
  | nil => exact (List.length_eq_zero_iff.mp hlength).symm
  | cons key keys ih =>
    obtain ⟨hkey, hkeys⟩ := List.nodup_cons.mp h
    cases values with
    | nil => cases hlength
    | cons value values =>
      have hrest := ih hkeys (Nat.succ.inj hlength)
      have hothers : ∀ key' ∈ keys, (present (key :: keys) (value :: values)).lookup key' =
          (present keys values).lookup key' := by
        intro key' hkey'
        cases value with
        | none => rfl
        | some v =>
          have hne : key' ≠ key := fun heq ↦ hkey (heq ▸ hkey')
          change List.lookup key' ((key, v) :: present keys values) = _
          rw [List.lookup_cons, beq_false_of_ne hne]
      rw [List.map_cons, List.map_congr_left hothers, hrest]
      congr 1
      cases value with
      | none => exact lookup_present_of_notMem hkey values
      | some v =>
        change List.lookup key ((key, v) :: present keys values) = _
        rw [List.lookup_cons, beq_self_eq_true]

namespace Fields

def empty : Fields Unit where
  zero := ()
  keys := []
  values _ := []
  read _ := some ()
  length_values _ := rfl
  read_values _ := rfl

/-- The value of a field that may be missing. -/
def fieldValue (form : Form α) : Option Value → Option α
  | none => some form.zero
  | some v => form.ofValue v

/-- One more field before others. -/
def field (key : String) (form : Form α) (fields : Fields β) : Fields (α × β) where
  zero := (form.zero, fields.zero)
  keys := key.toUTF8.toList :: fields.keys
  values a := some (form.toValue a.1) :: fields.values a.2
  read
    | [] => none
    | value :: values => do
      let a ← fieldValue form value
      let b ← fields.read values
      some (a, b)
  length_values a := congrArg (· + 1) (fields.length_values a.2)
  read_values a := by
    dsimp only [fieldValue]
    rw [form.ofValue_toValue, fields.read_values]
    rfl

/-- One more field before others, which is left out if it is zero. -/
def fieldOmitEmpty [DecidableEq α] (key : String) (form : Form α) (fields : Fields β) :
    Fields (α × β) where
  zero := (form.zero, fields.zero)
  keys := key.toUTF8.toList :: fields.keys
  values a := (if a.1 = form.zero then none else some (form.toValue a.1)) :: fields.values a.2
  read := (field key form fields).read
  length_values a := congrArg (· + 1) (fields.length_values a.2)
  read_values a := by
    dsimp only [field]
    have hvalue : fieldValue form (if a.1 = form.zero then none else some (form.toValue a.1)) =
        some a.1 := by
      split_ifs with h
      · exact congrArg some h.symm
      · exact form.ofValue_toValue a.1
    rw [hvalue, fields.read_values]
    rfl

/-- The form of an object with these fields. -/
def form (fields : Fields α) (h : fields.keys.Nodup) : Form α where
  zero := fields.zero
  toValue a := .object (present fields.keys (fields.values a))
  ofValue
    | .null => some fields.zero
    | .object found => fields.read (fields.keys.map fun key ↦ found.lookup key)
    | _ => none
  ofValue_null := rfl
  ofValue_toValue a := by
    dsimp only
    rw [map_lookup_present h (fields.length_values a), fields.read_values]

end Fields

end NevelCore.Foundations.JsonText
