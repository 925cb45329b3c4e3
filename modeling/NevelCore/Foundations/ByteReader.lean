import NevelCore.Foundations.Bytes

/-!
# Readers of byte strings

A `Reader` takes the unread bytes and returns a value with the bytes still unread, or an error.
`readFull` reads a fixed count of bytes with the two end-of-input errors, and `readMany` repeats a
reader. A reader `Inverts` a writer within a limit when it returns what was written and leaves the
following bytes alone for every value within the limit, and fails on what was written for every
other value. The rules `Inverts.accepts`, `Inverts.refuses`, `Reader.bind_of_ok` and
`Reader.bind_of_error` compose along a sequence of reads, and `readMany_accepts` and
`readMany_refuses` lift a reader of items to lists of items.

The other direction starts from bytes nobody is known to have written. A reader is `Canonical` when
the bytes it takes are exactly what the writer writes for the value it returns, so that a value has
one encoding only. `Reader.bind_eq_ok` takes a sequence of reads apart and `readMany_canonical` is
the rule for lists. A writer is `PrefixFree` when the end of what it wrote can be found without a
reader, which is what makes writers without limits injective (`PrefixFree.flatMap`).
-/

set_option autoImplicit false
set_option relaxedAutoImplicit false

namespace NevelCore.Foundations

/-- Why a read fails: no byte left, too few bytes left, or a count over its limit. -/
inductive ReadError where
  | eof
  | unexpectedEof
  | limit (label : String) (value : ℕ)
deriving DecidableEq

/-- The text of a read error. -/
def ReadError.message : ReadError → String
  | .eof => "EOF"
  | .unexpectedEof => "unexpected EOF"
  | .limit label value => label ++ ": " ++ toString value

/-- A reader of the unread bytes of an input. -/
structure Reader (α : Type) where
  run : List UInt8 → Except ReadError (α × List UInt8)

namespace Reader

variable {α β : Type}

instance : Monad Reader where
  pure a := ⟨fun input ↦ .ok (a, input)⟩
  bind read next := ⟨fun input ↦
    match read.run input with
    | .ok (a, rest) => (next a).run rest
    | .error e => .error e⟩

/-- The reader that fails without reading. -/
def fail (e : ReadError) : Reader α := ⟨fun _ ↦ .error e⟩

@[simp] theorem run_pure (a : α) (input : List UInt8) :
    (pure a : Reader α).run input = .ok (a, input) := rfl

@[simp] theorem run_fail (e : ReadError) (input : List UInt8) :
    (fail e : Reader α).run input = .error e := rfl

theorem bind_of_ok {read : Reader α} {next : α → Reader β} {input rest : List UInt8} {a : α}
    (h : read.run input = .ok (a, rest)) : (read >>= next).run input = (next a).run rest := by
  change (match read.run input with
    | .ok (a, rest) => (next a).run rest
    | .error e => .error e) = _
  rw [h]

theorem bind_of_error {read : Reader α} {next : α → Reader β} {input : List UInt8} {e : ReadError}
    (h : read.run input = .error e) : (read >>= next).run input = .error e := by
  change (match read.run input with
    | .ok (a, rest) => (next a).run rest
    | .error e => .error e) = _
  rw [h]

/-- A sequence of two reads succeeds only if both do. -/
theorem bind_eq_ok {read : Reader α} {next : α → Reader β} {input rest : List UInt8} {b : β}
    (h : (read >>= next).run input = .ok (b, rest)) :
    ∃ a middle, read.run input = .ok (a, middle) ∧ (next a).run middle = .ok (b, rest) := by
  cases hread : read.run input with
  | error e =>
    rw [bind_of_error hread] at h
    cases h
  | ok result =>
    obtain ⟨a, middle⟩ := result
    rw [bind_of_ok hread] at h
    exact ⟨a, middle, rfl, h⟩

end Reader

/-- Reads exactly `count` bytes. -/
def readFull (count : ℕ) : Reader {bytes : List UInt8 // bytes.length = count} := ⟨fun input ↦
  if h : count ≤ input.length then
    .ok (⟨input.take count, List.length_take_of_le h⟩, input.drop count)
  else if input.length = 0 then .error .eof
  else .error .unexpectedEof⟩

/-- Reads `count` items one after another. -/
def readMany {α : Type} (item : Reader α) :
    (count : ℕ) → Reader {items : List α // items.length = count}
  | 0 => pure ⟨[], rfl⟩
  | count + 1 => do
    let first ← item
    let others ← readMany item count
    pure ⟨first :: others.val, by rw [List.length_cons, others.property]⟩

def readUInt32 : Reader UInt32 := do
  let bytes ← readFull 4
  pure (UInt32.ofNat (leValue bytes.val))

def readUInt64 : Reader UInt64 := do
  let bytes ← readFull 8
  pure (UInt64.ofNat (leValue bytes.val))

def readInt64 : Reader Int64 := do
  let bytes ← readFull 8
  pure (UInt64.ofNat (leValue bytes.val)).toInt64

def readBytes32 : Reader Bytes32 := do
  let bytes ← readFull 32
  pure ⟨bytes.val, bytes.property⟩

def writeUInt32 (value : UInt32) : List UInt8 := leBytes 4 value.toNat

def writeUInt64 (value : UInt64) : List UInt8 := leBytes 8 value.toNat

def writeInt64 (value : Int64) : List UInt8 := leBytes 8 value.toUInt64.toNat

/-! ### Reading back what was written -/

/-- A reader returns what a writer wrote, within a limit, and fails on everything else written. -/
structure Inverts {α : Type} (write : α → List UInt8) (read : Reader α) (within : α → Prop) :
    Prop where
  accepts : ∀ a rest, within a → read.run (write a ++ rest) = .ok (a, rest)
  refuses : ∀ a rest, ¬ within a → ∃ e, read.run (write a ++ rest) = .error e

theorem readFull_append {count : ℕ} {front : List UInt8} (hfront : front.length = count)
    (rest : List UInt8) : (readFull count).run (front ++ rest) = .ok (⟨front, hfront⟩, rest) := by
  have hle : count ≤ (front ++ rest).length := by
    rw [List.length_append, hfront]
    exact Nat.le_add_right _ _
  subst hfront
  simp only [readFull, dif_pos hle]
  simp

theorem readUInt32_write (value : UInt32) (rest : List UInt8) :
    readUInt32.run (writeUInt32 value ++ rest) = .ok (value, rest) := by
  have hvalue : value.toNat % 256 ^ 4 = value.toNat :=
    Nat.mod_eq_of_lt (lt_of_lt_of_eq value.toNat_lt (by decide))
  rw [writeUInt32, readUInt32, Reader.bind_of_ok (readFull_append (length_leBytes 4 _) rest),
    leValue_leBytes, hvalue, UInt32.ofNat_toNat]
  rfl

theorem readUInt64_write (value : UInt64) (rest : List UInt8) :
    readUInt64.run (writeUInt64 value ++ rest) = .ok (value, rest) := by
  have hvalue : value.toNat % 256 ^ 8 = value.toNat :=
    Nat.mod_eq_of_lt (lt_of_lt_of_eq value.toNat_lt (by decide))
  rw [writeUInt64, readUInt64, Reader.bind_of_ok (readFull_append (length_leBytes 8 _) rest),
    leValue_leBytes, hvalue, UInt64.ofNat_toNat]
  rfl

theorem readInt64_write (value : Int64) (rest : List UInt8) :
    readInt64.run (writeInt64 value ++ rest) = .ok (value, rest) := by
  have hvalue : value.toUInt64.toNat % 256 ^ 8 = value.toUInt64.toNat :=
    Nat.mod_eq_of_lt (lt_of_lt_of_eq value.toUInt64.toNat_lt (by decide))
  rw [writeInt64, readInt64, Reader.bind_of_ok (readFull_append (length_leBytes 8 _) rest),
    leValue_leBytes, hvalue, UInt64.ofNat_toNat]
  rfl

theorem readBytes32_append (value : Bytes32) (rest : List UInt8) :
    readBytes32.run (value.toList ++ rest) = .ok (value, rest) := by
  rw [readBytes32, Reader.bind_of_ok (readFull_append value.length_eq rest)]
  rfl

section Many

variable {α : Type} {write : α → List UInt8} {item : Reader α} {within : α → Prop}

/-- A repeated reader inverts the concatenation of the written items. -/
theorem readMany_accepts (h : Inverts write item within) {items : List α}
    (hitems : ∀ a ∈ items, within a) (rest : List UInt8) :
    (readMany item items.length).run (items.flatMap write ++ rest) = .ok (⟨items, rfl⟩, rest) := by
  induction items with
  | nil => rfl
  | cons first others ih =>
    have hfirst : within first := hitems first List.mem_cons_self
    have hothers : ∀ a ∈ others, within a := fun a ha ↦ hitems a (List.mem_cons_of_mem first ha)
    rw [List.flatMap_cons, List.append_assoc]
    change (item >>= fun first ↦ readMany item others.length >>= fun others ↦
      pure (⟨first :: others.val, by rw [List.length_cons, others.property]⟩ :
        {items : List α // items.length = _ + 1})).run _ = _
    rw [Reader.bind_of_ok (h.accepts first _ hfirst), Reader.bind_of_ok (ih hothers)]
    rfl

/-- A repeated reader fails when some item is outside the limit of its reader. -/
theorem readMany_refuses (h : Inverts write item within) {items : List α}
    (hitems : ¬ ∀ a ∈ items, within a) (rest : List UInt8) :
    ∃ e, (readMany item items.length).run (items.flatMap write ++ rest) = .error e := by
  induction items with
  | nil => exact absurd (fun a ha ↦ absurd ha List.not_mem_nil) hitems
  | cons first others ih =>
    rw [List.length_cons, readMany, List.flatMap_cons, List.append_assoc]
    by_cases hfirst : within first
    · have hothers : ¬ ∀ a ∈ others, within a := by
        intro hall
        exact hitems (List.forall_mem_cons.mpr ⟨hfirst, hall⟩)
      obtain ⟨e, he⟩ := ih hothers
      refine ⟨e, ?_⟩
      rw [Reader.bind_of_ok (h.accepts first _ hfirst), Reader.bind_of_error he]
    · obtain ⟨e, he⟩ := h.refuses first (others.flatMap write ++ rest) hfirst
      exact ⟨e, Reader.bind_of_error he⟩

end Many

/-! ### What a reader accepts -/

/-- Whatever a reader accepts is what the writer writes for the value returned, followed by the
bytes left unread, and the value is within the limit. -/
def Canonical {α : Type} (write : α → List UInt8) (read : Reader α) (within : α → Prop) : Prop :=
  ∀ {input a rest}, read.run input = .ok (a, rest) → input = write a ++ rest ∧ within a

theorem readFull_eq_ok {count : ℕ} {input rest : List UInt8}
    {bytes : {bytes : List UInt8 // bytes.length = count}}
    (h : (readFull count).run input = .ok (bytes, rest)) : input = bytes.val ++ rest := by
  simp only [readFull] at h
  split_ifs at h with hlong hnone
  cases h
  exact (List.take_append_drop count input).symm

/-- The bytes of a number of `count` bytes are the number's own. -/
theorem leBytes_of_eq {count value : ℕ} {bytes : List UInt8} (hbytes : bytes.length = count)
    (hvalue : value = leValue bytes) : leBytes count value = bytes := by
  rw [hvalue, ← hbytes, leBytes_leValue]

theorem readUInt32_canonical : Canonical writeUInt32 readUInt32 fun _ ↦ True := by
  intro input value rest h
  obtain ⟨⟨bytes, hbytes⟩, middle, hread, hvalue⟩ := Reader.bind_eq_ok h
  cases hvalue
  have hlt := leValue_lt bytes
  rw [hbytes] at hlt
  refine ⟨?_, trivial⟩
  rw [readFull_eq_ok hread, writeUInt32,
    leBytes_of_eq hbytes (UInt32.toNat_ofNat_of_lt' (lt_of_lt_of_eq hlt (by decide)))]

theorem readUInt64_canonical : Canonical writeUInt64 readUInt64 fun _ ↦ True := by
  intro input value rest h
  obtain ⟨⟨bytes, hbytes⟩, middle, hread, hvalue⟩ := Reader.bind_eq_ok h
  cases hvalue
  have hlt := leValue_lt bytes
  rw [hbytes] at hlt
  refine ⟨?_, trivial⟩
  rw [readFull_eq_ok hread, writeUInt64,
    leBytes_of_eq hbytes (UInt64.toNat_ofNat_of_lt' (lt_of_lt_of_eq hlt (by decide)))]

theorem readInt64_canonical : Canonical writeInt64 readInt64 fun _ ↦ True := by
  intro input value rest h
  obtain ⟨⟨bytes, hbytes⟩, middle, hread, hvalue⟩ := Reader.bind_eq_ok h
  cases hvalue
  have hlt := leValue_lt bytes
  rw [hbytes] at hlt
  refine ⟨?_, trivial⟩
  rw [readFull_eq_ok hread, writeInt64, UInt64.toUInt64_toInt64,
    leBytes_of_eq hbytes (UInt64.toNat_ofNat_of_lt' (lt_of_lt_of_eq hlt (by decide)))]

theorem readBytes32_canonical : Canonical Bytes32.toList readBytes32 fun _ ↦ True := by
  intro input value rest h
  obtain ⟨⟨bytes, hbytes⟩, middle, hread, hvalue⟩ := Reader.bind_eq_ok h
  cases hvalue
  exact ⟨readFull_eq_ok hread, trivial⟩

/-- A repeated canonical reader takes exactly the concatenation of the written items. -/
theorem readMany_canonical {α : Type} {write : α → List UInt8} {item : Reader α}
    {within : α → Prop} (hitem : Canonical write item within) {count : ℕ}
    {input rest : List UInt8} {items : {items : List α // items.length = count}}
    (h : (readMany item count).run input = .ok (items, rest)) :
    input = items.val.flatMap write ++ rest ∧ ∀ a ∈ items.val, within a := by
  induction count generalizing input rest with
  | zero =>
    cases h
    exact ⟨rfl, fun a ha ↦ absurd ha List.not_mem_nil⟩
  | succ count ih =>
    obtain ⟨first, afterFirst, hfirst, h⟩ := Reader.bind_eq_ok h
    obtain ⟨others, afterOthers, hothers, h⟩ := Reader.bind_eq_ok h
    cases h
    obtain ⟨hinput, hwithin⟩ := hitem hfirst
    obtain ⟨hmiddle, hall⟩ := ih hothers
    refine ⟨?_, List.forall_mem_cons.mpr ⟨hwithin, hall⟩⟩
    rw [hinput, hmiddle, List.flatMap_cons, List.append_assoc]

/-! ### Writers whose end can be found -/

/-- What the writer wrote for one value is never the start of what it wrote for another. -/
def PrefixFree {α : Type} (write : α → List UInt8) : Prop :=
  ∀ {a b rest rest'}, write a ++ rest = write b ++ rest' → a = b ∧ rest = rest'

theorem PrefixFree.injective {α : Type} {write : α → List UInt8} (h : PrefixFree write) :
    Function.Injective write := by
  intro a b hab
  have hrest : write a ++ [] = write b ++ [] := congrArg (· ++ []) hab
  exact (h hrest).1

/-- A writer with a reader that returns whatever was written is prefix-free. -/
theorem PrefixFree.of_read {α : Type} {write : α → List UInt8} {read : Reader α}
    (h : ∀ a rest, read.run (write a ++ rest) = .ok (a, rest)) : PrefixFree write := by
  intro a b rest rest' hab
  have hread := h a rest
  rw [hab, h b rest'] at hread
  cases hread
  exact ⟨rfl, rfl⟩

/-- Equally many items of a prefix-free writer are recovered one by one. -/
theorem PrefixFree.flatMap {α : Type} {write : α → List UInt8} (h : PrefixFree write)
    {items items' : List α} {rest rest' : List UInt8} (hlength : items.length = items'.length)
    (hitems : items.flatMap write ++ rest = items'.flatMap write ++ rest') :
    items = items' ∧ rest = rest' := by
  induction items generalizing items' with
  | nil =>
    obtain rfl := List.length_eq_zero_iff.mp hlength.symm
    exact ⟨rfl, hitems⟩
  | cons first others ih =>
    cases items' with
    | nil => cases hlength
    | cons first' others' =>
      rw [List.flatMap_cons, List.flatMap_cons, List.append_assoc, List.append_assoc] at hitems
      obtain ⟨rfl, hothers⟩ := h hitems
      obtain ⟨rfl, hrest⟩ := ih (Nat.succ.inj hlength) hothers
      exact ⟨rfl, hrest⟩

end NevelCore.Foundations
