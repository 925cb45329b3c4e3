import NevelCore.Foundations.SlashPath
import NevelCore.Foundations.TextNumerals
import NevelCore.Storage.DB

/-!
# The texts of the keys

The key functions of `storage/storage.go`. A text starts with the kind of the key, and the kinds are
told apart by a few characters (`labelOf`), although one label is the start of another one. What
follows the label is hexadecimal or decimal digits, so the keys are injective (`Key.text_injective`)
and each is the name of a file of its own (`Key.isName_text`).
-/

set_option autoImplicit false
set_option relaxedAutoImplicit false

namespace NevelCore

open Foundations SlashPath

/-- `[]byte(s)`. -/
def bytesOf (s : String) : List UInt8 := s.toUTF8.toList

/-- The colon before the place of an output. -/
def colon : UInt8 := 0x3a

/-- The text of an outpoint, `%x:%d`. -/
def Outpoint.text (outpoint : Outpoint) : List UInt8 :=
  encodeHex outpoint.hash.toList ++ colon :: decimal outpoint.index.toNat

namespace Key

/-- What the text of a key starts with. -/
def label : Key → String
  | .blockHeight _ => "block:"
  | .blockHash _ => "blockhash:"
  | .tx _ => "tx:"
  | .utxo _ => "utxo:"
  | .spent _ => "spent:"
  | .tip => "chain:tip"
  | .totalWork _ => "chain:totalwork:"
  | .undo _ => "undo:"

/-- What follows the label. -/
def body : Key → List UInt8
  | .blockHeight height => encodeHex (beBytes 8 height.toNat)
  | .blockHash hash => encodeHex hash.toList
  | .tx hash => encodeHex hash.toList
  | .utxo outpoint => outpoint.text
  | .spent outpoint => outpoint.text
  | .tip => []
  | .totalWork hash => encodeHex hash.toList
  | .undo hash => encodeHex hash.toList

/-- The text of a key: `keyBlockHeight`, `keyBlockHash`, `keyTx`, `keyUTXO`, `keySpent`,
`keyTotalWork`, `keyUndo` and `chain:tip`. -/
def text (key : Key) : List UInt8 := bytesOf key.label ++ key.body

end Key

/-! ### The labels -/

/-- The label of a key in bytes. -/
def Key.labelBytes : Key → List UInt8
  | .blockHeight _ => [0x62, 0x6c, 0x6f, 0x63, 0x6b, 0x3a]
  | .blockHash _ => [0x62, 0x6c, 0x6f, 0x63, 0x6b, 0x68, 0x61, 0x73, 0x68, 0x3a]
  | .tx _ => [0x74, 0x78, 0x3a]
  | .utxo _ => [0x75, 0x74, 0x78, 0x6f, 0x3a]
  | .spent _ => [0x73, 0x70, 0x65, 0x6e, 0x74, 0x3a]
  | .tip => [0x63, 0x68, 0x61, 0x69, 0x6e, 0x3a, 0x74, 0x69, 0x70]
  | .totalWork _ =>
    [0x63, 0x68, 0x61, 0x69, 0x6e, 0x3a, 0x74, 0x6f, 0x74, 0x61, 0x6c, 0x77, 0x6f, 0x72, 0x6b, 0x3a]
  | .undo _ => [0x75, 0x6e, 0x64, 0x6f, 0x3a]

theorem Key.bytesOf_label (key : Key) : bytesOf key.label = key.labelBytes := by
  cases key <;> simp only [label, labelBytes] <;> decide +kernel

/-- The label of a key, told from a few characters of a text. -/
def labelOf : List UInt8 → String
  | 0x62 :: _ :: _ :: _ :: _ :: 0x3a :: _ => "block:"
  | 0x62 :: _ => "blockhash:"
  | 0x74 :: _ => "tx:"
  | 0x75 :: 0x74 :: _ => "utxo:"
  | 0x75 :: _ => "undo:"
  | 0x73 :: _ => "spent:"
  | 0x63 :: _ :: _ :: _ :: _ :: _ :: _ :: 0x69 :: _ => "chain:tip"
  | _ => "chain:totalwork:"

theorem Key.labelOf_text (key : Key) : labelOf key.text = key.label := by
  rw [Key.text, bytesOf_label]
  cases key <;> rfl

/-! ### Different keys have different texts -/

theorem encodeHex_hash_inj {hash hash' : Hash}
    (h : encodeHex hash.toList = encodeHex hash'.toList) : hash = hash' :=
  Bytes32.ext (encodeHex_injective h)

theorem Outpoint.text_injective : Function.Injective Outpoint.text := by
  rintro ⟨hash, index⟩ ⟨hash', index'⟩ h
  have hlength : (encodeHex hash.toList).length = (encodeHex hash'.toList).length := by
    rw [length_encodeHex, length_encodeHex, hash.length_eq, hash'.length_eq]
  obtain ⟨hhash, hindex⟩ := List.append_inj h hlength
  exact congrArg₂ Outpoint.mk (encodeHex_hash_inj hhash)
    (UInt32.toNat_inj.mp (decimal_injective (List.cons.inj hindex).2))

theorem beBytes_height_inj {height height' : UInt64}
    (h : beBytes 8 height.toNat = beBytes 8 height'.toNat) : height = height' := by
  have hvalue (height : UInt64) : beValue (beBytes 8 height.toNat) = height.toNat := by
    rw [beValue_beBytes]
    exact Nat.mod_eq_of_lt height.toNat_lt
  exact UInt64.toNat_inj.mp (by rw [← hvalue height, h, hvalue height'])

theorem Key.text_injective : Function.Injective Key.text := by
  intro key key' h
  have hlabel : key.label = key'.label := by rw [← labelOf_text, h, labelOf_text]
  have hbody : key.body = key'.body := by
    rw [Key.text, Key.text, hlabel] at h
    exact List.append_cancel_left h
  -- the labels differ unless both keys are of one kind
  cases key <;> cases key' <;> simp only [label, String.reduceEq] at hlabel
  · exact congrArg Key.blockHeight (beBytes_height_inj (encodeHex_injective hbody))
  · exact congrArg Key.blockHash (encodeHex_hash_inj hbody)
  · exact congrArg Key.tx (encodeHex_hash_inj hbody)
  · exact congrArg Key.utxo (Outpoint.text_injective hbody)
  · exact congrArg Key.spent (Outpoint.text_injective hbody)
  · rfl
  · exact congrArg Key.totalWork (encodeHex_hash_inj hbody)
  · exact congrArg Key.undo (encodeHex_hash_inj hbody)

/-! ### A text is the name of a file -/

/-- The character is no slash and no dot. -/
def Plain (c : UInt8) : Prop := c ≠ slash ∧ c ≠ 0x2e

instance : DecidablePred Plain := fun _ ↦ instDecidableAnd

theorem plain_of_mem_encodeHex {bytes : List UInt8} {c : UInt8} (h : c ∈ encodeHex bytes) :
    Plain c := by
  obtain ⟨digit, hdigit, rfl⟩ := exists_of_mem_encodeHex h
  exact of_table digit hdigit (by decide)

theorem plain_of_mem_decimal {n : ℕ} {c : UInt8} (h : c ∈ decimal n) : Plain c := by
  have hdigit := isDecimalDigit_of_mem_decimal h
  constructor
  · rintro rfl
    exact absurd hdigit (by decide)
  · rintro rfl
    exact absurd hdigit (by decide)

theorem Outpoint.plain_of_mem_text {outpoint : Outpoint} {c : UInt8} (h : c ∈ outpoint.text) :
    Plain c := by
  rw [Outpoint.text, List.mem_append, List.mem_cons] at h
  rcases h with h | rfl | h
  · exact plain_of_mem_encodeHex h
  · decide
  · exact plain_of_mem_decimal h

theorem Key.plain_of_mem_body {key : Key} {c : UInt8} (h : c ∈ key.body) : Plain c := by
  cases key with
  | utxo outpoint => exact Outpoint.plain_of_mem_text h
  | spent outpoint => exact Outpoint.plain_of_mem_text h
  | tip => exact absurd h List.not_mem_nil
  | blockHeight _ | blockHash _ | tx _ | totalWork _ | undo _ => exact plain_of_mem_encodeHex h

theorem Key.labelBytes_plain (key : Key) :
    key.labelBytes ≠ [] ∧ ∀ c ∈ key.labelBytes, Plain c := by
  cases key <;> simp only [labelBytes] <;> decide +kernel

theorem Key.isName_text (key : Key) : IsName key.text := by
  have htext : key.text = key.labelBytes ++ key.body := by rw [text, bytesOf_label]
  have hplain : ∀ c ∈ key.text, Plain c := fun c hc ↦
    (List.mem_append.mp (htext ▸ hc)).elim (key.labelBytes_plain.2 c) plain_of_mem_body
  have hne : key.text ≠ [] := by
    rw [htext]
    exact List.append_ne_nil_of_left_ne_nil key.labelBytes_plain.1 _
  refine ⟨hne, ?_, ?_, fun hmem ↦ (hplain _ hmem).1 rfl⟩
  all_goals
    intro heq
    exact (hplain 0x2e (heq ▸ List.mem_cons_self)).2 rfl

end NevelCore
