import NevelCore.Errors
import NevelCore.Foundations.PackedSha256

/-!
# Transactions and their wire form

The transaction type of `tx/transaction.go`, its hash, and its wire form. The reader puts limits on
the number of inputs and outputs and on the length of every byte field, which the writer does not
have. `readTransaction_inverts` is the exact relation of the two: the reader returns every
transaction within these limits and fails on the wire form of every other.
`readTransaction_canonical` starts from arbitrary bytes: whatever the reader takes is the wire form
of the transaction it returns. `serializeTransaction_injective` has no limits, since two
transactions that were never read are told apart by their wire forms as well.
-/

set_option autoImplicit false
set_option relaxedAutoImplicit false

namespace NevelCore

open Foundations

structure Input where
  prevTxHash : Hash
  outputIdx : UInt32
  signature : Bytes
  publicKey : Bytes
deriving DecidableEq

structure Output where
  amount : UInt64
  lockingScript : Bytes
deriving DecidableEq

structure Transaction where
  version : UInt32
  inputs : Slice Input
  outputs : Slice Output
  lockTime : UInt64
deriving DecidableEq

/-- SHA-256 applied twice. -/
def doubleSha256 (bytes : List UInt8) : Hash := sha256 (sha256 bytes).toList

/-- Both digests as numbers. -/
theorem toList_doubleSha256 (bytes : List UInt8) :
    (doubleSha256 bytes).toList =
      beBytes 32 (packedSha256 32 (packedSha256 bytes.length (beValue bytes))) := by
  rw [doubleSha256, toList_sha256, toList_sha256, length_beBytes, beValue_beBytes,
    Nat.mod_eq_of_lt (packedSha256_lt _ _)]

/-! ### Writing -/

/-- `writeVarBytesList`: a count. -/
def writeVarBytesList (count : ℕ) : List UInt8 := writeUInt64 (UInt64.ofNat count)

/-- `writeBytes`: a byte field behind its length. -/
def writeBytes (bytes : Bytes) : List UInt8 :=
  writeUInt64 (UInt64.ofNat bytes.toList.length) ++ bytes.toList

def writeInput (input : Input) : List UInt8 :=
  input.prevTxHash.toList ++ (writeUInt32 input.outputIdx ++
    (writeBytes input.signature ++ writeBytes input.publicKey))

def writeOutput (output : Output) : List UInt8 :=
  writeUInt64 output.amount ++ writeBytes output.lockingScript

/-- `SerializeTransaction`. -/
def serializeTransaction (t : Transaction) : List UInt8 :=
  writeUInt32 t.version ++ (writeVarBytesList t.inputs.toList.length ++
    (t.inputs.toList.flatMap writeInput ++ (writeVarBytesList t.outputs.toList.length ++
      (t.outputs.toList.flatMap writeOutput ++ writeUInt64 t.lockTime))))

namespace Transaction

def hash (t : Transaction) : Hash := doubleSha256 (serializeTransaction t)

/-- `IsCoinbase`: the only input names output `2 ^ 32 - 1` of the zero hash. -/
def isCoinbase (t : Transaction) : Bool :=
  match t.inputs.toList with
  | [input] => input.prevTxHash = Bytes32.zero ∧ input.outputIdx = 0xffffffff
  | _ => false

end Transaction

/-- `NewCoinbase`. -/
def newCoinbase (message : String) (amount : UInt64) (script : Bytes) : Transaction where
  version := 1
  inputs := .ofList [{
    prevTxHash := Bytes32.zero
    outputIdx := 0xffffffff
    signature := .ofList message.toUTF8.toList
    publicKey := .ofList [] }]
  outputs := .ofList [{ amount := amount, lockingScript := script }]
  lockTime := 0

/-! ### Reading -/

/-- `readCount`. -/
def readCount : Reader ℕ := do
  let n ← readUInt64
  if n > 1_000_000 then .fail (.limit "count too large" n.toNat) else pure n.toNat

/-- `readBytes`. -/
def readBytes : Reader Bytes := do
  let n ← readUInt64
  if h : n.toNat > 1_000_000 then .fail (.limit "byte field too large" n.toNat)
  else
    let bytes ← readFull n.toNat
    pure ⟨bytes.val, by rw [bytes.property]; omega⟩

def readInput : Reader Input := do
  let prevTxHash ← readBytes32
  let outputIdx ← readUInt32
  let signature ← readBytes
  let publicKey ← readBytes
  pure { prevTxHash, outputIdx, signature, publicKey }

def readOutput : Reader Output := do
  let amount ← readUInt64
  let lockingScript ← readBytes
  pure { amount, lockingScript }

/-- `ReadTransaction`. -/
def readTransaction : Reader Transaction := do
  let version ← readUInt32
  let inputCount ← readCount
  if hinputs : inputCount > 10_000 then .fail (.limit "too many inputs" inputCount)
  else
    let inputs ← readMany readInput inputCount
    let outputCount ← readCount
    if houtputs : outputCount > 10_000 then .fail (.limit "too many outputs" outputCount)
    else
      let outputs ← readMany readOutput outputCount
      let lockTime ← readUInt64
      pure {
        version
        inputs := ⟨inputs.val, by rw [inputs.property]; omega⟩
        outputs := ⟨outputs.val, by rw [outputs.property]; omega⟩
        lockTime }

/-- `DeserializeTransaction`: bytes after the transaction are not looked at. -/
def deserializeTransaction (data : List UInt8) : Except Err Transaction :=
  match readTransaction.run data with
  | .ok (t, _) => .ok t
  | .error e => .error (.decode e)

/-! ### The limits of the reader -/

def Input.InLimits (input : Input) : Prop :=
  input.signature.toList.length ≤ 1_000_000 ∧ input.publicKey.toList.length ≤ 1_000_000

def Output.InLimits (output : Output) : Prop := output.lockingScript.toList.length ≤ 1_000_000

/-- The transactions the reader accepts. -/
def Transaction.InLimits (t : Transaction) : Prop :=
  t.inputs.toList.length ≤ 10_000 ∧ t.outputs.toList.length ≤ 10_000 ∧
    (∀ input ∈ t.inputs.toList, input.InLimits) ∧ ∀ output ∈ t.outputs.toList, output.InLimits

instance (input : Input) : Decidable input.InLimits :=
  inferInstanceAs (Decidable (_ ∧ _))

instance (output : Output) : Decidable output.InLimits :=
  inferInstanceAs (Decidable (_ ≤ _))

instance (t : Transaction) : Decidable t.InLimits :=
  inferInstanceAs (Decidable (_ ∧ _))

theorem toNat_ofNat_length {α : Type} (slice : Slice α) :
    (UInt64.ofNat slice.toList.length).toNat = slice.toList.length :=
  UInt64.toNat_ofNat_of_lt' (lt_trans slice.length_lt (by decide))

theorem readBytes_inverts :
    Inverts writeBytes readBytes fun bytes ↦ bytes.toList.length ≤ 1_000_000 := by
  constructor
  · intro bytes rest hbytes
    rw [writeBytes, readBytes, List.append_assoc, Reader.bind_of_ok (readUInt64_write _ _),
      dif_neg (by rw [toNat_ofNat_length]; omega),
      Reader.bind_of_ok (readFull_append (toNat_ofNat_length bytes).symm rest)]
    rfl
  · intro bytes rest hbytes
    rw [writeBytes, readBytes, List.append_assoc, Reader.bind_of_ok (readUInt64_write _ _),
      dif_pos (by rw [toNat_ofNat_length]; omega)]
    exact ⟨_, rfl⟩

/-- A count up to a million is read back, and a larger one is refused. -/
theorem readCount_write {α : Type} (slice : Slice α) (rest : List UInt8) :
    readCount.run (writeVarBytesList slice.toList.length ++ rest) =
      if slice.toList.length ≤ 1_000_000 then .ok (slice.toList.length, rest)
      else .error (.limit "count too large" slice.toList.length) := by
  have hcompare : UInt64.ofNat slice.toList.length > 1_000_000 ↔
      ¬ slice.toList.length ≤ 1_000_000 := by
    rw [gt_iff_lt, UInt64.lt_iff_toNat_lt, toNat_ofNat_length, not_le]
    rfl
  rw [writeVarBytesList, readCount, Reader.bind_of_ok (readUInt64_write _ _), toNat_ofNat_length]
  by_cases hcount : slice.toList.length ≤ 1_000_000
  · rw [if_neg (fun h ↦ hcompare.mp h hcount), if_pos hcount]
    rfl
  · rw [if_pos (hcompare.mpr hcount), if_neg hcount]
    rfl

theorem readInput_inverts : Inverts writeInput readInput Input.InLimits := by
  constructor
  · intro input rest hinput
    rw [writeInput, readInput, List.append_assoc, Reader.bind_of_ok (readBytes32_append _ _),
      List.append_assoc, Reader.bind_of_ok (readUInt32_write _ _), List.append_assoc,
      Reader.bind_of_ok (readBytes_inverts.accepts _ _ hinput.1),
      Reader.bind_of_ok (readBytes_inverts.accepts _ _ hinput.2)]
    rfl
  · intro input rest hinput
    rw [writeInput, readInput, List.append_assoc, Reader.bind_of_ok (readBytes32_append _ _),
      List.append_assoc, Reader.bind_of_ok (readUInt32_write _ _), List.append_assoc]
    by_cases hsignature : input.signature.toList.length ≤ 1_000_000
    · have hkey : ¬ input.publicKey.toList.length ≤ 1_000_000 := fun hkey ↦
        hinput ⟨hsignature, hkey⟩
      obtain ⟨e, he⟩ := readBytes_inverts.refuses input.publicKey rest hkey
      refine ⟨e, ?_⟩
      rw [Reader.bind_of_ok (readBytes_inverts.accepts _ _ hsignature), Reader.bind_of_error he]
    · obtain ⟨e, he⟩ := readBytes_inverts.refuses input.signature
        (writeBytes input.publicKey ++ rest) hsignature
      exact ⟨e, Reader.bind_of_error he⟩

theorem readOutput_inverts : Inverts writeOutput readOutput Output.InLimits := by
  constructor
  · intro output rest houtput
    rw [writeOutput, readOutput, List.append_assoc, Reader.bind_of_ok (readUInt64_write _ _),
      Reader.bind_of_ok (readBytes_inverts.accepts _ _ houtput)]
    rfl
  · intro output rest houtput
    obtain ⟨e, he⟩ := readBytes_inverts.refuses output.lockingScript rest houtput
    refine ⟨e, ?_⟩
    rw [writeOutput, readOutput, List.append_assoc, Reader.bind_of_ok (readUInt64_write _ _),
      Reader.bind_of_error he]

/-- The reader of transactions inverts their writer exactly within its limits. -/
theorem readTransaction_inverts :
    Inverts serializeTransaction readTransaction Transaction.InLimits := by
  constructor
  · rintro t rest ⟨hinputs, houtputs, hinput, houtput⟩
    rw [serializeTransaction, readTransaction, List.append_assoc,
      Reader.bind_of_ok (readUInt32_write _ _), List.append_assoc,
      Reader.bind_of_ok ((readCount_write _ _).trans (if_pos (by omega))), dif_neg (by omega),
      List.append_assoc, Reader.bind_of_ok (readMany_accepts readInput_inverts hinput _),
      List.append_assoc, Reader.bind_of_ok ((readCount_write _ _).trans (if_pos (by omega))),
      dif_neg (by omega), List.append_assoc,
      Reader.bind_of_ok (readMany_accepts readOutput_inverts houtput _),
      Reader.bind_of_ok (readUInt64_write _ _)]
    rfl
  · intro t rest hlimits
    rw [serializeTransaction, readTransaction, List.append_assoc,
      Reader.bind_of_ok (readUInt32_write _ _), List.append_assoc]
    by_cases hcount : t.inputs.toList.length ≤ 1_000_000
    swap
    · exact ⟨_, Reader.bind_of_error ((readCount_write _ _).trans (if_neg hcount))⟩
    rw [Reader.bind_of_ok ((readCount_write _ _).trans (if_pos hcount))]
    by_cases hinputs : t.inputs.toList.length ≤ 10_000
    swap
    · rw [dif_pos (by omega)]
      exact ⟨_, rfl⟩
    rw [dif_neg (by omega), List.append_assoc]
    by_cases hinput : ∀ input ∈ t.inputs.toList, input.InLimits
    swap
    · obtain ⟨e, he⟩ := readMany_refuses readInput_inverts hinput
        (writeVarBytesList t.outputs.toList.length ++
          (t.outputs.toList.flatMap writeOutput ++ writeUInt64 t.lockTime) ++ rest)
      exact ⟨e, Reader.bind_of_error he⟩
    rw [Reader.bind_of_ok (readMany_accepts readInput_inverts hinput _), List.append_assoc]
    by_cases hcount' : t.outputs.toList.length ≤ 1_000_000
    swap
    · exact ⟨_, Reader.bind_of_error ((readCount_write _ _).trans (if_neg hcount'))⟩
    rw [Reader.bind_of_ok ((readCount_write _ _).trans (if_pos hcount'))]
    by_cases houtputs : t.outputs.toList.length ≤ 10_000
    swap
    · rw [dif_pos (by omega)]
      exact ⟨_, rfl⟩
    rw [dif_neg (by omega), List.append_assoc]
    have houtput : ¬ ∀ output ∈ t.outputs.toList, output.InLimits := fun houtput ↦
      hlimits ⟨hinputs, houtputs, hinput, houtput⟩
    obtain ⟨e, he⟩ := readMany_refuses readOutput_inverts houtput (writeUInt64 t.lockTime ++ rest)
    exact ⟨e, Reader.bind_of_error he⟩

/-! ### What the reader accepts -/

theorem readBytes_canonical :
    Canonical writeBytes readBytes fun bytes ↦ bytes.toList.length ≤ 1_000_000 := by
  intro input bytes rest h
  obtain ⟨n, afterLength, hlength, h⟩ := Reader.bind_eq_ok h
  split_ifs at h with hn
  · cases h
  obtain ⟨⟨list, hlist⟩, afterBytes, hread, h⟩ := Reader.bind_eq_ok h
  cases h
  have hcount : UInt64.ofNat list.length = n := by rw [hlist, UInt64.ofNat_toNat]
  constructor
  · rw [(readUInt64_canonical hlength).1, readFull_eq_ok hread, writeBytes, hcount,
      List.append_assoc]
  · exact le_of_eq_of_le hlist (Nat.le_of_not_lt hn)

theorem readCount_canonical : Canonical writeVarBytesList readCount (· ≤ 1_000_000) := by
  intro input count rest h
  obtain ⟨n, afterLength, hlength, h⟩ := Reader.bind_eq_ok h
  split_ifs at h with hn
  · cases h
  cases h
  constructor
  · rw [(readUInt64_canonical hlength).1, writeVarBytesList, UInt64.ofNat_toNat]
  · exact UInt64.le_iff_toNat_le.mp (UInt64.not_lt.mp hn)

theorem readInput_canonical : Canonical writeInput readInput Input.InLimits := by
  intro input value rest h
  obtain ⟨prevTxHash, _, hhash, h⟩ := Reader.bind_eq_ok h
  obtain ⟨outputIdx, _, hidx, h⟩ := Reader.bind_eq_ok h
  obtain ⟨signature, _, hsignature, h⟩ := Reader.bind_eq_ok h
  obtain ⟨publicKey, _, hkey, h⟩ := Reader.bind_eq_ok h
  cases h
  obtain ⟨hsignature, hsignatureLength⟩ := readBytes_canonical hsignature
  obtain ⟨hkey, hkeyLength⟩ := readBytes_canonical hkey
  refine ⟨?_, hsignatureLength, hkeyLength⟩
  rw [(readBytes32_canonical hhash).1, (readUInt32_canonical hidx).1, hsignature, hkey, writeInput]
  simp only [List.append_assoc]

theorem readOutput_canonical : Canonical writeOutput readOutput Output.InLimits := by
  intro input value rest h
  obtain ⟨amount, _, hamount, h⟩ := Reader.bind_eq_ok h
  obtain ⟨lockingScript, _, hscript, h⟩ := Reader.bind_eq_ok h
  cases h
  obtain ⟨hscript, hlength⟩ := readBytes_canonical hscript
  refine ⟨?_, hlength⟩
  rw [(readUInt64_canonical hamount).1, hscript, writeOutput, List.append_assoc]

/-- Whatever the reader of transactions takes is the wire form of what it returns. -/
theorem readTransaction_canonical :
    Canonical serializeTransaction readTransaction Transaction.InLimits := by
  intro input t rest h
  obtain ⟨version, _, hversion, h⟩ := Reader.bind_eq_ok h
  obtain ⟨inputCount, _, hinputCount, h⟩ := Reader.bind_eq_ok h
  split_ifs at h with hinputs
  · cases h
  obtain ⟨⟨inputs, hinputsLength⟩, _, hinputsRead, h⟩ := Reader.bind_eq_ok h
  obtain ⟨outputCount, _, houtputCount, h⟩ := Reader.bind_eq_ok h
  split_ifs at h with houtputs
  · cases h
  obtain ⟨⟨outputs, houtputsLength⟩, _, houtputsRead, h⟩ := Reader.bind_eq_ok h
  obtain ⟨lockTime, _, hlockTime, h⟩ := Reader.bind_eq_ok h
  cases h
  obtain ⟨hinputsBytes, hinput⟩ := readMany_canonical readInput_canonical hinputsRead
  obtain ⟨houtputsBytes, houtput⟩ := readMany_canonical readOutput_canonical houtputsRead
  constructor
  · rw [(readUInt32_canonical hversion).1, (readCount_canonical hinputCount).1, hinputsBytes,
      (readCount_canonical houtputCount).1, houtputsBytes, (readUInt64_canonical hlockTime).1,
      serializeTransaction, hinputsLength, houtputsLength]
    simp only [List.append_assoc]
  · exact ⟨le_of_eq_of_le hinputsLength (Nat.le_of_not_lt hinputs),
      le_of_eq_of_le houtputsLength (Nat.le_of_not_lt houtputs), hinput, houtput⟩

/-- What `deserializeTransaction` succeeds on. -/
theorem deserializeTransaction_eq_ok {data : List UInt8} {t : Transaction}
    (h : deserializeTransaction data = .ok t) :
    ∃ rest, readTransaction.run data = .ok (t, rest) := by
  unfold deserializeTransaction at h
  split at h
  · rename_i t' rest hread
    cases h
    exact ⟨rest, hread⟩
  · cases h

/-! ### Transactions told apart without limits -/

theorem writeUInt64_length_inj {α : Type} {first second : Slice α} {rest rest' : List UInt8}
    (h : writeUInt64 (UInt64.ofNat first.toList.length) ++ rest =
      writeUInt64 (UInt64.ofNat second.toList.length) ++ rest') :
    first.toList.length = second.toList.length ∧ rest = rest' := by
  obtain ⟨hlength, hrest⟩ := PrefixFree.of_read readUInt64_write h
  have hnat := congrArg UInt64.toNat hlength
  rw [toNat_ofNat_length, toNat_ofNat_length] at hnat
  exact ⟨hnat, hrest⟩

theorem writeBytes_prefixFree : PrefixFree writeBytes := by
  intro first second rest rest' h
  rw [writeBytes, writeBytes, List.append_assoc, List.append_assoc] at h
  obtain ⟨hlength, hbytes⟩ := writeUInt64_length_inj h
  obtain ⟨htoList, hrest⟩ := List.append_inj hbytes hlength
  exact ⟨Slice.ext htoList, hrest⟩

theorem writeInput_prefixFree : PrefixFree writeInput := by
  rintro ⟨hash, idx, signature, key⟩ ⟨hash', idx', signature', key'⟩ rest rest' h
  simp only [writeInput, List.append_assoc] at h
  obtain ⟨rfl, hafterHash⟩ := PrefixFree.of_read readBytes32_append h
  obtain ⟨rfl, hafterIdx⟩ := PrefixFree.of_read readUInt32_write hafterHash
  obtain ⟨rfl, hafterSignature⟩ := writeBytes_prefixFree hafterIdx
  obtain ⟨rfl, hrest⟩ := writeBytes_prefixFree hafterSignature
  exact ⟨rfl, hrest⟩

theorem writeOutput_prefixFree : PrefixFree writeOutput := by
  rintro ⟨amount, script⟩ ⟨amount', script'⟩ rest rest' h
  simp only [writeOutput, List.append_assoc] at h
  obtain ⟨rfl, hafterAmount⟩ := PrefixFree.of_read readUInt64_write h
  obtain ⟨rfl, hrest⟩ := writeBytes_prefixFree hafterAmount
  exact ⟨rfl, hrest⟩

theorem serializeTransaction_prefixFree : PrefixFree serializeTransaction := by
  rintro ⟨version, inputs, outputs, lockTime⟩ ⟨version', inputs', outputs', lockTime'⟩ rest rest' h
  simp only [serializeTransaction, writeVarBytesList, List.append_assoc] at h
  obtain ⟨rfl, hafterVersion⟩ := PrefixFree.of_read readUInt32_write h
  obtain ⟨hinputs, hafterCount⟩ := writeUInt64_length_inj hafterVersion
  obtain ⟨hinputsList, hafterInputs⟩ := writeInput_prefixFree.flatMap hinputs hafterCount
  obtain ⟨houtputs, hafterCount'⟩ := writeUInt64_length_inj hafterInputs
  obtain ⟨houtputsList, hafterOutputs⟩ := writeOutput_prefixFree.flatMap houtputs hafterCount'
  obtain ⟨rfl, hrest⟩ := PrefixFree.of_read readUInt64_write hafterOutputs
  obtain rfl := Slice.ext hinputsList
  obtain rfl := Slice.ext houtputsList
  exact ⟨rfl, hrest⟩

/-- Different transactions have different wire forms, within the limits of the reader or not. -/
theorem serializeTransaction_injective : Function.Injective serializeTransaction :=
  serializeTransaction_prefixFree.injective

end NevelCore
