import NevelCore.Consensus.Passing
import NevelCore.Wallet.Address
import NevelCore.Wallet.PublicKey

/-!
# Wallets and signatures

The wallets of `wallet/wallet.go` and `SignInput`. The signing of the standard library is an
argument, since it draws random numbers.

The digest that is signed commits to the spend. Its preimage is the wire form of the transaction
with the script in the place of one signature, so without a collision of the hash it determines the
input, the script and everything of the transaction but keys and signatures
(`signaturePreimage_inj`). It depends on nothing else (`signatureHash_congr`), and so signing the
inputs one after the other, in any order, changes no digest. `signatureHash_commits` puts these
together.
-/

set_option autoImplicit false
set_option relaxedAutoImplicit false
set_option linter.dupNamespace false

namespace NevelCore.Wallet

open Foundations

/-! ### Wallets -/

/-- How a call ends without a result: it returns an error, or it panics. -/
inductive Stop where
  | error (e : WalletError)
  | panic
deriving DecidableEq

/-- Goes on with a result, or returns its error. -/
def orError {α : Type} : Except WalletError α → Except Stop α
  | .ok a => .ok a
  | .error e => .error (.error e)

/-- Goes on with a result, or panics. -/
def orPanic {α : Type} : Option α → Except Stop α
  | some a => .ok a
  | none => .error .panic

theorem orError_ok_bind {α β : Type} (a : α) (next : α → Except Stop β) :
    (orError (.ok a) >>= next) = next a :=
  rfl

theorem orPanic_some_bind {α β : Type} (a : α) (next : α → Except Stop β) :
    (orPanic (some a) >>= next) = next a :=
  rfl

/-- Goes on with the result of an operation of the curve. -/
def runOp {α : Type} (p : Op α) : Except Stop α := orPanic (p.run collect []).1.toOption

theorem runOp_bind {α β : Type} {p : Op α} {a : α} {noted : Coords → Prop} (h : Yields p a noted)
    (next : α → Except Stop β) : (runOp p >>= next) = next a := by
  obtain ⟨new, hrun, -⟩ := h []
  rw [runOp, hrun]
  rfl

/-- `PrivateKey` of the standard library: a number and the coordinates of its point. -/
structure PrivateKey where
  D : ℤ
  pub : Coords
deriving DecidableEq

structure Wallet where
  privateKey : PrivateKey
  publicKey : Bytes
  address : List UInt8
  addressPrefix : List UInt8
deriving DecidableEq

/-- `FromPrivateKey`. -/
def fromPrivateKey (maps : CaseMaps) (priv : PrivateKey) (hrp : List UInt8) :
    Except Stop Wallet := do
  let pub ← orPanic (marshalCompressed priv.pub)
  let addr ← orError (addressFromPublicKey maps pub hrp)
  pure { privateKey := priv, publicKey := .ofList pub, address := addr, addressPrefix := hrp }

/-- The value of a hexadecimal digit. -/
def hexDigit (c : UInt8) : Option UInt8 :=
  if 0x30 ≤ c ∧ c ≤ 0x39 then some (c - 0x30)
  else if 0x61 ≤ c ∧ c ≤ 0x66 then some (c - 0x57)
  else if 0x41 ≤ c ∧ c ≤ 0x46 then some (c - 0x37)
  else none

/-- `DecodeString` of the standard library's package `hex`. -/
def decodeHex : List UInt8 → Except WalletError (List UInt8)
  | [] => .ok []
  | [p] => if hexDigit p = none then .error (.hexByte p) else .error .oddHex
  | p :: q :: rest =>
    match hexDigit p, hexDigit q with
    | none, _ => .error (.hexByte p)
    | some _, none => .error (.hexByte q)
    | some a, some b => do
      let bytes ← decodeHex rest
      pure ((a <<< 4 ||| b) :: bytes)

/-- `FromHexPrivateKey`. -/
def fromHexPrivateKey (maps : CaseMaps) (h hrp : List UInt8) : Except Stop Wallet := do
  let b ← orError (decodeHex h)
  let pub ← runOp (secp256k1.scalarBaseMult b)
  fromPrivateKey maps { D := beValue b, pub := pub } hrp

/-! ### Signatures -/

/-- `Sign` of the standard library, at some state of its random source. -/
abbrev Sign := PrivateKey → Hash → Except String (ℤ × ℤ)

/-- Changes one input of a transaction in place. -/
def modifyInput (t : Transaction) (i : ℕ) (change : Input → Input) : Transaction :=
  { t with inputs := ⟨t.inputs.toList.modify i change, by
      rw [List.length_modify]
      exact t.inputs.length_lt⟩ }

/-- `SignInput`. -/
def signInput (w : Wallet) (sign : Sign) (t : Transaction) (inputIndex : ℤ) (script : Bytes) :
    Except Stop Transaction :=
  if inputIndex < 0 ∨ inputIndex ≥ t.inputs.toList.length then .error (.error .inputOutOfRange)
  else
    match sign w.privateKey (signatureHash t inputIndex script) with
    | .error text => .error (.error (.sign text))
    | .ok (r, s) => do
      let high ← orPanic (fillBytes r)
      let low ← orPanic (fillBytes s)
      pure (modifyInput t inputIndex.toNat fun input ↦
        { input with signature := .ofList (high ++ low), publicKey := w.publicKey })

/-! ### What a digest commits to -/

/-- The input of a preimage, from the outpoint alone. -/
def clearedInput (outpoint : Outpoint) : Input :=
  ⟨outpoint.hash, outpoint.index, .ofList [], .ofList []⟩

theorem signedInputs_eq (inputs : List Input) (inputIndex : ℤ) (script : Bytes) :
    signedInputs inputs inputIndex script =
      if 0 ≤ inputIndex ∧ inputIndex < (inputs.map Input.outpoint).length then
        ((inputs.map Input.outpoint).map clearedInput).modify inputIndex.toNat
          fun input ↦ { input with signature := script }
      else (inputs.map Input.outpoint).map clearedInput := by
  have hcleared : inputs.map (fun input ↦
      { input with signature := .ofList [], publicKey := .ofList [] }) =
        (inputs.map Input.outpoint).map clearedInput := by
    rw [List.map_map]
    rfl
  rw [signedInputs, hcleared, List.length_map]

theorem map_modify_of_eq {α β : Type} {f : α → β} {change : α → α} (h : ∀ a, f (change a) = f a)
    (items : List α) (i : ℕ) : (items.modify i change).map f = items.map f := by
  refine List.ext_getElem? fun j ↦ ?_
  rw [List.getElem?_map, List.getElem?_map, List.getElem?_modify]
  cases items[j]? with
  | none => rfl
  | some a =>
    by_cases hij : i = j
    · simp only [Option.map_eq_map, Option.map_some, if_pos hij, h]
    · simp only [Option.map_eq_map, Option.map_some, if_neg hij]

/-- The outpoints of a preimage are those of the transaction. -/
theorem outpoint_signedInputs (inputs : List Input) (inputIndex : ℤ) (script : Bytes) :
    (signedInputs inputs inputIndex script).map Input.outpoint = inputs.map Input.outpoint := by
  have hcleared : ((inputs.map Input.outpoint).map clearedInput).map Input.outpoint =
      inputs.map Input.outpoint := by
    rw [List.map_map]
    exact List.map_id _
  rw [signedInputs_eq]
  split
  · refine (map_modify_of_eq ?_ _ _).trans hcleared
    exact fun input ↦ rfl
  · exact hcleared

/-- The signatures of a preimage: the script, and nothing elsewhere. -/
theorem signature_signedInputs {inputs : List Input} {i : ℕ} (hi : i < inputs.length)
    (script : Bytes) {j : ℕ} (hj : j < inputs.length) :
    ((signedInputs inputs i script).map Input.signature)[j]? =
      some (if i = j then script else .ofList []) := by
  have hrange : 0 ≤ (i : ℤ) ∧ (i : ℤ) < (inputs.map Input.outpoint).length := by
    rw [List.length_map]
    omega
  rw [signedInputs_eq, if_pos hrange, List.getElem?_map, List.getElem?_modify, Int.toNat_natCast,
    List.getElem?_map, List.getElem?_map, List.getElem?_eq_getElem hj]
  by_cases hij : i = j
  · simp only [Option.map_eq_map, Option.map_some, if_pos hij]
  · simp only [Option.map_eq_map, Option.map_some, if_neg hij]
    rfl

/-- A preimage determines the input, the script and the transaction but for keys and signatures. -/
theorem signaturePreimage_inj {t t' : Transaction} {i i' : ℕ} {script script' : Bytes}
    (hi : i < t.inputs.toList.length) (hi' : i' < t'.inputs.toList.length)
    (hscript : script.toList ≠ [])
    (h : signaturePreimage t i script = signaturePreimage t' i' script') :
    i = i' ∧ script = script' ∧ t.version = t'.version ∧ t.lockTime = t'.lockTime ∧
      t.spent = t'.spent ∧ t.outputs = t'.outputs := by
  have hcopy := serializeTransaction_injective h
  simp only [Transaction.mk.injEq, Slice.mk.injEq] at hcopy
  obtain ⟨hversion, hinputs, houtputs, hlockTime⟩ := hcopy
  have hspent : t.spent = t'.spent := by
    have hmap := congrArg (List.map Input.outpoint) hinputs
    rwa [outpoint_signedInputs, outpoint_signedInputs] at hmap
  have hlength : t.inputs.toList.length = t'.inputs.toList.length := by
    have hspentLength := congrArg List.length hspent
    rwa [Transaction.spent, Transaction.spent, List.length_map, List.length_map] at hspentLength
  have hsignature := congrArg (fun inputs : List Input ↦ (inputs.map Input.signature)[i]?) hinputs
  rw [signature_signedInputs hi script hi, signature_signedInputs hi' script' (hlength ▸ hi),
    if_pos rfl, Option.some.injEq] at hsignature
  by_cases hindex : i' = i
  · rw [if_pos hindex] at hsignature
    exact ⟨hindex.symm, hsignature, hversion, hlockTime, hspent, houtputs⟩
  · rw [if_neg hindex] at hsignature
    rw [hsignature] at hscript
    exact absurd rfl hscript

/-- A digest depends only on the version, the lock time, the outpoints and the outputs. -/
theorem signatureHash_congr {t t' : Transaction} (hversion : t.version = t'.version)
    (hlockTime : t.lockTime = t'.lockTime) (hspent : t.spent = t'.spent)
    (houtputs : t.outputs = t'.outputs) (inputIndex : ℤ) (script : Bytes) :
    signatureHash t inputIndex script = signatureHash t' inputIndex script := by
  have hinputs : signedInputs t.inputs.toList inputIndex script =
      signedInputs t'.inputs.toList inputIndex script := by
    rw [Transaction.spent, Transaction.spent] at hspent
    rw [signedInputs_eq, signedInputs_eq, hspent]
  rw [signatureHash, signatureHash, signaturePreimage, signaturePreimage]
  simp only [hversion, hlockTime, houtputs, hinputs]

/-! ### Signing one input after the other -/

/-- One call of `SignInput`. -/
structure SignCall where
  wallet : Wallet
  sign : Sign
  inputIndex : ℤ
  script : Bytes

/-- The transaction after a call, which leaves it as it is if it fails. -/
def afterCall (t : Transaction) (call : SignCall) : Transaction :=
  match signInput call.wallet call.sign t call.inputIndex call.script with
  | .ok t' => t'
  | .error _ => t

/-- What a call of `SignInput` returns is the transaction with one input changed. -/
theorem signInput_eq_ok {w : Wallet} {sign : Sign} {t t' : Transaction} {inputIndex : ℤ}
    {script : Bytes} (h : signInput w sign t inputIndex script = .ok t') :
    (0 ≤ inputIndex ∧ inputIndex < t.inputs.toList.length) ∧
      ∃ r s high low, sign w.privateKey (signatureHash t inputIndex script) = .ok (r, s) ∧
        fillBytes r = some high ∧ fillBytes s = some low ∧
        t' = modifyInput t inputIndex.toNat fun input ↦
          { input with signature := .ofList (high ++ low), publicKey := w.publicKey } := by
  rw [signInput] at h
  split at h
  · cases h
  next hrange =>
  split at h
  · cases h
  next r s hsign =>
  cases hhigh : fillBytes r with
  | none =>
    rw [hhigh] at h
    cases h
  | some high =>
    cases hlow : fillBytes s with
    | none =>
      rw [hhigh, hlow] at h
      cases h
    | some low =>
      rw [hhigh, hlow] at h
      cases h
      exact ⟨by omega, r, s, high, low, hsign, hhigh, hlow, rfl⟩

theorem spent_modifyInput (t : Transaction) (i : ℕ) (signature publicKey : Bytes) :
    (modifyInput t i fun input ↦
      { input with signature := signature, publicKey := publicKey }).spent = t.spent := by
  refine map_modify_of_eq ?_ _ _
  exact fun input ↦ rfl

/-- A call of `SignInput` changes no digest. -/
theorem signatureHash_signInput {w : Wallet} {sign : Sign} {t t' : Transaction} {inputIndex : ℤ}
    {script : Bytes} (h : signInput w sign t inputIndex script = .ok t') (j : ℤ)
    (script' : Bytes) : signatureHash t' j script' = signatureHash t j script' := by
  obtain ⟨-, r, s, high, low, -, -, -, rfl⟩ := signInput_eq_ok h
  refine signatureHash_congr ?_ ?_ (spent_modifyInput _ _ _ _) ?_ j script' <;> rfl

theorem signatureHash_afterCalls (calls : List SignCall) (t : Transaction) (j : ℤ)
    (script : Bytes) :
    signatureHash (calls.foldl afterCall t) j script = signatureHash t j script := by
  induction calls generalizing t with
  | nil => rfl
  | cons call calls ih =>
    rw [List.foldl_cons, ih, afterCall]
    split
    · next hcall => exact signatureHash_signInput hcall j script
    · rfl

/-- Two equal digests are a collision of the hash, or they are for one input and one script of
transactions with the same version, lock time, outpoints and outputs. Conversely a digest depends on
nothing else, and so signing inputs in any order leaves all digests as they are. -/
theorem signatureHash_commits :
    (∀ (t t' : Transaction) (i i' : ℤ) (script script' : Bytes),
      0 ≤ i → i < t.inputs.toList.length → 0 ≤ i' → i' < t'.inputs.toList.length →
      script.toList ≠ [] → script'.toList ≠ [] →
      signatureHash t i script = signatureHash t' i' script' →
      (signaturePreimage t i script ≠ signaturePreimage t' i' script' ∧
        doubleSha256 (signaturePreimage t i script) =
          doubleSha256 (signaturePreimage t' i' script')) ∨
      i = i' ∧ script = script' ∧ t.version = t'.version ∧ t.lockTime = t'.lockTime ∧
        t.spent = t'.spent ∧ t.outputs = t'.outputs) ∧
    (∀ (t t' : Transaction) (i : ℤ) (script : Bytes), t.version = t'.version →
      t.lockTime = t'.lockTime → t.spent = t'.spent → t.outputs = t'.outputs →
      signatureHash t i script = signatureHash t' i script) ∧
    ∀ (calls : List SignCall) (t : Transaction) (j : ℤ) (script : Bytes),
      signatureHash (calls.foldl afterCall t) j script = signatureHash t j script := by
  refine ⟨?_, ?_, signatureHash_afterCalls⟩
  · intro t t' i i' script script' hi hi' hj hj' hscript _ h
    by_cases hpreimage : signaturePreimage t i script = signaturePreimage t' i' script'
    · lift i to ℕ using hi
      lift i' to ℕ using hj
      obtain ⟨hindex, hrest⟩ := signaturePreimage_inj (by omega) (by omega) hscript hpreimage
      exact .inr ⟨by rw [hindex], hrest⟩
    · exact .inl ⟨hpreimage, h⟩
  · intro t t' i script hversion hlockTime hspent houtputs
    exact signatureHash_congr hversion hlockTime hspent houtputs i script

theorem signatureHash_commits_sample :
    signatureHash (Sample.spend 1) 0 Sample.script = signatureHash (Sample.spend 2) 0 Sample.script ∧
    ((signaturePreimage (Sample.spend 1) 0 Sample.script ≠
        signaturePreimage (Sample.spend 2) 0 Sample.script ∧
      doubleSha256 (signaturePreimage (Sample.spend 1) 0 Sample.script) =
        doubleSha256 (signaturePreimage (Sample.spend 2) 0 Sample.script)) ∨
      (0 : ℤ) = 0 ∧ Sample.script = Sample.script ∧
        (Sample.spend 1).version = (Sample.spend 2).version ∧
        (Sample.spend 1).lockTime = (Sample.spend 2).lockTime ∧
        (Sample.spend 1).spent = (Sample.spend 2).spent ∧
        (Sample.spend 1).outputs = (Sample.spend 2).outputs) :=
  have hsame := signatureHash_commits.2.1 (Sample.spend 1) (Sample.spend 2) 0 Sample.script rfl rfl
    rfl rfl
  ⟨hsame, signatureHash_commits.1 _ _ _ _ _ _ (by decide) (by decide) (by decide) (by decide)
    (by decide) (by decide) hsame⟩

end NevelCore.Wallet
