import NevelCore.Wallet.Builder

/-!
# Signing together

A transaction may spend outputs of several owners, and each signs the inputs that are its own, with
the key in a wallet or with a device (`HardwareWallet`). A digest does not depend on keys and
signatures, and a signature is put into one input only. So the owners may sign in any order and as
often as they like: once every input has been signed by its owner all of them verify
(`coSigned_verifies`).

What a device answers is left open. `Cosigner.Owns` says what is expected of it, which is what
`SignInput` does with a working key (`OwnsScript.exists_signInput`).
-/

set_option autoImplicit false
set_option relaxedAutoImplicit false

namespace NevelCore.Wallet

open Foundations CurveParams

/-! ### Devices -/

/-- `HardwareSigner`. -/
structure HardwareSigner where
  publicKey : Bytes
  address : List UInt8 → Except String (List UInt8)
  signInput : Transaction → ℤ → Bytes → Except String Bytes

structure HardwareWallet where
  signer : Option HardwareSigner
  addressPrefix : List UInt8

inductive HardwareStop where
  | unavailable
  | signer (message : String)
  | panic

/-- The text of an error. A panic has none. -/
def HardwareStop.message : HardwareStop → String
  | .unavailable => "hardware signer unavailable"
  | .signer message => message
  | .panic => ""

/-- `Address` of `HardwareWallet`. -/
def HardwareWallet.address (h : HardwareWallet) : Except HardwareStop (List UInt8) :=
  match h.signer with
  | none => .error .unavailable
  | some signer => (signer.address h.addressPrefix).mapError .signer

/-- A transaction with a signature and a key put into one input. -/
def withSignature (t : Transaction) (i : ℕ) (signature publicKey : Bytes) : Transaction :=
  modifyInput t i fun input ↦ { input with signature := signature, publicKey := publicKey }

/-- `Sign` of `HardwareWallet`. The index is not checked before the signature is put in. -/
def HardwareWallet.sign (h : HardwareWallet) (t : Transaction) (inputIndex : ℤ) (script : Bytes) :
    Except HardwareStop Transaction :=
  match h.signer with
  | none => .error .unavailable
  | some signer =>
    match signer.signInput t inputIndex script with
    | .error message => .error (.signer message)
    | .ok sig =>
      if 0 ≤ inputIndex ∧ inputIndex < t.inputs.toList.length then
        .ok (withSignature t inputIndex.toNat sig signer.publicKey)
      else .error .panic

/-! ### Owners -/

/-- Whoever signs: a wallet, with the signing function at that moment, or a device. -/
inductive Cosigner where
  | software (w : Wallet) (sign : Sign)
  | device (h : HardwareWallet)

/-- The transaction after a call to sign an input, which leaves it as it is if it fails. -/
def Cosigner.signed (c : Cosigner) (t : Transaction) (i : ℕ) (script : Bytes) : Transaction :=
  match c with
  | .software w sign => (signInput w sign t i script).toOption.getD t
  | .device h => (h.sign t i script).toOption.getD t

/-- The script is one of the owner: every digest for it is signed with success. -/
def Cosigner.Owns (c : Cosigner) (script : Bytes) : Prop :=
  match c with
  | .software w sign =>
    (∃ maps, OwnsScript maps w) ∧ script = ownScript w ∧ SignsFor sign w.privateKey
  | .device h =>
    ∃ signer, h.signer = some signer ∧ ∀ (t : Transaction) (i : ℕ), i < t.inputs.toList.length →
      ∃ sig, signer.signInput t i script = .ok sig ∧
        ∀ input : Input, input.signature = sig → input.publicKey = signer.publicKey →
          Unlocks input (signatureHash t i script) script

/-- The owners sign one after the other, each for the script of the input. -/
def signAll (scripts : ℕ → Bytes) (calls : List (Cosigner × ℕ)) (t : Transaction) : Transaction :=
  calls.foldl (fun t call ↦ call.1.signed t call.2 (scripts call.2)) t

/-! ### One call -/

section Call

variable {maps : CaseMaps} {w : Wallet} {sign : Sign} {c : Cosigner} {t : Transaction}
  {script : Bytes} {i : ℕ}

/-- `SignInput` puts a signature in that unlocks the input. -/
theorem OwnsScript.exists_signInput (howns : OwnsScript maps w)
    (hsign : SignsFor sign w.privateKey) (hi : i < t.inputs.toList.length) :
    ∃ sig, signInput w sign t i (ownScript w) = .ok (withSignature t i sig w.publicKey) ∧
      ∀ input : Input, input.signature = sig → input.publicKey = w.publicKey →
        Unlocks input (signatureHash t i (ownScript w)) (ownScript w) := by
  obtain ⟨r, s, hcall, hr, hs, haccept⟩ := hsign (signatureHash t i (ownScript w))
  obtain ⟨⟨hrpos, -⟩, hspos, -⟩ := range_of_answers haccept
  lift r to ℕ using hrpos.le
  lift s to ℕ using hspos.le
  rw [Int.natAbs_natCast] at hr hs
  have hfitsR : r < 256 ^ 32 := hr.trans_le (by decide)
  have hfitsS : s < 256 ^ 32 := hs.trans_le (by decide)
  refine ⟨.ofList (beBytes 32 r ++ beBytes 32 s), ?_, fun input hsignature hpublic ↦
    howns.unlocks hpublic hsignature hfitsR hfitsS haccept⟩
  rw [signInput, if_neg (by omega), hcall]
  dsimp only
  rw [fillBytes_of_lt hfitsR, fillBytes_of_lt hfitsS]
  rfl

/-- An owner puts a signature in that unlocks the input. -/
theorem Cosigner.Owns.signed_eq (h : c.Owns script) (hi : i < t.inputs.toList.length) :
    ∃ sig key, c.signed t i script = withSignature t i sig key ∧
      ∀ input : Input, input.signature = sig → input.publicKey = key →
        Unlocks input (signatureHash t i script) script := by
  cases c with
  | software w sign =>
    obtain ⟨⟨maps, howns⟩, rfl, hsign⟩ := h
    obtain ⟨sig, hcall, hunlocks⟩ := howns.exists_signInput hsign hi
    refine ⟨sig, w.publicKey, ?_, hunlocks⟩
    rw [Cosigner.signed, hcall]
    rfl
  | device hardware =>
    obtain ⟨signer, hsigner, hsigns⟩ := h
    obtain ⟨sig, hcall, hunlocks⟩ := hsigns t i hi
    refine ⟨sig, signer.publicKey, ?_, hunlocks⟩
    have hrange : 0 ≤ (i : ℤ) ∧ (i : ℤ) < t.inputs.toList.length := by omega
    simp only [Cosigner.signed, HardwareWallet.sign, hsigner, hcall, if_pos hrange]
    rfl

/-- A call for an input that is not there fails. -/
theorem Cosigner.signed_of_le (c : Cosigner) (script : Bytes) (hi : t.inputs.toList.length ≤ i) :
    c.signed t i script = t := by
  cases c with
  | software w sign =>
    rw [Cosigner.signed, signInput, if_pos (by omega)]
    rfl
  | device hardware =>
    have hrange : ¬ (0 ≤ (i : ℤ) ∧ (i : ℤ) < t.inputs.toList.length) := by omega
    simp only [Cosigner.signed, HardwareWallet.sign, if_neg hrange]
    split
    · rfl
    · split <;> rfl

end Call

/-! ### All calls -/

/-- A transaction is the one there was but for keys and signatures, and some of its inputs are
unlocked. -/
structure Partly (scripts : ℕ → Bytes) (t : Transaction) (done : Set ℕ) (t' : Transaction) :
    Prop where
  version_eq : t'.version = t.version
  lockTime_eq : t'.lockTime = t.lockTime
  spent_eq : t'.spent = t.spent
  outputs_eq : t'.outputs = t.outputs
  unlocked : ∀ j ∈ done, j < t.inputs.toList.length → ∃ input, t'.inputs.toList[j]? = some input ∧
    Unlocks input (signatureHash t j (scripts j)) (scripts j)

namespace Partly

variable {scripts : ℕ → Bytes} {t t' : Transaction} {done : Set ℕ}

theorem refl (scripts : ℕ → Bytes) (t : Transaction) : Partly scripts t ∅ t :=
  ⟨rfl, rfl, rfl, rfl, nofun⟩

theorem length_eq (h : Partly scripts t done t') :
    t'.inputs.toList.length = t.inputs.toList.length := by
  have hlength := congrArg List.length h.spent_eq
  rwa [Transaction.spent, Transaction.spent, List.length_map, List.length_map] at hlength

theorem digest_eq (h : Partly scripts t done t') (j : ℤ) (script : Bytes) :
    signatureHash t' j script = signatureHash t j script :=
  signatureHash_congr h.version_eq h.lockTime_eq h.spent_eq h.outputs_eq j script

/-- A call of an owner unlocks one more input and leaves the others alone. -/
theorem call {c : Cosigner} {i : ℕ} (h : Partly scripts t done t') (howns : c.Owns (scripts i)) :
    Partly scripts t (insert i done) (c.signed t' i (scripts i)) := by
  by_cases hi : i < t'.inputs.toList.length
  · obtain ⟨sig, key, hsigned, hunlocks⟩ := howns.signed_eq hi
    rw [h.digest_eq] at hunlocks
    rw [hsigned]
    refine ⟨h.version_eq, h.lockTime_eq, ?_, h.outputs_eq, fun j hj hlt ↦ ?_⟩
    · rw [withSignature, spent_modifyInput, h.spent_eq]
    · rw [withSignature, modifyInput, List.getElem?_modify]
      by_cases hij : i = j
      · subst hij
        rw [List.getElem?_eq_getElem hi]
        refine ⟨{ t'.inputs.toList[i] with signature := sig, publicKey := key }, ?_,
          hunlocks _ rfl rfl⟩
        simp only [Option.map_eq_map, Option.map_some, if_true]
      · obtain ⟨input, hinput, hunlocked⟩ := h.unlocked j (hj.resolve_left (Ne.symm hij)) hlt
        refine ⟨input, ?_, hunlocked⟩
        rw [hinput]
        simp only [Option.map_eq_map, Option.map_some, if_neg hij]
  · rw [Cosigner.signed_of_le c _ (not_lt.mp hi)]
    refine { h with unlocked := fun j hj hlt ↦ h.unlocked j (hj.resolve_left ?_) hlt }
    rintro rfl
    exact hi (h.length_eq ▸ hlt)

theorem signAll {calls : List (Cosigner × ℕ)} (h : Partly scripts t done t')
    (howns : ∀ call ∈ calls, call.1.Owns (scripts call.2)) :
    Partly scripts t (done ∪ {j | ∃ call ∈ calls, call.2 = j}) (signAll scripts calls t') := by
  induction calls generalizing done t' with
  | nil => simpa [Wallet.signAll] using h
  | cons call calls ih =>
    obtain ⟨hfirst, hrest⟩ := List.forall_mem_cons.mp howns
    have hafter := ih (h.call hfirst) hrest
    have hdone : insert call.2 done ∪ {j | ∃ other ∈ calls, other.2 = j} =
        done ∪ {j | ∃ other ∈ call :: calls, other.2 = j} := by
      ext j
      simp only [Set.mem_union, Set.mem_insert_iff, Set.mem_ofPred_eq, List.exists_mem_cons_iff]
      rw [eq_comm (a := j)]
      tauto
    rw [← hdone]
    exact hafter

end Partly

/-- Whatever order the owners sign in, and if some sign again: every input that has been signed
verifies in the end, and the transaction pays what it did before. -/
theorem coSigned_verifies (scripts : ℕ → Bytes) {calls : List (Cosigner × ℕ)}
    (howns : ∀ call ∈ calls, call.1.Owns (scripts call.2)) (t : Transaction) :
    (signAll scripts calls t).spent = t.spent ∧ (signAll scripts calls t).outputs = t.outputs ∧
      ∀ j < t.inputs.toList.length, (∃ call ∈ calls, call.2 = j) →
        Answers (verifyTransactionInput (signAll scripts calls t) j (scripts j)) true := by
  have h := (Partly.refl scripts t).signAll howns
  refine ⟨h.spent_eq, h.outputs_eq, fun j hj hcall ↦ ?_⟩
  obtain ⟨input, hinput, hunlocks⟩ := h.unlocked j (.inr hcall) hj
  exact hunlocks _ j hinput (h.digest_eq j (scripts j))

namespace Sample

/-- A device that signs with the key of a wallet. -/
def device (w : Wallet) : HardwareWallet where
  signer := some
    { publicKey := w.publicKey
      address := fun _ ↦ .ok w.address
      signInput := fun t i script ↦
        match signInput w signer t i script with
        | .error _ => .error "refused"
        | .ok t' =>
          match t'.inputs.toList[i.toNat]? with
          | none => .error "refused"
          | some input => .ok input.signature }
  addressPrefix := w.addressPrefix

theorem owns_device {maps : CaseMaps} {w : Wallet} (howns : OwnsScript maps w)
    (hsign : SignsFor signer w.privateKey) : (Cosigner.device (device w)).Owns (ownScript w) := by
  refine ⟨_, rfl, fun t i hi ↦ ?_⟩
  obtain ⟨sig, hcall, hunlocks⟩ := howns.exists_signInput hsign hi
  refine ⟨sig, ?_, hunlocks⟩
  simp only [hcall, withSignature, modifyInput, Int.toNat_natCast, List.getElem?_modify,
    List.getElem?_eq_getElem hi, Option.map_eq_map, Option.map_some, if_true]

/-- A transaction that spends two outputs. -/
def twoInputs : Transaction where
  version := 1
  inputs := .ofList [input 0, { input 0 with outputIdx := 1 }]
  outputs := .ofList [{ amount := 1000, lockingScript := script }]
  lockTime := 0

/-- A device signs the second input, a wallet the first, and the device signs the second again. -/
def calls (w : Wallet) : List (Cosigner × ℕ) :=
  [(.device (device w), 1), (.software w signer, 0), (.device (device w), 1)]

end Sample

theorem coSigned_verifies_sample :
    ∃ w signed, fromPrivateKey Sample.asciiMaps Sample.privateKey Sample.nevel = .ok w ∧
      signed = signAll (fun _ ↦ ownScript w) (Sample.calls w) Sample.twoInputs ∧
      signed.outputs = Sample.twoInputs.outputs ∧
      Answers (verifyTransactionInput signed 0 (ownScript w)) true ∧
      Answers (verifyTransactionInput signed 1 (ownScript w)) true := by
  obtain ⟨w, hwallet, hprivate, -, howns⟩ := exists_fromPrivateKey Sample.asciiMaps
    Sample.privateKey isOnCurve_base Sample.lowerPrintable_nevel
  have hsign : SignsFor Sample.signer w.privateKey := hprivate ▸ Sample.signsFor_signer
  have hdevice := Sample.owns_device howns hsign
  have hcalls : ∀ call ∈ Sample.calls w, call.1.Owns (ownScript w) := by
    simp only [Sample.calls, List.forall_mem_cons]
    exact ⟨hdevice, ⟨⟨_, howns⟩, rfl, hsign⟩, hdevice, List.forall_mem_nil _⟩
  obtain ⟨-, houtputs, hverifies⟩ :=
    coSigned_verifies (fun _ ↦ ownScript w) hcalls Sample.twoInputs
  exact ⟨w, _, hwallet, rfl, houtputs, hverifies 0 (by decide) (by simp [Sample.calls]),
    hverifies 1 (by decide) (by simp [Sample.calls])⟩

end NevelCore.Wallet
