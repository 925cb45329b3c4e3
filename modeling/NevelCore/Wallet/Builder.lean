import NevelCore.Consensus.Soundness
import NevelCore.Wallet.Keys

/-!
# Building a payment

`BuildTransaction` of `wallet/builder.go`: it selects outputs of the wallet's own script in the
order of the provider until they reach the amount and the fee, pays the amount to the recipient and
what is left over back to the wallet, and signs the inputs one after the other.

The selection is the shortest prefix of the list that reaches the sum, if the list does
(`of_selectOutputs`). Each call of `SignInput` leaves the digests of the other inputs as they are,
so at the end every input has a signature of its own digest (`signInputs_eq_ok`). With the address
that is decoded to the hash of the key and the key that is decoded to the point,
`VerifyTransactionInput` then comes down to `Verify` for what `Sign` has returned
(`SignedUpTo.answers`). `buildTransaction_pays` puts these together. `Sample.signer` is a signing
function as they ask for, for every private key (`Sample.signsFor_signer_of_not_dvd`).
-/

set_option autoImplicit false
set_option relaxedAutoImplicit false

namespace NevelCore.Wallet

open Foundations CurveParams

/-- `ListUTXOsByScript` of a `UTXOProvider`. -/
abbrev UTXOProvider := Bytes → Except Err (Slice UTXO)

/-- Goes on with a result, or returns an error of the ledger. -/
def orLedgerError {α : Type} : Except Err α → Except Stop α
  | .ok a => .ok a
  | .error e => .error (.error (.ledger e))

theorem orLedgerError_ok_bind {α β : Type} (a : α) (next : α → Except Stop β) :
    (orLedgerError (.ok a) >>= next) = next a :=
  rfl

/-- The loop that selects outputs, with what is selected so far and its total. -/
def selectOutputs (need : UInt64) : List UTXO → List UTXO → UInt64 →
    Except Err (List UTXO × UInt64)
  | [], selected, total => .ok (selected, total)
  | u :: utxos, selected, total => do
    let selected := selected ++ [u]
    let total ← addAmount total u.amount
    if total ≥ need then pure (selected, total) else selectOutputs need utxos selected total

/-- The transaction before it is signed. -/
def unsignedTransaction (selected : List UTXO) (toScript fromScript : Bytes)
    (amount change : UInt64) : Transaction where
  version := 1
  inputs := .ofList (selected.map fun u ↦ ⟨u.txHash, u.outputIdx, .ofList [], .ofList []⟩)
  outputs := .ofList (⟨amount, toScript⟩ :: if change > 0 then [⟨change, fromScript⟩] else [])
  lockTime := 0

/-- The loop that signs the inputs. The signing function may differ from input to input. -/
def signInputs (w : Wallet) (sign : ℕ → Sign) (script : Bytes) (t : Transaction) :
    Except Stop Transaction :=
  (List.range t.inputs.toList.length).foldlM (fun t i ↦ signInput w (sign i) t i script) t

/-- `BuildTransaction`. -/
def buildTransaction (maps : CaseMaps) (w : Wallet) (sign : ℕ → Sign) (provider : UTXOProvider)
    (toAddress : List UInt8) (amount fee : UInt64) : Except Stop Transaction :=
  if amount = 0 then .error (.error .zeroAmount)
  else if 0xffffffffffffffff - amount < fee then .error (.error (.ledger .inflation))
  else do
    let fromScript ← orError (lockingScriptForAddress maps w.address w.addressPrefix)
    let toScript ← orError (lockingScriptForAddress maps toAddress w.addressPrefix)
    let utxos ← orLedgerError (provider fromScript)
    let need := amount + fee
    let (selected, total) ← orLedgerError (selectOutputs need utxos.toList [] 0)
    if total < need then .error (.error .insufficientFunds)
    else
      signInputs w sign fromScript
        (unsignedTransaction selected toScript fromScript amount (total - need))

/-! ### The selection of outputs -/

/-- The sum of the amounts of some outputs. -/
def totalAmount (utxos : List UTXO) : ℕ := (utxos.map fun u ↦ u.amount.toNat).sum

theorem totalAmount_cons (u : UTXO) (utxos : List UTXO) :
    totalAmount (u :: utxos) = u.amount.toNat + totalAmount utxos := by
  rw [totalAmount, List.map_cons, List.sum_cons, totalAmount]

theorem totalAmount_take_le (utxos : List UTXO) (n : ℕ) :
    totalAmount (utxos.take n) ≤ totalAmount utxos :=
  ((List.take_sublist n utxos).map _).sum_le_sum fun _ _ ↦ Nat.zero_le _

/-- The number of outputs in the shortest prefix of a list that reaches a sum. -/
structure ShortestPrefix (utxos : List UTXO) (need n : ℕ) : Prop where
  le_length : n ≤ utxos.length
  reaches : need ≤ totalAmount (utxos.take n)
  shortest : ∀ m < n, totalAmount (utxos.take m) < need

/-- What the loop returns: it stops as soon as the total reaches the need, or at the end. -/
theorem of_selectOutputs {need total total' : UInt64} {utxos selected selected' : List UTXO}
    (hbelow : total.toNat < need.toNat)
    (h : selectOutputs need utxos selected total = .ok (selected', total')) :
    ∃ n ≤ utxos.length, selected' = selected ++ utxos.take n ∧
      total'.toNat = total.toNat + totalAmount (utxos.take n) ∧
      (∀ m < n, total.toNat + totalAmount (utxos.take m) < need.toNat) ∧
      (need.toNat ≤ total'.toNat ∨ n = utxos.length) := by
  induction utxos generalizing selected total with
  | nil =>
    cases h
    exact ⟨0, le_rfl, (List.append_nil _).symm, rfl, nofun, .inr rfl⟩
  | cons u utxos ih =>
    rw [selectOutputs] at h
    cases hadd : addAmount total u.amount with
    | error e =>
      rw [hadd] at h
      cases h
    | ok sum =>
      have hsum := addAmount_ok hadd
      rw [hadd] at h
      dsimp only [bind, Except.bind, pure, Except.pure] at h
      split at h
      · next hreached =>
        cases h
        refine ⟨1, Nat.succ_pos _, rfl, ?_, ?_, .inl (UInt64.le_iff_toNat_le.mp hreached)⟩
        · rw [hsum, List.take_succ_cons, List.take_zero, totalAmount_cons]
          rfl
        · intro m hm
          obtain rfl : m = 0 := by omega
          exact hbelow
      · next hbelow' =>
        rw [ge_iff_le, UInt64.le_iff_toNat_le] at hbelow'
        obtain ⟨n, hn, rfl, htotal, hshortest, hend⟩ := ih (Nat.not_le.mp hbelow') h
        refine ⟨n + 1, Nat.succ_le_succ hn, ?_, ?_, ?_, hend.imp_right (congrArg (· + 1))⟩
        · rw [List.append_assoc, List.take_succ_cons, List.singleton_append]
        · rw [htotal, hsum, List.take_succ_cons, totalAmount_cons, Nat.add_assoc]
        · intro m hm
          cases m with
          | zero => exact hbelow
          | succ m =>
            have hm' := hshortest m (by omega)
            rwa [hsum, Nat.add_assoc, ← totalAmount_cons] at hm'

/-- The loop does not fail on a list whose total fits. -/
theorem exists_selectOutputs {need total : UInt64} {utxos : List UTXO} (selected : List UTXO)
    (hfits : total.toNat + totalAmount utxos < 2 ^ 64) :
    ∃ selected' total', selectOutputs need utxos selected total = .ok (selected', total') := by
  induction utxos generalizing selected total with
  | nil => exact ⟨selected, total, rfl⟩
  | cons u utxos ih =>
    rw [totalAmount_cons] at hfits
    have hadd : addAmount total u.amount = .ok (total + u.amount) := addAmount_eq_ok (by omega)
    have hsum := addAmount_ok hadd
    rw [selectOutputs, hadd]
    dsimp only [bind, Except.bind, pure, Except.pure]
    split
    · exact ⟨_, _, rfl⟩
    · exact ih _ (by omega)

/-! ### Signing all inputs -/

/-- The operation returns the answer. -/
def Answers (p : Op Bool) (answer : Bool) : Prop := ∀ kept, (p.run collect kept).1 = .ok answer

/-- The signing function returns for every digest a signature that fits and that `Verify` accepts
for the public key. -/
def SignsFor (sign : Sign) (priv : PrivateKey) : Prop :=
  ∀ hash, ∃ r s : ℤ, sign priv hash = .ok (r, s) ∧ r.natAbs < 2 ^ 256 ∧ s.natAbs < 2 ^ 256 ∧
    Answers (verify priv.pub hash r s) true

/-- `Verify` accepts only numbers between zero and the order. -/
theorem range_of_answers {pub : Coords} {hash : Hash} {r s : ℤ}
    (h : Answers (verify pub hash r s) true) :
    (0 < r ∧ r < secp256k1.N) ∧ 0 < s ∧ s < secp256k1.N := by
  by_cases hrange : r ≤ 0 ∨ s ≤ 0 ∨ r ≥ secp256k1.N ∨ s ≥ secp256k1.N
  · have hrun := h []
    rw [verify, if_pos hrange] at hrun
    cases hrun
  · omega

/-- The first inputs of a transaction have signatures, and but for signatures and keys it is the
one there was. -/
structure SignedUpTo (w : Wallet) (script : Bytes) (t : Transaction) (k : ℕ) (t' : Transaction) :
    Prop where
  version_eq : t'.version = t.version
  lockTime_eq : t'.lockTime = t.lockTime
  spent_eq : t'.spent = t.spent
  outputs_eq : t'.outputs = t.outputs
  signed : ∀ j < k, ∃ (input : Input) (r s : ℕ), t'.inputs.toList[j]? = some input ∧
    input.publicKey = w.publicKey ∧ input.signature = .ofList (beBytes 32 r ++ beBytes 32 s) ∧
    r < 256 ^ 32 ∧ s < 256 ^ 32 ∧
    Answers (verify w.privateKey.pub (signatureHash t j script) r s) true

theorem SignedUpTo.length_eq {w : Wallet} {script : Bytes} {t t' : Transaction} {k : ℕ}
    (h : SignedUpTo w script t k t') : t'.inputs.toList.length = t.inputs.toList.length := by
  have hlength := congrArg List.length h.spent_eq
  rwa [Transaction.spent, Transaction.spent, List.length_map, List.length_map] at hlength

/-- One call of `SignInput` signs one more input. -/
theorem SignedUpTo.signInput {w : Wallet} {sign : Sign} {script : Bytes} {t t' : Transaction}
    {k : ℕ} (h : SignedUpTo w script t k t') (hk : k < t.inputs.toList.length)
    (hsign : SignsFor sign w.privateKey) :
    ∃ t'', signInput w sign t' k script = .ok t'' ∧ SignedUpTo w script t (k + 1) t'' := by
  have hdigest := signatureHash_congr h.version_eq h.lockTime_eq h.spent_eq h.outputs_eq k script
  obtain ⟨r, s, hcall, hr, hs, haccept⟩ := hsign (signatureHash t k script)
  obtain ⟨⟨hrpos, -⟩, hspos, -⟩ := range_of_answers haccept
  lift r to ℕ using hrpos.le
  lift s to ℕ using hspos.le
  rw [Int.natAbs_natCast] at hr hs
  have hfitsR : r < 256 ^ 32 := hr.trans_le (by decide)
  have hfitsS : s < 256 ^ 32 := hs.trans_le (by decide)
  have hrange : ¬ ((k : ℤ) < 0 ∨ (k : ℤ) ≥ t'.inputs.toList.length) := by
    rw [h.length_eq]
    omega
  have hresult : Wallet.signInput w sign t' k script = .ok (modifyInput t' k fun input ↦
      { input with signature := .ofList (beBytes 32 r ++ beBytes 32 s)
                   publicKey := w.publicKey }) := by
    rw [Wallet.signInput, if_neg hrange, hdigest, hcall]
    dsimp only
    rw [fillBytes_of_lt hfitsR, fillBytes_of_lt hfitsS]
    rfl
  refine ⟨_, hresult, h.version_eq, h.lockTime_eq, ?_, h.outputs_eq, fun j hj ↦ ?_⟩
  · rw [spent_modifyInput, h.spent_eq]
  · -- The input that is signed now, or one of those before, which stay as they are.
    rcases Nat.lt_succ_iff_lt_or_eq.mp hj with hlt | rfl
    · obtain ⟨input, r', s', hinput, hrest⟩ := h.signed j hlt
      refine ⟨input, r', s', ?_, hrest⟩
      rw [modifyInput, List.getElem?_modify, hinput]
      simp only [Option.map_eq_map, Option.map_some, if_neg (Nat.ne_of_gt hlt)]
    · have hj' : j < t'.inputs.toList.length := by rwa [h.length_eq]
      refine ⟨{ t'.inputs.toList[j] with
        signature := .ofList (beBytes 32 r ++ beBytes 32 s), publicKey := w.publicKey }, r, s, ?_,
        rfl, rfl, hfitsR, hfitsS, haccept⟩
      rw [modifyInput, List.getElem?_modify, List.getElem?_eq_getElem hj']
      simp only [Option.map_eq_map, Option.map_some, if_true]

/-- The loop signs every input. -/
theorem signInputs_eq_ok {w : Wallet} {sign : ℕ → Sign}
    (hsign : ∀ i, SignsFor (sign i) w.privateKey) (script : Bytes) (t : Transaction) :
    ∃ t', signInputs w sign script t = .ok t' ∧
      SignedUpTo w script t t.inputs.toList.length t' := by
  -- By induction on the number of rounds.
  have hrounds : ∀ k ≤ t.inputs.toList.length, ∃ t',
      (List.range k).foldlM (fun t i ↦ signInput w (sign i) t i script) t = .ok t' ∧
        SignedUpTo w script t k t' := by
    intro k hk
    induction k with
    | zero => exact ⟨t, rfl, rfl, rfl, rfl, rfl, nofun⟩
    | succ k ih =>
      obtain ⟨t', hfold, hsigned⟩ := ih (by omega)
      obtain ⟨t'', hcall, hsigned'⟩ := hsigned.signInput hk (hsign k)
      refine ⟨t'', ?_, hsigned'⟩
      rw [List.range_succ, List.foldlM_append, hfold]
      dsimp only [bind, Except.bind, List.foldlM, pure, Except.pure]
      rw [hcall]
  exact hrounds _ le_rfl

/-! ### Accepted inputs -/

/-- An input with which `VerifyTransactionInput` is satisfied, for a digest and a script. -/
def Unlocks (input : Input) (digest : Hash) (script : Bytes) : Prop :=
  ∀ (t : Transaction) (j : ℕ), t.inputs.toList[j]? = some input →
    signatureHash t j script = digest → Answers (verifyTransactionInput t j script) true

/-- A signature of the owner that verifies unlocks an input. -/
theorem OwnsScript.unlocks {maps : CaseMaps} {w : Wallet} {input : Input} {digest : Hash} {r s : ℕ}
    (howns : OwnsScript maps w) (hpublic : input.publicKey = w.publicKey)
    (hsignature : input.signature = .ofList (beBytes 32 r ++ beBytes 32 s)) (hr : r < 256 ^ 32)
    (hs : s < 256 ^ 32) (haccept : Answers (verify w.privateKey.pub digest r s) true) :
    Unlocks input digest (ownScript w) := by
  rintro t j hinput rfl
  have hpoint : coordsOf (pointAt w.privateKey.pub) = w.privateKey.pub :=
    coordsOf_pointAt (.inr howns.onCurve)
  have hbytes : input.signature.toList = beBytes 32 r ++ beBytes 32 s := by
    rw [hsignature]
    exact Slice.toList_ofList (by simp)
  have hsigR : sigR input = r := by
    rw [sigR, hbytes, List.take_left' (length_beBytes 32 r), beValue_beBytes, Nat.mod_eq_of_lt hr]
  have hsigS : sigS input = s := by
    rw [sigS, hbytes, List.drop_left' (length_beBytes 32 r), beValue_beBytes, Nat.mod_eq_of_lt hs]
  obtain ⟨hrangeR, hrangeS⟩ := range_of_answers haccept
  have hpresents : Presents t j (ownScript w) input (pointAt w.privateKey.pub) :=
    { nonneg := Int.natCast_nonneg j
      input_eq := by rw [Int.toNat_natCast, hinput]
      script_eq := by rw [toList_ownScript, hpublic]
      key_eq := by rw [hpublic, howns.key_eq, hpoint]
      key_ne_zero := pointAt_ne_zero (.inr howns.onCurve) (ne_nil_of_isOnCurve howns.onCurve)
      length_eq := by rw [hbytes, List.length_append, length_beBytes, length_beBytes]
      sigR_range := by rw [hsigR]; omega
      sigS_range := by rw [hsigS]; omega }
  rwa [hpresents.verifyTransactionInput_eq, hpoint, hsigR, hsigS]

/-- `VerifyTransactionInput` accepts an input that has been signed. -/
theorem SignedUpTo.answers {maps : CaseMaps} {w : Wallet} (howns : OwnsScript maps w)
    {t t' : Transaction} {k : ℕ} (h : SignedUpTo w (ownScript w) t k t') {j : ℕ} (hj : j < k) :
    Answers (verifyTransactionInput t' j (ownScript w)) true := by
  obtain ⟨input, r, s, hinput, hpublic, hsignature, hr, hs, haccept⟩ := h.signed j hj
  have hdigest := signatureHash_congr h.version_eq h.lockTime_eq h.spent_eq h.outputs_eq j
    (ownScript w)
  exact howns.unlocks hpublic hsignature hr hs haccept t' j hinput hdigest

/-! ### Payments -/

/-- A transaction spends the shortest prefix of the list that reaches the amount and the fee, pays
the amount, then what is left over if that is not zero, and leaves exactly the fee. -/
structure Pays (fromScript toScript : Bytes) (amount fee : UInt64) (utxos : List UTXO) (n : ℕ)
    (t : Transaction) : Prop where
  version_eq : t.version = 1
  lockTime_eq : t.lockTime = 0
  shortest : ShortestPrefix utxos (amount.toNat + fee.toNat) n
  spent_eq : t.spent = (utxos.take n).map UTXO.outpoint
  outputs_eq : ∃ change : UInt64,
    totalAmount (utxos.take n) = amount.toNat + fee.toNat + change.toNat ∧
    t.outputs.toList = ⟨amount, toScript⟩ :: if change > 0 then [⟨change, fromScript⟩] else []
  balance : totalAmount (utxos.take n) =
    (t.outputs.toList.map fun output ↦ output.amount.toNat).sum + fee.toNat

theorem spent_unsignedTransaction {selected : List UTXO} (hlength : selected.length < 2 ^ 31)
    (toScript fromScript : Bytes) (amount change : UInt64) :
    (unsignedTransaction selected toScript fromScript amount change).spent =
      selected.map UTXO.outpoint := by
  rw [Transaction.spent, unsignedTransaction, Slice.toList_ofList (by rwa [List.length_map]),
    List.map_map]
  rfl

theorem outputs_unsignedTransaction (selected : List UTXO) (toScript fromScript : Bytes)
    (amount change : UInt64) :
    (unsignedTransaction selected toScript fromScript amount change).outputs.toList =
      ⟨amount, toScript⟩ :: if change > 0 then [⟨change, fromScript⟩] else [] := by
  rw [unsignedTransaction, Slice.toList_ofList]
  split <;> simp

/-- The sum of the outputs of a payment. -/
theorem sum_outputs (toScript fromScript : Bytes) (amount change : UInt64) :
    (((⟨amount, toScript⟩ :: if change > 0 then [⟨change, fromScript⟩] else [] : List Output)).map
      fun output ↦ output.amount.toNat).sum = amount.toNat + change.toNat := by
  rw [List.map_cons, List.sum_cons]
  split
  · rw [List.map_singleton, List.sum_singleton]
  · next hzero =>
    rw [gt_iff_lt, UInt64.lt_iff_toNat_lt, UInt64.toNat_zero] at hzero
    rw [List.map_nil, List.sum_nil, Nat.add_zero, Nat.eq_zero_of_not_pos hzero, Nat.add_zero]

/-- A payment of a wallet with all inputs signed, whose total fits. -/
structure Built (w : Wallet) (toScript : Bytes) (amount fee : UInt64) (utxos : List UTXO) (n : ℕ)
    (t : Transaction) : Prop extends Pays (ownScript w) toScript amount fee utxos n t where
  fits : totalAmount (utxos.take n) < 2 ^ 64
  signed : ∃ unsigned, SignedUpTo w (ownScript w) unsigned t.inputs.toList.length t

section Build

variable {maps : CaseMaps} {w : Wallet} {sign : ℕ → Sign} {provider : UTXOProvider}
  {toAddress : List UInt8} {toScript : Bytes} {amount fee : UInt64} {utxos : Slice UTXO}
  {selected : List UTXO} {total : UInt64}

/-- `BuildTransaction` from the selection on. -/
theorem buildTransaction_eq (hamount : amount ≠ 0) (hneed : amount.toNat + fee.toNat < 2 ^ 64)
    (hfrom : lockingScriptForAddress maps w.address w.addressPrefix = .ok (ownScript w))
    (hto : lockingScriptForAddress maps toAddress w.addressPrefix = .ok toScript)
    (hutxos : provider (ownScript w) = .ok utxos)
    (hselect : selectOutputs (amount + fee) utxos.toList [] 0 = .ok (selected, total)) :
    buildTransaction maps w sign provider toAddress amount fee =
      if total < amount + fee then .error (.error .insufficientFunds)
      else signInputs w sign (ownScript w)
        (unsignedTransaction selected toScript (ownScript w) amount (total - (amount + fee))) := by
  have hguard : ¬ 0xffffffffffffffff - amount < fee := by
    rw [guard_iff]
    omega
  rw [buildTransaction, if_neg hamount, if_neg hguard, hfrom, orError_ok_bind, hto,
    orError_ok_bind, hutxos, orLedgerError_ok_bind]
  dsimp only
  rw [hselect, orLedgerError_ok_bind]

/-- The selection reaches the need exactly if the list does, and then signing gives the payment. -/
theorem signInputs_of_select (hamount : amount ≠ 0) (hneed : amount.toNat + fee.toNat < 2 ^ 64)
    (hselect : selectOutputs (amount + fee) utxos.toList [] 0 = .ok (selected, total))
    (hsign : ∀ i, SignsFor (sign i) w.privateKey) (toScript : Bytes) :
    (total < amount + fee ↔ totalAmount utxos.toList < amount.toNat + fee.toNat) ∧
      (¬ total < amount + fee → ∃ t n, signInputs w sign (ownScript w)
        (unsignedTransaction selected toScript (ownScript w) amount (total - (amount + fee))) =
          .ok t ∧ Built w toScript amount fee utxos.toList n t) := by
  have hsum : (amount + fee).toNat = amount.toNat + fee.toNat :=
    addAmount_ok (addAmount_eq_ok hneed)
  have hpositive : (0 : UInt64).toNat < (amount + fee).toNat := by
    rw [hsum, UInt64.toNat_zero]
    exact Nat.add_pos_left (Nat.pos_of_ne_zero fun h ↦ hamount (UInt64.toNat_inj.mp h)) _
  obtain ⟨n, hn, hselected, htotal, hshortest, hend⟩ := of_selectOutputs hpositive hselect
  rw [List.nil_append] at hselected
  simp only [UInt64.toNat_zero, Nat.zero_add, hsum] at htotal hshortest hend
  constructor
  · -- The loop stops short of the need only at the end of the list.
    have hle := totalAmount_take_le utxos.toList n
    rw [UInt64.lt_iff_toNat_lt, hsum]
    rcases hend with hend | rfl
    · omega
    · rw [htotal, List.take_length]
  · intro hfunds
    obtain ⟨t, hresult, hsigned⟩ := signInputs_eq_ok hsign (ownScript w)
      (unsignedTransaction selected toScript (ownScript w) amount (total - (amount + fee)))
    have hlength : selected.length < 2 ^ 31 := by
      rw [hselected]
      exact (List.length_take_le' n utxos.toList).trans_lt utxos.length_lt
    have houtputs : t.outputs.toList = _ :=
      (congrArg Slice.toList hsigned.outputs_eq).trans (outputs_unsignedTransaction _ _ _ _ _)
    have hle : amount + fee ≤ total := UInt64.not_lt.mp hfunds
    have hchange : (total - (amount + fee)).toNat = total.toNat - (amount + fee).toNat :=
      UInt64.toNat_sub_of_le _ _ hle
    rw [UInt64.le_iff_toNat_le] at hle
    refine ⟨t, n, hresult, ⟨hsigned.version_eq, hsigned.lockTime_eq, ⟨hn, by omega, hshortest⟩, ?_,
      ⟨total - (amount + fee), by omega, houtputs⟩, ?_⟩, htotal ▸ total.toNat_lt, _,
      hsigned.length_eq ▸ hsigned⟩
    · rw [hsigned.spent_eq, spent_unsignedTransaction hlength, hselected]
    · rw [houtputs, sum_outputs]
      omega

/-- Of a list whose total fits, `BuildTransaction` builds a payment if it reaches the amount and the
fee, and otherwise there are no funds. -/
theorem buildTransaction_of_fits (hamount : amount ≠ 0)
    (hneed : amount.toNat + fee.toNat < 2 ^ 64)
    (hfrom : lockingScriptForAddress maps w.address w.addressPrefix = .ok (ownScript w))
    (hto : lockingScriptForAddress maps toAddress w.addressPrefix = .ok toScript)
    (hutxos : provider (ownScript w) = .ok utxos) (hfits : totalAmount utxos.toList < 2 ^ 64)
    (hsign : ∀ i, SignsFor (sign i) w.privateKey) :
    (totalAmount utxos.toList < amount.toNat + fee.toNat →
      buildTransaction maps w sign provider toAddress amount fee =
        .error (.error .insufficientFunds)) ∧
    (amount.toNat + fee.toNat ≤ totalAmount utxos.toList →
      ∃ t n, buildTransaction maps w sign provider toAddress amount fee = .ok t ∧
        Built w toScript amount fee utxos.toList n t) := by
  obtain ⟨selected, total, hselect⟩ : ∃ selected total,
      selectOutputs (amount + fee) utxos.toList [] 0 = .ok (selected, total) :=
    exists_selectOutputs [] (by rwa [UInt64.toNat_zero, Nat.zero_add])
  obtain ⟨hreached, hbuild⟩ := signInputs_of_select hamount hneed hselect hsign toScript
  rw [buildTransaction_eq hamount hneed hfrom hto hutxos hselect]
  constructor
  · intro hshort
    rw [if_pos (hreached.mpr hshort)]
  · intro henough
    have hfunds := mt hreached.mp (Nat.not_lt.mpr henough)
    rw [if_neg hfunds]
    exact hbuild hfunds

/-- What `BuildTransaction` returns is a signed payment. -/
theorem of_buildTransaction
    (hfrom : lockingScriptForAddress maps w.address w.addressPrefix = .ok (ownScript w))
    (hsign : ∀ i, SignsFor (sign i) w.privateKey) {t : Transaction}
    (h : buildTransaction maps w sign provider toAddress amount fee = .ok t) :
    ∃ toScript utxos n, lockingScriptForAddress maps toAddress w.addressPrefix = .ok toScript ∧
      provider (ownScript w) = .ok utxos ∧ Built w toScript amount fee utxos.toList n t := by
  rw [buildTransaction] at h
  split at h
  · cases h
  next hamount =>
  split at h
  · cases h
  next hguard =>
  rw [guard_iff, Nat.not_le] at hguard
  rw [hfrom, orError_ok_bind] at h
  cases hto : lockingScriptForAddress maps toAddress w.addressPrefix with
  | error e =>
    rw [hto] at h
    cases h
  | ok toScript =>
    cases hutxos : provider (ownScript w) with
    | error e =>
      rw [hto, orError_ok_bind, hutxos] at h
      cases h
    | ok utxos =>
      rw [hto, orError_ok_bind, hutxos, orLedgerError_ok_bind] at h
      dsimp only at h
      cases hselect : selectOutputs (amount + fee) utxos.toList [] 0 with
      | error e =>
        rw [hselect] at h
        cases h
      | ok result =>
        obtain ⟨selected, total⟩ := result
        rw [hselect, orLedgerError_ok_bind] at h
        dsimp only at h
        split at h
        · cases h
        next hfunds =>
        obtain ⟨t', n, hresult, hbuilt⟩ :=
          (signInputs_of_select hamount hguard hselect hsign toScript).2 hfunds
        cases hresult.symm.trans h
        exact ⟨toScript, utxos, n, rfl, rfl, hbuilt⟩

end Build

/-- The length of the wire form of a payment. An input with signature and key takes 149 bytes, and
the output with the change takes 42. -/
def paymentSize (inputs : ℕ) (toScript : Bytes) (change : ℕ) : ℕ :=
  28 + inputs * 149 + (16 + toScript.toList.length) + if change = 0 then 0 else 42

section Size

variable {w : Wallet} {toScript : Bytes} {amount fee : UInt64} {utxos : List UTXO} {n : ℕ}
  {t : Transaction}

theorem Built.length_inputs (h : Built w toScript amount fee utxos n t) :
    t.inputs.toList.length = n := by
  have hlength := congrArg List.length h.spent_eq
  rwa [Transaction.spent, List.length_map, List.length_map,
    List.length_take_of_le h.shortest.le_length] at hlength

theorem Built.length_writeInput (h : Built w toScript amount fee utxos n t)
    (hkey : w.publicKey.toList.length = 33) :
    ∀ input ∈ t.inputs.toList, (writeInput input).length = 149 := by
  intro input hmem
  obtain ⟨unsigned, hsigned⟩ := h.signed
  obtain ⟨j, hj, rfl⟩ := List.mem_iff_getElem.mp hmem
  obtain ⟨input, r, s, hinput, hpublic, hsignature, -⟩ := hsigned.signed j hj
  rw [List.getElem?_eq_getElem hj, Option.some.injEq] at hinput
  have hbytes : (Slice.ofList (beBytes 32 r ++ beBytes 32 s)).toList =
      beBytes 32 r ++ beBytes 32 s :=
    Slice.toList_ofList (by simp)
  rw [hinput]
  simp only [writeInput, List.length_append, length_writeBytes, writeUInt32, length_leBytes,
    input.prevTxHash.length_eq, hpublic, hkey, hsignature, hbytes, length_beBytes]

theorem length_writeOutputs (w : Wallet) (toScript : Bytes) (amount change : UInt64) :
    ((⟨amount, toScript⟩ :: if change > 0 then [⟨change, ownScript w⟩] else [] :
      List Output).flatMap writeOutput).length =
        16 + toScript.toList.length + if change.toNat = 0 then 0 else 42 := by
  have hchange : change > 0 ↔ ¬ change.toNat = 0 := by
    rw [gt_iff_lt, UInt64.lt_iff_toNat_lt, UInt64.toNat_zero, Nat.pos_iff_ne_zero]
  rw [List.flatMap_cons, List.length_append]
  by_cases hzero : change.toNat = 0
  · rw [if_neg (fun h ↦ hchange.mp h hzero), if_pos hzero]
    simp only [writeOutput, writeUInt64, List.length_append, length_leBytes, length_writeBytes,
      List.flatMap_nil, List.length_nil]
    omega
  · rw [if_pos (hchange.mpr hzero), if_neg hzero]
    simp only [writeOutput, writeUInt64, List.length_append, length_leBytes, length_writeBytes,
      List.flatMap_cons, List.flatMap_nil, List.length_nil, length_ownScript]
    omega

/-- The length of a payment depends on the number of inputs, the recipient's script and whether
something is left over. -/
theorem Built.length_serializeTransaction (h : Built w toScript amount fee utxos n t)
    (hkey : w.publicKey.toList.length = 33) :
    (serializeTransaction t).length = paymentSize n toScript
      (totalAmount (utxos.take n) - (amount.toNat + fee.toNat)) := by
  have hinputs : (t.inputs.toList.flatMap writeInput).length = n * 149 := by
    rw [List.length_flatMap, List.map_congr_left (h.length_writeInput hkey), List.map_const',
      List.sum_replicate, h.length_inputs, smul_eq_mul]
  obtain ⟨change, htotal, houtputs⟩ := h.outputs_eq
  rw [htotal, Nat.add_sub_cancel_left, paymentSize]
  simp only [serializeTransaction, List.length_append, writeUInt32, writeUInt64, writeVarBytesList,
    length_leBytes, hinputs, houtputs, length_writeOutputs]
  omega

end Size

/-- With a signing function as assumed, the wallet of a point on the curve builds a payment exactly
if the list reaches the amount and the fee, and `VerifyTransactionInput` accepts its inputs. -/
theorem buildTransaction_pays {maps : CaseMaps} {priv : PrivateKey} {hrp : List UInt8} {w : Wallet}
    {sign : ℕ → Sign} (hkey : secp256k1.isOnCurve priv.pub = true) (hhrp : LowerPrintable hrp)
    (hwallet : fromPrivateKey maps priv hrp = .ok w) (hsign : ∀ i, SignsFor (sign i) priv) :
    ∃ fromScript, lockingScriptForAddress maps w.address w.addressPrefix = .ok fromScript ∧
      ∀ (provider : UTXOProvider) (utxos : Slice UTXO) (toAddress : List UInt8) (toScript : Bytes)
        (amount fee : UInt64), provider fromScript = .ok utxos →
        totalAmount utxos.toList < 2 ^ 64 →
        lockingScriptForAddress maps toAddress w.addressPrefix = .ok toScript →
        amount > 0 → amount.toNat + fee.toNat < 2 ^ 64 →
        (buildTransaction maps w sign provider toAddress amount fee =
            .error (.error .insufficientFunds) ↔
          totalAmount utxos.toList < amount.toNat + fee.toNat) ∧
        (amount.toNat + fee.toNat ≤ totalAmount utxos.toList →
          ∃ t n, buildTransaction maps w sign provider toAddress amount fee = .ok t ∧
            Pays fromScript toScript amount fee utxos.toList n t ∧
            ∀ i < t.inputs.toList.length,
              Answers (verifyTransactionInput t i fromScript) true) := by
  obtain ⟨w', hwallet', hpriv, -, howns⟩ := exists_fromPrivateKey maps priv hkey hhrp
  obtain rfl : w' = w := Except.ok.inj (hwallet'.symm.trans hwallet)
  rw [← hpriv] at hsign
  refine ⟨ownScript w', howns.script_eq, ?_⟩
  intro provider utxos toAddress toScript amount fee hutxos hfits hto hamount hneed
  have hne : amount ≠ 0 := by
    rintro rfl
    exact absurd hamount (by decide)
  obtain ⟨hshort, henough⟩ :=
    buildTransaction_of_fits hne hneed howns.script_eq hto hutxos hfits hsign
  refine ⟨⟨fun herror ↦ ?_, hshort⟩, fun hfunds ↦ ?_⟩
  · by_contra hfunds
    obtain ⟨t, n, hresult, -⟩ := henough (Nat.not_lt.mp hfunds)
    cases hresult.symm.trans herror
  · obtain ⟨t, n, hresult, hbuilt⟩ := henough hfunds
    obtain ⟨unsigned, hsigned⟩ := hbuilt.signed
    exact ⟨t, n, hresult, hbuilt.toPays, fun i hi ↦ hsigned.answers howns hi⟩

/-! ### A signing function -/

/-- `Verify` accepts the signature that is read from a point, if the point solves the equation. -/
theorem answers_verify {q point : secp256k1.Point} (hq : q ≠ 0) {hash : Hash} {r s : ℕ}
    (hr : 0 < r ∧ r < secp256k1.N) (hs : 0 < s ∧ s < secp256k1.N) {x y : ℤ}
    (hpoint : coordsOf point = ⟨some x, some y⟩) (hx : x % secp256k1.N = r)
    (hequation : s • point = beValue hash.toList • basePoint + r • q) :
    Answers (verify (coordsOf q) hash r s) true := by
  obtain ⟨w, hmul, heq⟩ := verify_eq hash hr hs (coordsOf q)
  have hpos : 0 < r * w % secp256k1.N := by
    rw [Nat.pos_iff_ne_zero, ne_eq, mod_mul_eq_zero hmul]
    exact Nat.not_dvd_of_pos_of_lt hr.1 hr.2
  have hsum : (beValue hash.toList * w % secp256k1.N) • basePoint +
      (r * w % secp256k1.N) • q = point := by
    rw [sum_eq, ← hequation, ← mul_nsmul, ← mod_nsmul, hmul, one_nsmul]
  have hbase := yields_scalarBaseMult (intBytes (beValue hash.toList * w % secp256k1.N : ℕ))
  rw [beValue_intBytes] at hbase
  have hcombine : Yields (combine (coordsOf q) (beValue hash.toList * w % secp256k1.N : ℕ)
      (r * w % secp256k1.N : ℕ)) (coordsOf point) fun _ ↦ True := by
    rw [← hsum]
    exact Yields.bind hbase (yields_combine_rest hq hpos (Nat.mod_lt _ prime_N.pos) _ _
      (fun _ _ ↦ trivial) trivial)
  have hcheck : Yields (checkSum (coordsOf point) r) true fun _ ↦ True := by
    have hne : x ≠ 0 := by
      rintro rfl
      rw [Int.zero_emod] at hx
      omega
    have hanswer : decide (¬ (x = 0 ∧ y = 0) ∧ x % secp256k1.N = r) = true :=
      decide_eq_true ⟨fun h ↦ hne h.1, hx⟩
    rw [checkSum, hpoint, ← hanswer]
    exact yields_pure _ _
  have hverify : Yields (verify (coordsOf q) hash r s) true fun _ ↦ True := by
    rw [heq]
    exact Yields.bind hcombine hcheck
  intro kept
  obtain ⟨new, hrun, -⟩ := hverify kept
  rw [hrun]

namespace Sample

def privateKey : PrivateKey := ⟨1, secp256k1.base⟩

/-- The first coordinate of the double of the base point. -/
def doubleX : ℕ := 0xc6047f9441ed7d6d3045406e95c07cd85c778e4b8cef3ca7abac09b95c709ee5

def doubleY : ℕ := 0x1ae168fea63dc339a3c58419466ceaeef7f632653266d0e1236431a950cfe52a

/-- Signs with the base point, or with its double if the second half would be zero. -/
def signer : Sign := fun priv hash ↦
  let e := beValue hash.toList
  let s := (e + secp256k1.Gx * priv.D.toNat) % secp256k1.N
  if s ≠ 0 then .ok (secp256k1.Gx, s)
  else .ok (doubleX, ((e + doubleX * priv.D.toNat) * ((secp256k1.N + 1) / 2) % secp256k1.N : ℕ))

theorem coordsOf_double : coordsOf (basePoint + basePoint) = ⟨some doubleX, some doubleY⟩ := by
  obtain ⟨new, hrun, -⟩ := yields_double two_ne_zero_secp256k1 basePoint []
  have hcoords : ((secp256k1.double secp256k1.base).run collect []).1 =
      .ok ⟨some doubleX, some doubleY⟩ := by
    decide +kernel
  rw [coordsOf_basePoint] at hrun
  rw [hrun] at hcoords
  exact Except.ok.inj hcoords

/-- The two first coordinates differ, so the second half is zero for at most one of them. -/
theorem not_dvd_second {d e : ℕ} (hd : ¬ secp256k1.N ∣ d)
    (hzero : (e + secp256k1.Gx * d) % secp256k1.N = 0) :
    ¬ secp256k1.N ∣ (e + doubleX * d) * ((secp256k1.N + 1) / 2) := by
  rw [prime_N.dvd_mul, not_or]
  refine ⟨fun hdvd ↦ ?_, Nat.not_dvd_of_pos_of_lt (by decide) (by decide)⟩
  have hdifference : secp256k1.N ∣ (doubleX - secp256k1.Gx) * d := by
    have hsub := Nat.dvd_sub hdvd (Nat.dvd_of_mod_eq_zero hzero)
    rwa [Nat.add_sub_add_left, ← Nat.sub_mul] at hsub
  rcases prime_N.dvd_mul.mp hdifference with hx | hdvd
  · exact Nat.not_dvd_of_pos_of_lt (by decide) (by decide) hx
  · exact hd hdvd

/-- The signing function signs for every private key. -/
theorem signsFor_signer_of_not_dvd {d : ℕ} (hd : ¬ secp256k1.N ∣ d) :
    SignsFor signer ⟨d, coordsOf (d • basePoint)⟩ := by
  intro hash
  have hq : d • basePoint ≠ 0 := mt (nsmul_eq_zero_iff_dvd basePoint_ne_zero d).mp hd
  have hlt (n : ℕ) : n % secp256k1.N < secp256k1.N := Nat.mod_lt _ prime_N.pos
  have hbound : secp256k1.N < 2 ^ 256 := by decide
  have hGx : 0 < secp256k1.Gx ∧ secp256k1.Gx < secp256k1.N := by decide
  have hX : 0 < doubleX ∧ doubleX < secp256k1.N := by decide
  by_cases hzero : (beValue hash.toList + secp256k1.Gx * d) % secp256k1.N = 0
  · have hpos := Nat.pos_of_ne_zero
      (mt Nat.dvd_of_mod_eq_zero (not_dvd_second hd hzero))
    have hdouble : (secp256k1.N + 1) / 2 * 2 = secp256k1.N + 1 := by decide
    refine ⟨doubleX, ((beValue hash.toList + doubleX * d) * ((secp256k1.N + 1) / 2) %
      secp256k1.N : ℕ), ?_, ?_, ?_, ?_⟩
    · simp only [signer, Int.toNat_natCast, if_neg (not_not.mpr hzero)]
    · rw [Int.natAbs_natCast]
      exact hX.2.trans hbound
    · rw [Int.natAbs_natCast]
      exact (hlt _).trans hbound
    · refine answers_verify hq hX ⟨hpos, hlt _⟩ coordsOf_double (by decide) ?_
      rw [mod_nsmul, ← two_nsmul, ← mul_nsmul', Nat.mul_assoc, hdouble, ← mul_nsmul', ← add_nsmul,
        Nat.mul_add, Nat.mul_one, add_nsmul, mul_nsmul', nsmul_basePoint, nsmul_zero, zero_add]
  · have hs := Nat.pos_of_ne_zero hzero
    refine ⟨secp256k1.Gx, ((beValue hash.toList + secp256k1.Gx * d) % secp256k1.N : ℕ),
      ?_, ?_, ?_, ?_⟩
    · simp only [signer, Int.toNat_natCast, if_pos (ne_eq _ _ ▸ hzero)]
    · rw [Int.natAbs_natCast]
      exact hGx.2.trans hbound
    · rw [Int.natAbs_natCast]
      exact (hlt _).trans hbound
    · refine answers_verify hq hGx ⟨hs, hlt _⟩ coordsOf_basePoint (by decide) ?_
      rw [mod_nsmul, ← mul_nsmul', ← add_nsmul]

theorem signsFor_signer : SignsFor signer privateKey := by
  have hsigns := signsFor_signer_of_not_dvd (Nat.not_dvd_of_pos_of_lt Nat.one_pos (by decide))
  rw [one_nsmul, coordsOf_basePoint] at hsigns
  exact hsigns

def coin : UTXO where
  txHash := Bytes32.zero
  outputIdx := 0
  amount := 5000
  script := .ofList []
  height := 0
  coinbase := false

end Sample

/-- With one output of 5000, a payment of 1000 is built, and there are no funds for one of 5000. -/
theorem buildTransaction_pays_sample :
    ∃ w fromScript t n, fromPrivateKey Sample.asciiMaps Sample.privateKey Sample.nevel = .ok w ∧
      buildTransaction Sample.asciiMaps w (fun _ ↦ Sample.signer)
        (fun _ ↦ .ok (.ofList [Sample.coin])) w.address 1000 500 = .ok t ∧
      Pays fromScript fromScript 1000 500 [Sample.coin] n t ∧
      buildTransaction Sample.asciiMaps w (fun _ ↦ Sample.signer)
        (fun _ ↦ .ok (.ofList [Sample.coin])) w.address 5000 500 =
          .error (.error .insufficientFunds) := by
  obtain ⟨w, hwallet, -⟩ := exists_fromPrivateKey Sample.asciiMaps Sample.privateKey isOnCurve_base
    Sample.lowerPrintable_nevel
  obtain ⟨fromScript, hscript, hbuild⟩ := buildTransaction_pays isOnCurve_base
    Sample.lowerPrintable_nevel hwallet fun _ ↦ Sample.signsFor_signer
  obtain ⟨t, n, hresult, hpays, -⟩ := (hbuild (fun _ ↦ .ok (.ofList [Sample.coin]))
    (.ofList [Sample.coin]) w.address fromScript 1000 500 rfl (by decide) hscript (by decide)
    (by decide)).2 (by decide)
  exact ⟨w, fromScript, t, n, hwallet, hresult, hpays, (hbuild _ _ w.address fromScript 5000 500 rfl
    (by decide) hscript (by decide) (by decide)).1.mpr (by decide)⟩

end NevelCore.Wallet
