import NevelCore.Consensus.Rules

/-!
# What passing the transaction rules says

The rules of `ValidateTransactionAt` and of the loop over the transactions of a block, turned into
statements about amounts and outpoints. The first part holds for any reader of unspent outputs on
any machine: `validateTransactionAt_spent` says that a transaction that passes has inputs, spends no
outpoint twice and pays its minimum fee.

The second part is exact, for a reader whose answers are a fixed view of the unspent outputs.
`Spendable` lists what a transaction needs there on its own, and `validateTransactionAt_eq_ok_iff`
says that the rules pass exactly a spendable transaction that spends nothing pending.
`validateFees_eq_ok_iff` is the same for a list of transactions, and
`validateBlockTransactionsAt_eq_ok_iff` for a block.
-/

set_option autoImplicit false
set_option relaxedAutoImplicit false

namespace NevelCore

open Foundations

/-! ### Amounts -/

theorem exists_toNat_eq {value : ℕ} (h : value < 2 ^ 64) :
    ∃ amount : UInt64, amount.toNat = value :=
  ⟨UInt64.ofNat value, UInt64.toNat_ofNat_of_lt' h⟩

theorem toNat_succ (height : UInt64) (h : height.toNat + 1 < 2 ^ 64) :
    (height + 1).toNat = height.toNat + 1 := by
  rw [UInt64.toNat_add, Nat.mod_eq_of_lt]
  · rfl
  · exact h

/-- The guard of an addition of amounts finds exactly the sums that do not fit. -/
theorem guard_iff (total amount : UInt64) :
    0xffffffffffffffff - total < amount ↔ 2 ^ 64 ≤ total.toNat + amount.toNat := by
  have htotal := total.toNat_lt
  have hle : total ≤ 0xffffffffffffffff := by
    rw [UInt64.le_iff_toNat_le]
    change total.toNat ≤ 18446744073709551615
    omega
  rw [UInt64.lt_iff_toNat_lt, UInt64.toNat_sub_of_le _ _ hle]
  change 18446744073709551615 - total.toNat < amount.toNat ↔ _
  omega

theorem addAmount_ok {total amount r : UInt64} (h : addAmount total amount = .ok r) :
    r.toNat = total.toNat + amount.toNat := by
  rw [addAmount] at h
  split at h
  · cases h
  · next hguard =>
    cases h
    rw [guard_iff] at hguard
    rw [UInt64.toNat_add]
    omega

theorem addAmount_eq_ok {total amount : UInt64} (h : total.toNat + amount.toNat < 2 ^ 64) :
    addAmount total amount = .ok (total + amount) := by
  rw [addAmount, if_neg]
  rw [guard_iff]
  omega

/-- One round of a loop that adds amounts up. -/
theorem exists_addAmount_iff {total amount r : UInt64} {rest : ℕ} :
    (∃ total', addAmount total amount = .ok total' ∧ r.toNat = total'.toNat + rest) ↔
      r.toNat = total.toNat + (amount.toNat + rest) := by
  constructor
  · rintro ⟨total', hadd, hr⟩
    rw [hr, addAmount_ok hadd, Nat.add_assoc]
  · intro hr
    have hlt := r.toNat_lt
    have hadd : addAmount total amount = .ok (total + amount) := addAmount_eq_ok (by omega)
    exact ⟨total + amount, hadd, by rw [hr, addAmount_ok hadd, Nat.add_assoc]⟩

theorem sumAmounts_eq_ok_iff {amounts : List UInt64} {total r : UInt64} :
    sumAmounts total amounts = .ok r ↔
      r.toNat = total.toNat + (amounts.map UInt64.toNat).sum := by
  induction amounts generalizing total with
  | nil =>
    rw [sumAmounts, Except.ok.injEq, eq_comm, ← UInt64.toNat_inj]
    rfl
  | cons amount amounts ih =>
    rw [List.map_cons, List.sum_cons, ← exists_addAmount_iff, sumAmounts]
    cases hadd : addAmount total amount with
    | error e => exact ⟨nofun, fun ⟨_, h, _⟩ ↦ nomatch h⟩
    | ok total' =>
      refine ⟨fun h ↦ ⟨total', rfl, ih.mp h⟩, fun ⟨_, h, hr⟩ ↦ ?_⟩
      cases h
      exact ih.mpr hr

theorem sumOutputs_eq_ok_iff {outputs : List Output} {total r : UInt64} :
    sumOutputs total outputs = .ok r ↔ (∀ output ∈ outputs, output.amount ≠ 0) ∧
      r.toNat = total.toNat + (outputs.map fun output ↦ output.amount.toNat).sum := by
  induction outputs generalizing total with
  | nil =>
    rw [sumOutputs, Except.ok.injEq, eq_comm, ← UInt64.toNat_inj]
    exact ⟨fun h ↦ ⟨List.forall_mem_nil _, h⟩, And.right⟩
  | cons output outputs ih =>
    rw [List.map_cons, List.sum_cons, ← exists_addAmount_iff, sumOutputs, List.forall_mem_cons]
    split_ifs with hdust
    · exact ⟨nofun, fun h ↦ absurd hdust h.1.1⟩
    cases hadd : addAmount total output.amount with
    | error e => exact ⟨nofun, fun ⟨_, _, h, _⟩ ↦ nomatch h⟩
    | ok total' =>
      constructor
      · intro h
        obtain ⟨hdusts, hr⟩ := ih.mp h
        exact ⟨⟨hdust, hdusts⟩, total', rfl, hr⟩
      · rintro ⟨⟨-, hdusts⟩, _, h, hr⟩
        cases h
        exact ih.mpr ⟨hdusts, hr⟩

/-- The total of a transaction's outputs. -/
def outputTotal (t : Transaction) : ℕ := (t.outputs.toList.map fun output ↦ output.amount.toNat).sum

/-- The outpoints that the inputs of a transaction name. -/
def Transaction.spent (t : Transaction) : List Outpoint := t.inputs.toList.map Input.outpoint

/-- A transaction without inputs and outputs has a wire form of 28 bytes. -/
theorem length_serializeTransaction_of_empty {t : Transaction} (hinputs : t.inputs.toList = [])
    (houtputs : t.outputs.toList = []) : (serializeTransaction t).length = 28 := by
  rw [serializeTransaction, hinputs, houtputs]
  simp only [writeUInt32, writeVarBytesList, writeUInt64, List.length_append, length_leBytes,
    List.flatMap_nil, List.length_nil]

/-! ### Whatever is read -/

section AnyReader

variable {S : Signature} {σ : Type} {exec : Machine S σ} {s s' : σ} {utxos : UTXOReader S}
  {verifier : Option SignatureVerifier} {spendHeight : UInt64}

theorem run_attempt_eq_ok {α : Type} {result : Except Err α} {a : α} :
    (attempt result : Prog S Halt α).run exec s = (.ok a, s') ↔ result = .ok a ∧ s' = s := by
  cases result with
  | error e => exact ⟨nofun, fun h ↦ nomatch h.1⟩
  | ok b =>
    constructor
    · intro h
      cases h
      exact ⟨rfl, rfl⟩
    · rintro ⟨h, rfl⟩
      cases h
      rfl

theorem validateInputs_spent {t : Transaction} {inputs : List Input} {i : ℕ} {total : UInt64}
    {spent : List Outpoint} {r : UInt64 × List Outpoint}
    (h : (validateInputs t utxos verifier spendHeight i inputs total spent).run exec s =
      (.ok r, s')) :
    r.2 = (inputs.map Input.outpoint).reverse ++ spent ∧ (spent.Nodup → r.2.Nodup) ∧
      (inputs = [] → r.1 = total) := by
  induction inputs generalizing i total spent s with
  | nil =>
    cases h
    exact ⟨rfl, id, fun _ ↦ rfl⟩
  | cons input inputs ih =>
    rw [validateInputs] at h
    split_ifs at h with hspent
    · cases h
    obtain ⟨answer, mid, -, h⟩ := Prog.run_bind_eq_ok h
    cases answer with
    | error e => cases h
    | ok u =>
      dsimp only at h
      split_ifs at h
      · cases h
      · cases h
      obtain ⟨total', mid', -, h⟩ := Prog.run_bind_eq_ok h
      obtain ⟨hlist, hnodup, -⟩ := ih h
      refine ⟨?_, fun hspentNodup ↦ hnodup (List.nodup_cons.mpr ⟨hspent, hspentNodup⟩), nofun⟩
      rw [hlist, List.map_cons, List.reverse_cons, List.append_assoc]
      rfl

/-- A transaction that passes is no coinbase, has an input, spends nothing twice and pays its
minimum fee. Without an input it could not create anything, and its fee would be too low. -/
theorem validateTransactionAt_spent {t : Transaction} {spent : List Outpoint}
    {r : UInt64 × List Outpoint}
    (h : (validateTransactionAt t utxos verifier spent spendHeight).run exec s = (.ok r, s')) :
    t.isCoinbase = false ∧ t.inputs.toList ≠ [] ∧ minFee t ≤ r.1 ∧
      r.2 = t.spent.reverse ++ spent ∧ (spent.Nodup → r.2.Nodup) := by
  rw [validateTransactionAt] at h
  split_ifs at h with hcoinbase
  · cases h
  obtain ⟨⟨inputTotal, spent'⟩, mid, hinputs, h⟩ := Prog.run_bind_eq_ok h
  obtain ⟨hlist, hnodup, hempty⟩ := validateInputs_spent hinputs
  obtain ⟨outputTotal, mid', houtputs, h⟩ := Prog.run_bind_eq_ok h
  split_ifs at h with hinflation
  · cases h
  dsimp only at h
  split_ifs at h with hfee
  · cases h
  cases h
  have hfee := UInt64.not_lt.mp hfee
  refine ⟨eq_false_of_ne_true hcoinbase, fun hnone ↦ ?_, hfee, hlist, hnodup⟩
  obtain rfl : inputTotal = 0 := hempty hnone
  obtain rfl : outputTotal = 0 := by
    rw [← UInt64.toNat_inj]
    exact Nat.le_zero.mp (UInt64.le_iff_toNat_le.mp (UInt64.not_lt.mp hinflation))
  obtain ⟨hdust, hsum⟩ := sumOutputs_eq_ok_iff.mp (run_attempt_eq_ok.mp houtputs).1
  have hnoOutput : t.outputs.toList = [] := by
    cases hlist : t.outputs.toList with
    | nil => rfl
    | cons output outputs =>
      rw [hlist, List.map_cons, List.sum_cons] at hsum
      rw [hlist, List.forall_mem_cons] at hdust
      have hzero : output.amount.toNat = 0 := by
        change 0 = 0 + _ at hsum
        omega
      exact absurd (UInt64.toNat_inj.mp hzero) hdust.1
  rw [minFee, length_serializeTransaction_of_empty hnone hnoOutput] at hfee
  exact absurd hfee (by decide)

/-- The transactions of a list that passes are no coinbases, have inputs and spend nothing twice,
neither within the list nor again. -/
theorem validateFees_spent {txs : List Transaction} {fees : UInt64} {spent : List Outpoint}
    {r : UInt64}
    (h : (validateFees utxos verifier spendHeight txs fees spent).run exec s = (.ok r, s')) :
    (∀ t ∈ txs, t.isCoinbase = false ∧ t.inputs.toList ≠ []) ∧
      (spent.Nodup → (txs.flatMap Transaction.spent ++ spent).Nodup) := by
  induction txs generalizing fees spent s with
  | nil => exact ⟨List.forall_mem_nil _, id⟩
  | cons t txs ih =>
    obtain ⟨⟨fee, spent'⟩, mid, ht, h⟩ := Prog.run_bind_eq_ok h
    obtain ⟨hcoinbase, hinputs, -, hlist, hnodup⟩ := validateTransactionAt_spent ht
    obtain ⟨fees', mid', -, h⟩ := Prog.run_bind_eq_ok h
    obtain ⟨hall, hrest⟩ := ih h
    refine ⟨List.forall_mem_cons.mpr ⟨⟨hcoinbase, hinputs⟩, hall⟩, fun hspent ↦ ?_⟩
    have hperm : (txs.flatMap Transaction.spent ++ spent').Perm
        ((t :: txs).flatMap Transaction.spent ++ spent) := by
      change spent' = _ at hlist
      rw [hlist, List.flatMap_cons, ← List.append_assoc]
      exact (List.perm_append_comm.trans ((List.reverse_perm _).append_right _)).append_right _
    exact hperm.nodup_iff.mp (hrest (hnodup hspent))

end AnyReader

/-! ### Against a view of the unspent outputs -/

/-- A view of the unspent outputs. -/
abbrev View := Outpoint → Option UTXO

/-- The amount that a view has under an outpoint, none if there is no record. -/
def View.amountAt (view : View) (outpoint : Outpoint) : ℕ :=
  (view outpoint).elim 0 fun u ↦ u.amount.toNat

/-- A coinbase output that must not be spent yet at a height. -/
def UTXO.Immature (u : UTXO) (spendHeight : UInt64) : Prop :=
  u.coinbase ∧ spendHeight ≠ 0xffffffffffffffff ∧ spendHeight < u.height + coinbaseMaturity

/-- The verifier refuses input number `i` of a transaction for a script. -/
def Refuses (verifier : Option SignatureVerifier) (t : Transaction) (i : ℕ) (script : Bytes) :
    Prop :=
  verifier.any fun verify ↦ !verify t i script

/-- What a transaction spends in a view. -/
def View.inputTotal (view : View) (t : Transaction) : ℕ := (t.spent.map view.amountAt).sum

/-- The fee that a transaction pays in a view. -/
def View.fee (view : View) (t : Transaction) : ℕ := view.inputTotal t - outputTotal t

/-- What a transaction needs on its own to pass at a height. -/
structure Spendable (view : View) (verifier : Option SignatureVerifier) (spendHeight : UInt64)
    (t : Transaction) : Prop where
  noCoinbase : t.isCoinbase = false
  nodup : t.spent.Nodup
  /-- Every input names an unspent output that is mature and that it may spend. -/
  inputs : ∀ p ∈ t.inputs.toList.zipIdx, ∃ u, view p.1.outpoint = some u ∧
    ¬ u.Immature spendHeight ∧ ¬ Refuses verifier t p.2 u.script
  noDust : ∀ output ∈ t.outputs.toList, output.amount ≠ 0
  /-- The amounts spent can be added up in `uint64`. -/
  fits : view.inputTotal t < 2 ^ 64
  covered : outputTotal t ≤ view.inputTotal t
  minFee_le : (minFee t).toNat ≤ view.fee t

namespace Spendable

variable {view : View} {verifier : Option SignatureVerifier} {spendHeight : UInt64}
  {t : Transaction}

/-- A spendable transaction spends only outputs that are there and mature. -/
theorem exists_record (h : Spendable view verifier spendHeight t) {outpoint : Outpoint}
    (hmem : outpoint ∈ t.spent) : ∃ u, view outpoint = some u ∧ ¬ u.Immature spendHeight := by
  obtain ⟨input, hinput, rfl⟩ := List.mem_map.mp hmem
  obtain ⟨i, hi, hget⟩ := List.mem_iff_getElem.mp hinput
  have hzip : (input, i) ∈ t.inputs.toList.zipIdx := by
    rw [List.mem_zipIdx_iff_getElem?, ← hget]
    exact List.getElem?_eq_getElem hi
  obtain ⟨u, hu, hmature, -⟩ := h.inputs (input, i) hzip
  exact ⟨u, hu, hmature⟩

/-- At another height only the maturity of what is spent has to be looked at again. -/
theorem at_iff (h : Spendable view verifier spendHeight t) (spendHeight' : UInt64) :
    Spendable view verifier spendHeight' t ↔
      ∀ outpoint ∈ t.spent, ∀ u, view outpoint = some u → ¬ u.Immature spendHeight' := by
  constructor
  · intro h' outpoint hmem u hu
    obtain ⟨u', hu', hmature⟩ := h'.exists_record hmem
    cases hu.symm.trans hu'
    exact hmature
  · intro hmature
    refine ⟨h.noCoinbase, h.nodup, ?_, h.noDust, h.fits, h.covered, h.minFee_le⟩
    intro p hp
    obtain ⟨u, hu, -, haccepts⟩ := h.inputs p hp
    exact ⟨u, hu, hmature _ (List.mem_map_of_mem (List.fst_mem_of_mem_zipIdx hp)) u hu, haccepts⟩

theorem inputTotal_congr {view' : View}
    (hsame : ∀ outpoint ∈ t.spent, view' outpoint = view outpoint) :
    view'.inputTotal t = view.inputTotal t := by
  rw [View.inputTotal, View.inputTotal]
  congr 1
  refine List.map_congr_left fun outpoint hmem ↦ ?_
  rw [View.amountAt, View.amountAt, hsame outpoint hmem]

/-- Only what is spent is looked at. -/
theorem congr {view' : View} (h : Spendable view verifier spendHeight t)
    (hsame : ∀ outpoint ∈ t.spent, view' outpoint = view outpoint) :
    Spendable view' verifier spendHeight t := by
  have htotal := inputTotal_congr hsame
  refine ⟨h.noCoinbase, h.nodup, ?_, h.noDust, htotal ▸ h.fits, htotal ▸ h.covered, ?_⟩
  · intro p hp
    rw [hsame _ (List.mem_map_of_mem (List.fst_mem_of_mem_zipIdx hp))]
    exact h.inputs p hp
  · rw [View.fee, htotal]
    exact h.minFee_le

end Spendable

section FixedView

variable {S : Signature} {σ : Type} {exec : Machine S σ} {s s' : σ} {utxos : UTXOReader S}
  {verifier : Option SignatureVerifier} {spendHeight : UInt64} {view : View}

/-- The reader answers from a view, and reading changes nothing. -/
def ReadsView (exec : Machine S σ) (s : σ) (utxos : UTXOReader S) (view : View) : Prop :=
  ∀ hash idx, ∃ answer, (utxos hash idx).run exec s = (.ok answer, s) ∧
    answer.toOption = view ⟨hash, idx⟩

/-- One round of the loop over the inputs. -/
theorem validateInputs_cons_eq_ok_iff (hview : ReadsView exec s utxos view) {t : Transaction}
    {input : Input} {inputs : List Input} {i : ℕ} {total : UInt64} {spent : List Outpoint}
    {r : UInt64 × List Outpoint} :
    (validateInputs t utxos verifier spendHeight i (input :: inputs) total spent).run exec s =
        (.ok r, s') ↔
      input.outpoint ∉ spent ∧ ∃ u, view input.outpoint = some u ∧ ¬ u.Immature spendHeight ∧
        ¬ Refuses verifier t i u.script ∧ ∃ total', addAmount total u.amount = .ok total' ∧
          (validateInputs t utxos verifier spendHeight (i + 1) inputs total'
            (input.outpoint :: spent)).run exec s = (.ok r, s') := by
  obtain ⟨answer, hrun, hanswer⟩ := hview input.prevTxHash input.outputIdx
  rw [validateInputs]
  split_ifs with hspent
  · exact ⟨nofun, fun h ↦ absurd hspent h.1⟩
  rw [Prog.run_bind_of_ok hrun]
  cases answer with
  | error e =>
    refine ⟨nofun, fun ⟨_, u, hu, _⟩ ↦ ?_⟩
    cases hanswer.trans hu
  | ok u =>
    have hu : view input.outpoint = some u := hanswer.symm
    dsimp only
    split_ifs with himmature hrefuses
    · refine ⟨nofun, fun ⟨_, u', hu', hmature, _⟩ ↦ ?_⟩
      cases hu.symm.trans hu'
      exact absurd himmature hmature
    · refine ⟨nofun, fun ⟨_, u', hu', _, haccepts, _⟩ ↦ ?_⟩
      cases hu.symm.trans hu'
      exact absurd hrefuses haccepts
    constructor
    · intro h
      obtain ⟨total', mid, hrunAdd, hrest⟩ := Prog.run_bind_eq_ok h
      obtain ⟨hadd, rfl⟩ := run_attempt_eq_ok.mp hrunAdd
      exact ⟨hspent, u, hu, himmature, hrefuses, total', hadd, hrest⟩
    · rintro ⟨-, u', hu', -, -, total', hadd, h⟩
      cases hu.symm.trans hu'
      rw [hadd]
      exact h

/-- The inputs pass exactly if they are distinct and not pending, each may be spent, and the total
fits. -/
theorem validateInputs_eq_ok_iff (hview : ReadsView exec s utxos view) {t : Transaction}
    {inputs : List Input} {i : ℕ} {total : UInt64} {spent : List Outpoint}
    {r : UInt64 × List Outpoint} :
    (validateInputs t utxos verifier spendHeight i inputs total spent).run exec s = (.ok r, s') ↔
      s' = s ∧ (inputs.map Input.outpoint).Nodup ∧
        (∀ outpoint ∈ inputs.map Input.outpoint, outpoint ∉ spent) ∧
        (∀ p ∈ inputs.zipIdx i, ∃ u, view p.1.outpoint = some u ∧ ¬ u.Immature spendHeight ∧
          ¬ Refuses verifier t p.2 u.script) ∧
        r.1.toNat = total.toNat + ((inputs.map Input.outpoint).map view.amountAt).sum ∧
        r.2 = (inputs.map Input.outpoint).reverse ++ spent := by
  induction inputs generalizing i total spent with
  | nil =>
    obtain ⟨rTotal, rSpent⟩ := r
    simp only [validateInputs, Prog.run_pure, Prod.mk.injEq, Except.ok.injEq]
    constructor
    · rintro ⟨⟨rfl, rfl⟩, rfl⟩
      exact ⟨rfl, List.nodup_nil, List.forall_mem_nil _, List.forall_mem_nil _, rfl, rfl⟩
    · rintro ⟨rfl, -, -, -, htotal, hspent⟩
      exact ⟨⟨(UInt64.toNat_inj.mp htotal).symm, hspent.symm⟩, rfl⟩
  | cons input inputs ih =>
    rw [validateInputs_cons_eq_ok_iff hview, List.map_cons, List.nodup_cons, List.forall_mem_cons,
      List.zipIdx_cons, List.forall_mem_cons, List.map_cons, List.sum_cons, List.reverse_cons,
      List.append_assoc]
    constructor
    · rintro ⟨hspent, u, hu, hmature, haccepts, total', hadd, h⟩
      obtain ⟨hstate, hnodup, hpending, hinputs, htotal, hlist⟩ := ih.mp h
      have hamount : view.amountAt input.outpoint = u.amount.toNat := by rw [View.amountAt, hu]; rfl
      refine ⟨hstate, ⟨fun hmem ↦ hpending _ hmem List.mem_cons_self, hnodup⟩, ⟨hspent, ?_⟩,
        ⟨⟨u, hu, hmature, haccepts⟩, hinputs⟩, ?_, hlist⟩
      · exact fun outpoint hmem hold ↦ hpending outpoint hmem (List.mem_cons_of_mem _ hold)
      · rw [htotal, addAmount_ok hadd, hamount, Nat.add_assoc]
    · rintro ⟨hstate, ⟨hnew, hnodup⟩, ⟨hspent, hpending⟩, ⟨⟨u, hu, hmature, haccepts⟩, hinputs⟩,
        htotal, hlist⟩
      have hamount : view.amountAt input.outpoint = u.amount.toNat := by rw [View.amountAt, hu]; rfl
      rw [hamount] at htotal
      obtain ⟨total', hadd, htotal⟩ := exists_addAmount_iff.mpr htotal
      refine ⟨hspent, u, hu, hmature, haccepts, total', hadd, ih.mpr ⟨hstate, hnodup, ?_, hinputs,
        htotal, hlist⟩⟩
      intro outpoint hmem hold
      rcases List.mem_cons.mp hold with rfl | hold
      · exact hnew hmem
      · exact hpending outpoint hmem hold

/-- The rules pass exactly a spendable transaction that spends nothing pending. -/
theorem validateTransactionAt_eq_ok_iff (hview : ReadsView exec s utxos view) {t : Transaction}
    {spent : List Outpoint} {r : UInt64 × List Outpoint} :
    (validateTransactionAt t utxos verifier spent spendHeight).run exec s = (.ok r, s') ↔
      s' = s ∧ Spendable view verifier spendHeight t ∧
        (∀ outpoint ∈ t.spent, outpoint ∉ spent) ∧ r.1.toNat = view.fee t ∧
        r.2 = t.spent.reverse ++ spent := by
  constructor
  · intro h
    obtain ⟨hcoinbase, -, hfee, hlist, -⟩ := validateTransactionAt_spent h
    rw [validateTransactionAt, hcoinbase, if_neg Bool.false_ne_true] at h
    obtain ⟨⟨inputTotal, spent'⟩, mid, hinputs, hrest⟩ := Prog.run_bind_eq_ok h
    obtain ⟨rfl, hnodup, hpending, hmay, htotal, -⟩ := (validateInputs_eq_ok_iff hview).mp hinputs
    obtain ⟨outTotal, mid', houtputs, hlast⟩ := Prog.run_bind_eq_ok hrest
    obtain ⟨hsumOk, rfl⟩ := run_attempt_eq_ok.mp houtputs
    obtain ⟨hdust, hsum⟩ := sumOutputs_eq_ok_iff.mp hsumOk
    split_ifs at hlast with hinflation
    · cases hlast
    dsimp only at hlast
    split_ifs at hlast with hlow
    · cases hlast
    cases hlast
    have hinput : inputTotal.toNat = view.inputTotal t := htotal.trans (Nat.zero_add _)
    have houtput : outTotal.toNat = outputTotal t := hsum.trans (Nat.zero_add _)
    have hle := UInt64.not_lt.mp hinflation
    have hfeeEq : (inputTotal - outTotal).toNat = view.fee t := by
      rw [UInt64.toNat_sub_of_le _ _ hle, hinput, houtput]
      rfl
    refine ⟨rfl, ⟨hcoinbase, hnodup, hmay, hdust, hinput ▸ inputTotal.toNat_lt, ?_, ?_⟩, hpending,
      hfeeEq, hlist⟩
    · rw [← hinput, ← houtput]
      exact UInt64.le_iff_toNat_le.mp hle
    · rw [← hfeeEq]
      exact UInt64.le_iff_toNat_le.mp hfee
  · rintro ⟨rfl, ht, hpending, hfee, hlist⟩
    obtain ⟨inputTotal, hinput⟩ := exists_toNat_eq ht.fits
    obtain ⟨outTotal, houtput⟩ := exists_toNat_eq (lt_of_le_of_lt ht.covered ht.fits)
    have hinputs : (validateInputs t utxos verifier spendHeight 0 t.inputs.toList 0 spent).run exec
        s' = (.ok (inputTotal, t.spent.reverse ++ spent), s') :=
      (validateInputs_eq_ok_iff hview).mpr
        ⟨rfl, ht.nodup, hpending, ht.inputs, hinput.trans (Nat.zero_add _).symm, rfl⟩
    have houtputs : sumOutputs 0 t.outputs.toList = .ok outTotal :=
      sumOutputs_eq_ok_iff.mpr ⟨ht.noDust, houtput.trans (Nat.zero_add _).symm⟩
    have hle : outTotal ≤ inputTotal := by
      rw [UInt64.le_iff_toNat_le, hinput, houtput]
      exact ht.covered
    have hfeeEq : inputTotal - outTotal = r.1 := by
      rw [← UInt64.toNat_inj, UInt64.toNat_sub_of_le _ _ hle, hinput, houtput, hfee]
      rfl
    have hlow : ¬ r.1 < minFee t := by
      rw [UInt64.not_lt, UInt64.le_iff_toNat_le, hfee]
      exact ht.minFee_le
    rw [validateTransactionAt, ht.noCoinbase, if_neg Bool.false_ne_true,
      Prog.run_bind_of_ok hinputs, houtputs]
    dsimp only [attempt_ok, Prog.pure_bind]
    rw [if_neg (UInt64.not_lt.mpr hle), hfeeEq, if_neg hlow, ← hlist]
    rfl

/-- A spendable transaction that spends nothing pending passes. -/
theorem Spendable.passes (hview : ReadsView exec s utxos view) {t : Transaction}
    (h : Spendable view verifier spendHeight t) {spent : List Outpoint}
    (hpending : ∀ outpoint ∈ t.spent, outpoint ∉ spent) :
    ∃ fee, (validateTransactionAt t utxos verifier spent spendHeight).run exec s =
      (.ok (fee, t.spent.reverse ++ spent), s) := by
  have hlt : view.fee t < 2 ^ 64 := lt_of_le_of_lt (Nat.sub_le _ _) h.fits
  obtain ⟨fee, hfee⟩ := exists_toNat_eq hlt
  exact ⟨fee, (validateTransactionAt_eq_ok_iff hview).mpr ⟨rfl, h, hpending, hfee, rfl⟩⟩

/-- A list of transactions passes exactly if each is spendable, they spend nothing twice and nothing
pending, and their fees fit. -/
theorem validateFees_eq_ok_iff (hview : ReadsView exec s utxos view) {txs : List Transaction}
    {fees : UInt64} {spent : List Outpoint} {r : UInt64} :
    (validateFees utxos verifier spendHeight txs fees spent).run exec s = (.ok r, s') ↔
      s' = s ∧ (∀ t ∈ txs, Spendable view verifier spendHeight t) ∧
        (txs.flatMap Transaction.spent).Nodup ∧
        (∀ outpoint ∈ txs.flatMap Transaction.spent, outpoint ∉ spent) ∧
        r.toNat = fees.toNat + (txs.map view.fee).sum := by
  induction txs generalizing fees spent with
  | nil =>
    simp only [validateFees, Prog.run_pure, Prod.mk.injEq, Except.ok.injEq]
    constructor
    · rintro ⟨rfl, rfl⟩
      exact ⟨rfl, List.forall_mem_nil _, List.nodup_nil, List.forall_mem_nil _, rfl⟩
    · rintro ⟨rfl, -, -, -, hr⟩
      exact ⟨(UInt64.toNat_inj.mp hr).symm, rfl⟩
  | cons t txs ih =>
    rw [List.forall_mem_cons, List.flatMap_cons, List.nodup_append, List.forall_mem_append,
      List.map_cons, List.sum_cons]
    constructor
    · intro h
      obtain ⟨⟨fee, spent'⟩, mid, ht, hrest⟩ := Prog.run_bind_eq_ok h
      obtain ⟨rfl, hspendable, hpending, hfee, hlist⟩ :=
        (validateTransactionAt_eq_ok_iff hview).mp ht
      obtain ⟨fees', mid', hrunAdd, hlast⟩ := Prog.run_bind_eq_ok hrest
      obtain ⟨hadd, rfl⟩ := run_attempt_eq_ok.mp hrunAdd
      obtain ⟨hstate, hall, hnodup, hpendings, hr⟩ := ih.mp hlast
      change spent' = _ at hlist
      change fee.toNat = _ at hfee
      rw [hlist] at hpendings
      refine ⟨hstate, ⟨hspendable, hall⟩, ⟨hspendable.nodup, hnodup, ?_⟩, ⟨hpending, ?_⟩, ?_⟩
      · rintro outpoint hmem _ hmem' rfl
        exact hpendings outpoint hmem' (List.mem_append_left _ (List.mem_reverse.mpr hmem))
      · exact fun outpoint hmem hold ↦ hpendings outpoint hmem (List.mem_append_right _ hold)
      · rw [hr, addAmount_ok hadd, hfee, Nat.add_assoc]
    · rintro ⟨hstate, ⟨hspendable, hall⟩, ⟨-, hnodup, hdisjoint⟩, ⟨hpending, hpendings⟩, hr⟩
      have hlt := r.toNat_lt
      have hfits : view.fee t < 2 ^ 64 := by omega
      obtain ⟨fee, hfee⟩ := exists_toNat_eq hfits
      have ht : (validateTransactionAt t utxos verifier spent spendHeight).run exec s =
          (.ok (fee, t.spent.reverse ++ spent), s) :=
        (validateTransactionAt_eq_ok_iff hview).mpr ⟨rfl, hspendable, hpending, hfee, rfl⟩
      rw [← hfee] at hr
      obtain ⟨fees', hadd, hr⟩ := exists_addAmount_iff.mpr hr
      rw [validateFees, Prog.run_bind_of_ok ht]
      dsimp only
      rw [hadd]
      refine ih.mpr ⟨hstate, hall, hnodup, fun outpoint hmem hold ↦ ?_, hr⟩
      rcases List.mem_append.mp hold with hold | hold
      · exact hdisjoint _ (List.mem_reverse.mp hold) _ hmem rfl
      · exact hpendings outpoint hmem hold

/-- The transactions of a block pass exactly if there is a coinbase in front with at most the reward
and the fees, added up in `uint64`, and the others pass. -/
theorem validateBlockTransactionsAt_eq_ok_iff (hview : ReadsView exec s utxos view) {b : Block} :
    (validateBlockTransactionsAt b utxos verifier spendHeight).run exec s = (.ok (), s') ↔
      s' = s ∧ ∃ coinbase txs, b.transactions.toList = coinbase :: txs ∧
        coinbase.isCoinbase = true ∧ (∀ t ∈ txs, Spendable view verifier spendHeight t) ∧
        (txs.flatMap Transaction.spent).Nodup ∧
        ∃ fees : UInt64, fees.toNat = (txs.map view.fee).sum ∧
          outputTotal coinbase ≤ (blockReward b.header.height + fees).toNat := by
  have hamounts (coinbase : Transaction) :
      ((coinbase.outputs.toList.map Output.amount).map UInt64.toNat).sum =
        outputTotal coinbase := by
    rw [List.map_map]
    rfl
  unfold validateBlockTransactionsAt
  split
  · next hnil =>
    refine ⟨nofun, fun ⟨_, coinbase, txs, htxs, _⟩ ↦ ?_⟩
    cases hnil.symm.trans htxs
  next coinbase txs htxs =>
  constructor
  · intro h
    split_ifs at h with hcoinbase
    · cases h
    obtain ⟨fees, mid, hfees, hrest⟩ := Prog.run_bind_eq_ok h
    obtain ⟨rfl, hall, hnodup, -, hr⟩ := (validateFees_eq_ok_iff hview).mp hfees
    obtain ⟨coinbaseOut, mid', hrunSum, hlast⟩ := Prog.run_bind_eq_ok hrest
    obtain ⟨hsumOk, rfl⟩ := run_attempt_eq_ok.mp hrunSum
    split_ifs at hlast with hle
    · cases hlast
    cases hlast
    have hsum := sumAmounts_eq_ok_iff.mp hsumOk
    rw [hamounts, UInt64.toNat_zero, Nat.zero_add] at hsum
    refine ⟨rfl, coinbase, txs, htxs, by simpa using hcoinbase, hall, hnodup, fees,
      hr.trans (Nat.zero_add _), ?_⟩
    rw [← hsum]
    exact UInt64.le_iff_toNat_le.mp (UInt64.not_lt.mp hle)
  · rintro ⟨rfl, coinbase', txs', htxs', hcoinbase, hall, hnodup, fees, hr, hle⟩
    cases htxs.symm.trans htxs'
    obtain ⟨coinbaseOut, hout⟩ := exists_toNat_eq (lt_of_le_of_lt hle (UInt64.toNat_lt _))
    have hfees : (validateFees utxos verifier spendHeight txs 0 []).run exec s' = (.ok fees, s') :=
      (validateFees_eq_ok_iff hview).mpr
        ⟨rfl, hall, hnodup, fun _ _ ↦ List.not_mem_nil, hr.trans (Nat.zero_add _).symm⟩
    have hsum : sumAmounts 0 (coinbase.outputs.toList.map Output.amount) = .ok coinbaseOut :=
      sumAmounts_eq_ok_iff.mpr (by rw [hamounts, hout, UInt64.toNat_zero, Nat.zero_add])
    have hguard : ¬ coinbaseOut > blockReward b.header.height + fees := by
      rw [gt_iff_lt, UInt64.not_lt, UInt64.le_iff_toNat_le, hout]
      exact hle
    rw [hcoinbase, Bool.not_true, if_neg Bool.false_ne_true]
    dsimp only
    rw [Prog.run_bind_of_ok hfees, hsum]
    dsimp only [attempt_ok, Prog.pure_bind]
    rw [if_neg hguard]
    rfl

end FixedView

end NevelCore
