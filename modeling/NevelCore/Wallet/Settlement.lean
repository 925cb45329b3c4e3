import NevelCore.Chain.Balances
import NevelCore.Chain.Mining
import NevelCore.Wallet.Builder

/-!
# A payment in a block

What becomes of a payment that `BuildTransaction` has built (`Pays`) once it stands in a block that
becomes the tip. If the other transactions of the block have nothing to do with the two scripts, the
balance of the sender falls by the amount and the fee, whatever was selected and given back as
change, and the balance of the receiver rises by the amount (`payment_settled`).
-/

set_option autoImplicit false
set_option relaxedAutoImplicit false

namespace NevelCore.Wallet

open Foundations

/-- A transaction pays nothing to a script and spends nothing of it. -/
structure Apart (l : Ledger) (script : Bytes) (t : Transaction) : Prop where
  paidTo : ∀ output ∈ t.outputs.toList, output.lockingScript ≠ script
  takenFrom : ∀ outpoint ∈ Ledger.spends t, ∀ u, l.view outpoint = some u → u.script ≠ script

section Accounts

variable {l : Ledger} {script : Bytes} {t : Transaction}

theorem Apart.paidTo_eq (h : Apart l script t) : Ledger.paidTo script t = 0 := by
  rw [Ledger.paidTo, List.filter_eq_nil_iff.mpr fun output houtput ↦ by
    simpa using h.paidTo output houtput]
  rfl

theorem weightAt_of_view {outpoint : Outpoint} {u : UTXO} (h : l.view outpoint = some u) :
    weightAt (Ledger.amountFor script) l outpoint =
      if u.script = script then u.amount.toNat else 0 := by
  rw [Ledger.view, Option.map_eq_some_iff] at h
  obtain ⟨record, hlookup, rfl⟩ := h
  exact weightAt_of_lookup hlookup

theorem Apart.takenFrom_eq (h : Apart l script t) : l.takenFrom script t = 0 := by
  refine List.sum_eq_zero fun x hx ↦ ?_
  obtain ⟨outpoint, houtpoint, rfl⟩ := List.mem_map.mp hx
  cases hview : l.view outpoint with
  | none =>
    rw [Ledger.view, Option.map_eq_none_iff] at hview
    exact weightAt_of_none hview
  | some u => rw [weightAt_of_view hview, if_neg (h.takenFrom outpoint houtpoint u hview)]

/-- A sum over a block has one term if the others vanish. -/
theorem sum_map_of_others {weight : Transaction → ℕ} {front back : List Transaction}
    (h : ∀ t' ∈ front ++ back, weight t' = 0) :
    ((front ++ t :: back).map weight).sum = weight t := by
  have hzero {txs : List Transaction} (hsub : ∀ t' ∈ txs, t' ∈ front ++ back) :
      (txs.map weight).sum = 0 :=
    List.sum_eq_zero fun x hx ↦ by
      obtain ⟨t', ht', rfl⟩ := List.mem_map.mp hx
      exact h t' (hsub t' ht')
  rw [List.map_append, List.sum_append, List.map_cons, List.sum_cons,
    hzero fun t' ht' ↦ List.mem_append_left _ ht', hzero fun t' ht' ↦ List.mem_append_right _ ht',
    Nat.zero_add, Nat.add_zero]

end Accounts

/-! ### The two scripts of a payment -/

section Payment

variable {l : Ledger} {fromScript toScript : Bytes} {amount fee : UInt64} {utxos : List UTXO}
  {k : ℕ} {t : Transaction}

/-- The records are unspent outputs of a script. -/
def Owned (l : Ledger) (script : Bytes) (utxos : List UTXO) : Prop :=
  ∀ u ∈ utxos, l.view u.outpoint = some u ∧ u.script = script

theorem sum_weightAt_of_owned (h : Owned l fromScript utxos) (script : Bytes) :
    ((utxos.map UTXO.outpoint).map (weightAt (Ledger.amountFor script) l)).sum =
      if fromScript = script then totalAmount utxos else 0 := by
  induction utxos with
  | nil => split <;> rfl
  | cons u utxos ih =>
    obtain ⟨hview, hscript⟩ := h u List.mem_cons_self
    rw [List.map_cons, List.map_cons, List.sum_cons,
      ih fun u hu ↦ h u (List.mem_cons_of_mem _ hu), weightAt_of_view hview, hscript,
      totalAmount_cons]
    split <;> rfl

theorem takenFrom_of_pays (h : Pays fromScript toScript amount fee utxos k t)
    (howned : Owned l fromScript utxos) (hcoinbase : t.isCoinbase = false) (script : Bytes) :
    l.takenFrom script t = if fromScript = script then totalAmount (utxos.take k) else 0 := by
  rw [Ledger.takenFrom, Ledger.spends_of_noCoinbase hcoinbase, h.spent_eq]
  exact sum_weightAt_of_owned (fun u hu ↦ howned u (List.mem_of_mem_take hu)) script

theorem paidTo_of_pays (h : Pays fromScript toScript amount fee utxos k t)
    (hne : fromScript ≠ toScript) :
    Ledger.paidTo toScript t = amount.toNat ∧
      Ledger.paidTo fromScript t + (amount.toNat + fee.toNat) = totalAmount (utxos.take k) := by
  obtain ⟨change, htotal, houtputs⟩ := h.outputs_eq
  rw [Ledger.paidTo, Ledger.paidTo, houtputs, htotal]
  by_cases hchange : change > 0
  · rw [if_pos hchange]
    simp [hne, hne.symm]
    omega
  · rw [if_neg hchange]
    have hzero : change.toNat = 0 := by
      have := UInt64.not_lt.mp hchange
      simpa [UInt64.le_iff_toNat_le] using this
    simp [hne.symm, hzero]

end Payment

/-- In a run of blocks of positive height, a payment between two scripts that stands in an accepted
block on top of the tip whose outputs are fresh, among transactions that have nothing to do with the
two scripts, takes the amount and the fee from the balance of the sender and adds the amount to that
of the receiver. -/
theorem payment_settled {m : Manager} {g b : Block} {tips : List Block} {n n' : Node} {now : ℤ}
    {fuel : ℕ} (hrun : Run m PositiveHeight g tips n) (hheight : 0 < b.header.height)
    (hcall : (m.validateAndApplyBlock now fuel b).run exec n = (.ok (), n'))
    (hlink : DB.tip n.store = .ok b.header.prevHash)
    (hfresh : (DB.utxos n.store).CreatesFresh b)
    {fromScript toScript : Bytes} (hne : fromScript ≠ toScript) {amount fee : UInt64}
    {utxos : List UTXO} {k : ℕ} {t : Transaction}
    (hpays : Pays fromScript toScript amount fee utxos k t)
    (howned : Owned (DB.utxos n.store) fromScript utxos)
    {front back : List Transaction} (hsplit : b.transactions.toList = front ++ t :: back)
    (hfront : front ≠ [])
    (hapart : ∀ t' ∈ front ++ back, Apart (DB.utxos n.store) fromScript t' ∧
      Apart (DB.utxos n.store) toScript t')
    {listed listed' : List UTXO} (hlisted : DB.ListsUTXOs n.store listed)
    (hlisted' : DB.ListsUTXOs n'.store listed') :
    ∃ fromOld fromNew toOld toNew, DB.balanceByScript listed fromScript = .ok fromOld ∧
      DB.balanceByScript listed' fromScript = .ok fromNew ∧
      DB.balanceByScript listed toScript = .ok toOld ∧
      DB.balanceByScript listed' toScript = .ok toNew ∧
      fromNew.toNat + (amount.toNat + fee.toNat) = fromOld.toNat ∧
      toNew.toNat = toOld.toNat + amount.toNat := by
  have hallowed : ∀ n now b, PositiveHeight n now b → 0 < b.header.height := fun _ _ _ h ↦ h
  have hrun' : Run m PositiveHeight g (tipsAfter n n' b tips) n' := .call hrun hheight hcall nofun
  obtain ⟨hvalid, hledger⟩ := utxos_newTip hcall hlink
  obtain ⟨fromOld, hfromOld, hfromOldValue⟩ := hrun.balanceByScript hallowed hlisted fromScript
  obtain ⟨fromNew, hfromNew, hfromNewValue⟩ := hrun'.balanceByScript hallowed hlisted' fromScript
  obtain ⟨toOld, htoOld, htoOldValue⟩ := hrun.balanceByScript hallowed hlisted toScript
  obtain ⟨toNew, htoNew, htoNewValue⟩ := hrun'.balanceByScript hallowed hlisted' toScript
  refine ⟨fromOld, fromNew, toOld, toNew, hfromOld, hfromNew, htoOld, htoNew, ?_⟩
  have hcoinbase : t.isCoinbase = false := by
    obtain ⟨coinbase, txs, htxs, -, hothers⟩ := hvalid.coinbase
    obtain ⟨first, front, rfl⟩ := List.exists_cons_of_ne_nil hfront
    rw [hsplit, List.cons_append] at htxs
    exact hothers t (by rw [← (List.cons.inj htxs).2]; simp)
  have hfrom := Ledger.balanceOf_apply hvalid hfresh fromScript
  have hto := Ledger.balanceOf_apply hvalid hfresh toScript
  rw [hsplit, sum_map_of_others fun t' ht' ↦ (hapart t' ht').1.takenFrom_eq,
    sum_map_of_others fun t' ht' ↦ (hapart t' ht').1.paidTo_eq,
    takenFrom_of_pays hpays howned hcoinbase, if_pos rfl, ← hledger] at hfrom
  rw [hsplit, sum_map_of_others fun t' ht' ↦ (hapart t' ht').2.takenFrom_eq,
    sum_map_of_others fun t' ht' ↦ (hapart t' ht').2.paidTo_eq,
    takenFrom_of_pays hpays howned hcoinbase, if_neg hne, ← hledger] at hto
  obtain ⟨hpaid, hchange⟩ := paidTo_of_pays hpays hne
  omega

namespace Sample

open Regtest

/-- What spends the output of the genesis block is a payment without change. -/
theorem pays_spendGenesis : Pays genesisCoin.script (.ofList []) 1 (initialReward - 1)
    [genesisCoin] 1 (spendGenesis 1) where
  version_eq := rfl
  lockTime_eq := rfl
  shortest := ⟨le_rfl, by decide, fun m hm ↦ by
    rw [Nat.lt_one_iff.mp hm]
    decide⟩
  spent_eq := rfl
  outputs_eq := ⟨0, by decide, rfl⟩
  balance := by decide

theorem createsFresh_blockS {l : Ledger} (h : l = Ledger.replay [genesis]) :
    l.CreatesFresh blockS := by
  have hcreated : Ledger.created blockS = [⟨(spendGenesis 1).hash, 0⟩] := rfl
  refine Ledger.createsFresh_of_absent (hcreated ▸ List.nodup_singleton _) fun outpoint hmem ↦ ?_
  rw [hcreated, List.mem_singleton] at hmem
  subst hmem
  rw [h, ← utxos_genesis]
  refine lookup_genesis ?_
  rw [hash_spendGenesis_one]
  decide

end Sample

/-- The output of the genesis block is paid to the empty script. -/
theorem payment_settled_regtest :
    ∃ n n' : Node, ∃ fromOld fromNew toOld toNew,
      DB.balanceByScript (DB.utxos n.store).listing.toList Regtest.genesisCoin.script =
        .ok fromOld ∧
      DB.balanceByScript (DB.utxos n'.store).listing.toList Regtest.genesisCoin.script =
        .ok fromNew ∧
      DB.balanceByScript (DB.utxos n.store).listing.toList (.ofList []) = .ok toOld ∧
      DB.balanceByScript (DB.utxos n'.store).listing.toList (.ofList []) = .ok toNew ∧
      fromNew.toNat + ((1 : UInt64).toNat + (initialReward - 1).toNat) = fromOld.toNat ∧
      toNew.toNat = toOld.toNat + (1 : UInt64).toNat := by
  obtain ⟨p, rest, n, hmatured, -⟩ := Regtest.exists_matured none
  obtain ⟨-, hholds⟩ := hmatured.run.holds fun _ _ _ h ↦ h
  have hledger : DB.utxos n.store = Ledger.replay [Regtest.genesis] :=
    hholds.ledger.trans hmatured.ledger
  have hvalid := hmatured.validOn_blockS
  obtain ⟨n', hcall, -⟩ := hmatured.run.extend (fun _ _ _ h ↦ h) hvalid.height hvalid
    hmatured.inLimits (hmatured.hash_ne Regtest.hashValue_blockS (by simp)) 1
  have howned : Owned (DB.utxos n.store) Regtest.genesisCoin.script [Regtest.genesisCoin] := by
    refine List.forall_mem_singleton.mpr ⟨?_, rfl⟩
    rw [hledger, Regtest.view_replay_genesis, if_pos rfl]
  -- the coinbase of the block has no outputs
  have hapart (script : Bytes) : ∀ t' ∈ [Regtest.emptyCoinbase] ++ [],
      Apart (DB.utxos n.store) script t' :=
    List.forall_mem_singleton.mpr ⟨List.forall_mem_nil _, List.forall_mem_nil _⟩
  have hne : Regtest.genesisCoin.script ≠ .ofList [] := by decide +kernel
  exact ⟨n, n', payment_settled hmatured.run hvalid.height hcall
    (by rw [hholds.tip rfl, hvalid.link]) (Sample.createsFresh_blockS hledger) hne
    Sample.pays_spendGenesis howned (show Regtest.blockS.transactions.toList =
      [Regtest.emptyCoinbase] ++ Regtest.spendGenesis 1 :: [] from rfl) (List.cons_ne_nil _ _)
    (fun t' ht' ↦ ⟨hapart _ t' ht', hapart _ t' ht'⟩) (Multiset.coe_toList _)
    (Multiset.coe_toList _)⟩

end NevelCore.Wallet
