import NevelCore.Chain.Runs

/-!
# The unspent outputs of a chain

The ledger of a chain, built block by block, is the set of the outputs that some block of the chain
creates and no transaction of the chain spends, if no two transactions have one hash.
`lookup_apply_iff` is the step for one block, `lookup_replay_iff` the result for chains, and
`get_iff_created_and_unspent` the result for runs.
-/

set_option autoImplicit false
set_option relaxedAutoImplicit false

namespace NevelCore

open Foundations

namespace Ledger

/-- A block has a record among those it creates. -/
def Creates (b : Block) (u : UTXO) : Prop :=
  ∃ ti t, b.transactions.toList[ti]? = some t ∧ u ∈ records t b.header.height (ti == 0)

theorem setRecord_inj {u u' : UTXO} (h : setRecord u = setRecord u') : u = u' := by
  unfold setRecord at h
  injection h with hkey hvalue
  have hval : ∀ {o o' : Outpoint} (_ : o = o') {r : RecordAt o} {r' : RecordAt o'}, r ≍ r' →
      r.val = r'.val := by
    rintro o _ rfl r r' hr
    rw [eq_of_heq hr]
  exact hval hkey hvalue

theorem setRecord_mem_blockOps {b : Block} {u : UTXO} :
    setRecord u ∈ blockOps b ↔ Creates b u := by
  rw [blockOps, List.mem_flatten]
  constructor
  · rintro ⟨ops, hops, hmem⟩
    obtain ⟨ti, hti, rfl⟩ := List.mem_mapIdx.mp hops
    refine ⟨ti, _, List.getElem?_eq_getElem hti, ?_⟩
    rw [transactionOps, List.mem_append] at hmem
    rcases hmem with hmem | hmem
    · obtain ⟨outpoint, -, h⟩ := List.mem_map.mp hmem
      cases h
    · obtain ⟨u', hu', h⟩ := List.mem_map.mp hmem
      rwa [← setRecord_inj h]
  · rintro ⟨ti, t, ht, hu⟩
    obtain ⟨hti, rfl⟩ := List.getElem?_eq_some_iff.mp ht
    refine ⟨_, List.mem_mapIdx.mpr ⟨ti, hti, rfl⟩, ?_⟩
    exact List.mem_append_right _ (List.mem_map.mpr ⟨u, hu, rfl⟩)

/-- What a block leaves, if it spends outputs that are there and creates others that are not. -/
theorem lookup_apply_iff {l : Ledger} {b : Block}
    (hthere : ∀ outpoint ∈ spent b, l.lookup outpoint ≠ none) (hnodup : (created b).Nodup)
    (habsent : ∀ outpoint ∈ created b, l.lookup outpoint = none) {u : UTXO} :
    (l.apply b).lookup u.outpoint = some ⟨u, rfl⟩ ↔
      Creates b u ∨ l.lookup u.outpoint = some ⟨u, rfl⟩ ∧ u.outpoint ∉ spent b := by
  rw [← written_blockOps] at hnodup
  rw [← setRecord_mem_blockOps]
  by_cases hcreated : u.outpoint ∈ created b
  · have hdeleted : u.outpoint ∉ deleted (blockOps b) := by
      rw [deleted_blockOps]
      exact fun h ↦ hthere _ h (habsent _ hcreated)
    rw [habsent _ hcreated]
    constructor
    · intro hlookup
      rw [← written_blockOps] at hcreated
      obtain ⟨before, value, after, hsplit⟩ := exists_split_of_mem_written hcreated
      have hmem : .set u.outpoint value ∈ blockOps b := by simp [hsplit]
      rw [apply, lookup_commit_of_written hnodup hmem hdeleted] at hlookup
      rw [Option.some.inj hlookup] at hmem
      exact .inl hmem
    · rintro (hmem | ⟨hnone, -⟩)
      · exact lookup_commit_of_written hnodup hmem hdeleted l
      · cases hnone
  · have hwritten : u.outpoint ∉ written (blockOps b) := by rwa [written_blockOps]
    have hmem : setRecord u ∉ blockOps b := fun h ↦ hwritten (by
      obtain ⟨before, after, hsplit⟩ := List.append_of_mem h
      rw [hsplit, written_append]
      exact List.mem_append_right _ List.mem_cons_self)
    rw [or_iff_right hmem]
    by_cases hspent : u.outpoint ∈ spent b
    · rw [← deleted_blockOps] at hspent
      rw [apply, lookup_commit_of_deleted hspent hwritten, deleted_blockOps] at *
      constructor
      · intro hnone
        cases hnone
      · intro h
        exact absurd hspent h.2
    · rw [apply, lookup_commit_of_notMem]
      · exact (and_iff_left hspent).symm
      · rw [mem_keys_iff, deleted_blockOps]
        exact fun h ↦ h.elim hspent hwritten

theorem outpoint_of_mem_records {t : Transaction} {height : UInt64} {coinbase : Bool} {u : UTXO}
    (h : u ∈ records t height coinbase) : u.outpoint ∈ DB.outpoints t := by
  rw [← outpoint_records t height coinbase]
  exact List.mem_map_of_mem h

theorem hash_of_mem_outpoints {t : Transaction} {outpoint : Outpoint}
    (h : outpoint ∈ DB.outpoints t) : outpoint.hash = t.hash := by
  obtain ⟨i, hi, rfl⟩ := List.mem_mapIdx.mp h
  rfl

theorem nodup_outpoints (t : Transaction) : (DB.outpoints t).Nodup := by
  rw [List.nodup_iff_injective_getElem]
  intro i j hij
  have hlength := t.outputs.length_lt
  have hi := i.isLt
  have hj := j.isLt
  simp only [DB.outpoints, List.length_mapIdx] at hi hj
  simp only [DB.outpoints, List.getElem_mapIdx, Outpoint.mk.injEq, true_and] at hij
  have hnat := congrArg UInt32.toNat hij
  rw [UInt32.toNat_ofNat_of_lt' (by change _ < 2 ^ 32; omega),
    UInt32.toNat_ofNat_of_lt' (by change _ < 2 ^ 32; omega)] at hnat
  exact Fin.ext hnat

/-- Transactions of different hashes create different outpoints. -/
theorem nodup_created {b : Block} (h : (b.transactions.toList.map Transaction.hash).Nodup) :
    (created b).Nodup := by
  rw [created, List.nodup_flatMap]
  refine ⟨fun t _ ↦ nodup_outpoints t, ?_⟩
  rw [List.Nodup, List.pairwise_map] at h
  refine h.imp fun hne ↦ ?_
  rw [Function.onFun, List.disjoint_left]
  intro outpoint h1 h2
  exact hne ((hash_of_mem_outpoints h1).symm.trans (hash_of_mem_outpoints h2))

/-- The hashes of the transactions of a chain. -/
def txHashes (chain : List Block) : List Hash :=
  (chain.flatMap fun b ↦ b.transactions.toList).map Transaction.hash

theorem hash_mem_of_created {b : Block} {outpoint : Outpoint} (h : outpoint ∈ created b) :
    outpoint.hash ∈ b.transactions.toList.map Transaction.hash := by
  obtain ⟨t, ht, houtpoint⟩ := List.mem_flatMap.mp h
  rw [hash_of_mem_outpoints houtpoint]
  exact List.mem_map_of_mem ht

theorem Creates.outpoint_mem {b : Block} {u : UTXO} (h : Creates b u) : u.outpoint ∈ created b := by
  obtain ⟨ti, t, ht, hu⟩ := h
  exact List.mem_flatMap.mpr ⟨t, List.mem_of_getElem? ht, outpoint_of_mem_records hu⟩

end Ledger

open Ledger

theorem txHashes_cons (b : Block) (chain : List Block) :
    txHashes (b :: chain) = b.transactions.toList.map Transaction.hash ++ txHashes chain := by
  rw [txHashes, List.flatMap_cons, List.map_append, txHashes]

/-- An unspent output of a chain belongs to one of its transactions. -/
theorem hash_mem_of_lookup {chain : List Block} {outpoint : Outpoint}
    (h : (replay chain).lookup outpoint ≠ none) : outpoint.hash ∈ txHashes chain := by
  induction chain with
  | nil => exact absurd rfl h
  | cons b chain ih =>
    rw [txHashes_cons, List.mem_append]
    by_cases hcreated : outpoint ∈ created b
    · exact .inl (hash_mem_of_created hcreated)
    · refine .inr (ih fun hnone ↦ h (lookup_commit_of_none ?_ hnone))
      rwa [written_blockOps]

variable {m : Manager} {g : Block} {chain : List Block}

/-- A spent output of a chain belongs to one of its transactions. -/
theorem Chain.hash_mem_of_spent (h : Chain m g chain) (hg : spent g = []) {b : Block}
    (hb : b ∈ chain) {outpoint : Outpoint} (hspent : outpoint ∈ spent b) :
    outpoint.hash ∈ txHashes chain := by
  induction h with
  | genesis =>
    rw [List.mem_singleton.mp hb, hg] at hspent
    cases hspent
  | extend below step ih =>
    rw [txHashes_cons, List.mem_append]
    rcases List.mem_cons.mp hb with rfl | hbelow
    · exact .inr (hash_mem_of_lookup (step.transactions.there outpoint hspent))
    · exact .inr (ih hbelow)

/-- The ledger of a chain whose transactions have distinct hashes: what some block creates and no
block spends. -/
theorem Chain.lookup_replay_iff (h : Chain m g chain) (hg : spent g = [])
    (hdistinct : (txHashes chain).Nodup) {u : UTXO} :
    (replay chain).lookup u.outpoint = some ⟨u, rfl⟩ ↔
      (∃ b ∈ chain, Creates b u) ∧ ∀ b ∈ chain, u.outpoint ∉ spent b := by
  induction h generalizing u with
  | genesis =>
    have hnodup : (g.transactions.toList.map Transaction.hash).Nodup := by
      simpa [txHashes] using hdistinct
    have hstep := lookup_apply_iff (l := ∅) (by simp [hg]) (nodup_created hnodup)
      (fun _ _ ↦ rfl) (u := u)
    simpa [replay, hg] using hstep
  | @extend b p rest below step ih =>
    rw [txHashes_cons, List.nodup_append] at hdistinct
    obtain ⟨hblock, hbelow, hdisjoint⟩ := hdistinct
    have habsent : ∀ outpoint ∈ created b, (replay (p :: rest)).lookup outpoint = none := by
      intro outpoint hcreated
      by_contra hlookup
      exact hdisjoint _ (hash_mem_of_created hcreated) _ (hash_mem_of_lookup hlookup) rfl
    rw [replay_cons b, lookup_apply_iff step.transactions.there (nodup_created hblock) habsent,
      ih hbelow]
    constructor
    · rintro (hcreates | ⟨⟨⟨x, hx, hcreates⟩, hunspent⟩, hspent⟩)
      · have hcreated := hcreates.outpoint_mem
        refine ⟨⟨b, List.mem_cons_self, hcreates⟩, List.forall_mem_cons.mpr ⟨fun hspent ↦ ?_,
          fun x hx hspent ↦ ?_⟩⟩
        · exact step.transactions.there _ hspent (habsent _ hcreated)
        · exact hdisjoint _ (hash_mem_of_created hcreated) _ (below.hash_mem_of_spent hg hx hspent)
            rfl
      · exact ⟨⟨x, List.mem_cons_of_mem _ hx, hcreates⟩,
          List.forall_mem_cons.mpr ⟨hspent, hunspent⟩⟩
    · rintro ⟨⟨x, hx, hcreates⟩, hunspent⟩
      obtain ⟨hspent, hunspent⟩ := List.forall_mem_cons.mp hunspent
      rcases List.mem_cons.mp hx with rfl | hx
      · exact .inl hcreates
      · exact .inr ⟨⟨⟨x, hx, hcreates⟩, hunspent⟩, hspent⟩

theorem IsGenesis.spent_eq_nil {net : Network} (h : IsGenesis net g) : spent g = [] := by
  rw [spent, h.transactions]
  decide

/-- The record of an output, found by its place. -/
theorem creates_iff {b : Block} {u : UTXO} {hash : Hash} {idx : UInt32} :
    Creates b u ∧ u.outpoint = ⟨hash, idx⟩ ↔
      ∃ ti t output, b.transactions.toList[ti]? = some t ∧ t.hash = hash ∧
        t.outputs.toList[idx.toNat]? = some output ∧
        u = { txHash := hash, outputIdx := idx, amount := output.amount,
              script := output.lockingScript, height := b.header.height, coinbase := ti == 0 } := by
  constructor
  · rintro ⟨⟨ti, t, ht, hu⟩, houtpoint⟩
    obtain ⟨i, hi, rfl⟩ := List.mem_mapIdx.mp hu
    obtain ⟨rfl, rfl⟩ := Outpoint.mk.inj houtpoint
    have hidx : (UInt32.ofNat i).toNat = i := by
      have hlength := t.outputs.length_lt
      exact UInt32.toNat_ofNat_of_lt' (by change _ < 2 ^ 32; omega)
    refine ⟨ti, t, t.outputs.toList[i], ht, rfl, ?_, rfl⟩
    change t.outputs.toList[(UInt32.ofNat i).toNat]? = _
    rw [hidx, List.getElem?_eq_getElem hi]
  · rintro ⟨ti, t, output, ht, rfl, houtput, rfl⟩
    obtain ⟨hi, rfl⟩ := List.getElem?_eq_some_iff.mp houtput
    refine ⟨⟨ti, t, ht, List.mem_mapIdx.mpr ⟨idx.toNat, hi, ?_⟩⟩, rfl⟩
    rw [DB.newRecord, UInt32.ofNat_toNat]

theorem notMem_spent_iff {b : Block} {hash : Hash} {idx : UInt32} :
    ⟨hash, idx⟩ ∉ spent b ↔ ∀ t ∈ b.transactions.toList, t.isCoinbase = false →
      ∀ input ∈ t.inputs.toList, ¬ (input.prevTxHash = hash ∧ input.outputIdx = idx) := by
  rw [spent, List.mem_flatMap]
  constructor
  · intro h t ht hcoinbase input hinput heq
    refine h ⟨t, ht, ?_⟩
    rw [spends, if_neg (by simp [hcoinbase])]
    exact List.mem_map.mpr ⟨input, hinput, by rw [Input.outpoint, heq.1, heq.2]⟩
  · rintro h ⟨t, ht, hspends⟩
    rw [spends] at hspends
    split at hspends
    · cases hspends
    · next hcoinbase =>
      obtain ⟨input, hinput, heq⟩ := List.mem_map.mp hspends
      exact h t ht (by simpa using hcoinbase) input hinput (Outpoint.mk.inj heq)

/-- In every state of a run of blocks of positive height whose transactions that became part of the
tip have distinct hashes: the blocks that became the tip are the ancestors of the tip, and a record
is found exactly if it is that of an output which one of them creates and none of them spends. -/
theorem get_iff_created_and_unspent {tips : List Block} {n : Node}
    (h : Run m PositiveHeight g tips n) (hdistinct : (txHashes tips).Nodup) :
    (∃ tip below, tips = tip :: below ∧ DB.tip n.store = .ok tip.hash) ∧
      tips.IsChain (fun b p ↦ b.header.prevHash = p.hash) ∧
      ∀ hash idx u, DB.get n.store hash idx = .ok u ↔
        (∃ b ∈ tips, ∃ ti t output, b.transactions.toList[ti]? = some t ∧ t.hash = hash ∧
          t.outputs.toList[idx.toNat]? = some output ∧
          u = { txHash := hash, outputIdx := idx, amount := output.amount,
                script := output.lockingScript, height := b.header.height,
                coinbase := ti == 0 }) ∧
        ∀ b ∈ tips, ∀ t ∈ b.transactions.toList, t.isCoinbase = false →
          ∀ input ∈ t.inputs.toList, ¬ (input.prevTxHash = hash ∧ input.outputIdx = idx) := by
  obtain ⟨hchain, hholds⟩ := h.holds fun _ _ _ hpositive ↦ hpositive
  obtain ⟨tip, below, rfl⟩ := hchain.exists_cons
  refine ⟨⟨tip, below, rfl, hholds.tip rfl⟩, (hchain.branch h.genesis.height).isChain,
    fun hash idx u ↦ ?_⟩
  simp only [← creates_iff, ← notMem_spent_iff]
  have hlookup : DB.get n.store hash idx = .ok u ↔ u.outpoint = ⟨hash, idx⟩ ∧
      (replay (tip :: below)).lookup u.outpoint = some ⟨u, rfl⟩ := by
    rw [DB.get_eq_ok, hholds.ledger]
    generalize (⟨hash, idx⟩ : Outpoint) = outpoint
    exact ⟨fun ⟨heq, h⟩ ↦ by subst heq; exact ⟨rfl, h⟩, fun ⟨heq, h⟩ ↦ by subst heq; exact ⟨rfl, h⟩⟩
  rw [hlookup, hchain.lookup_replay_iff h.genesis.spent_eq_nil hdistinct]
  constructor
  · rintro ⟨houtpoint, ⟨b, hb, hcreates⟩, hunspent⟩
    exact ⟨⟨b, hb, hcreates, houtpoint⟩, houtpoint ▸ hunspent⟩
  · rintro ⟨⟨b, hb, hcreates, houtpoint⟩, hunspent⟩
    exact ⟨houtpoint, ⟨b, hb, hcreates⟩, houtpoint ▸ hunspent⟩

theorem get_iff_created_and_unspent_regtest :
    ∃ u, DB.get Regtest.afterA.store
      (newCoinbase (Manager.minedAt 1790000000) initialReward (Regtest.script 0x11)).hash 0 =
        .ok u ∧ u.amount = initialReward ∧ u.height = 1 ∧ u.coinbase = true := by
  have hheight : 0 < Regtest.blockA.header.height := by decide
  have hrun : Run Regtest.manager PositiveHeight _ _ _ := Regtest.runA hheight
  have hdistinct : (txHashes [Regtest.blockA, Regtest.genesis]).Nodup := by
    change [Transaction.hash _, Regtest.genesisCoinbase.hash].Nodup
    rw [Regtest.hash_coinbaseA, Regtest.hash_genesisCoinbase]
    decide
  refine ⟨_, ((get_iff_created_and_unspent hrun hdistinct).2.2 _ _ _).mpr
    ⟨⟨Regtest.blockA, List.mem_cons_self, 0, _, ⟨initialReward, Regtest.script 0x11⟩, rfl, rfl, rfl,
      rfl⟩, ?_⟩, rfl, rfl, rfl⟩
  decide

end NevelCore
