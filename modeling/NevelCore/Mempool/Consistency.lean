import NevelCore.Consensus.Passing
import NevelCore.Foundations.KeyValueBatch
import NevelCore.Mempool.Mempool

/-!
# The representation of the memory pool

The pool keeps its transactions in three forms: the entries, the index of the outpoints they spend,
and the number of their bytes. `Consistent` says that the three agree. `Remove` keeps this
(`Consistent.remove`), and with it `RemoveMinedBlock` and the evictions of `Add`, which all take
single entries away. `Consistent.insert` is the rule for a new entry, and `add_ok` says what is
known of the transaction when `Add` gets there: no outpoint it spends is in the index.

A call of `Add` may read any unspent outputs, those may change from call to call, and its loops may
meet the entries in any order. `PoolCall` is the relation of one call, and
`calls_consistent` says that every sequence of calls keeps the representation.
-/

set_option autoImplicit false
set_option relaxedAutoImplicit false

namespace NevelCore

open Foundations

namespace MapOrder

variable {κ : Type} {V : κ → Type}

theorem mem_list [DecidableEq κ] (order : MapOrder V) {entries : Finmap V} {k : κ} {value : V k} :
    ⟨k, value⟩ ∈ order.list entries ↔ entries.lookup k = some value := by
  rw [Finmap.lookup_eq_some_iff, ← order.list_eq, Multiset.mem_coe]

theorem nodup_keys (order : MapOrder V) (entries : Finmap V) :
    ((order.list entries).map Sigma.fst).Nodup := by
  have hkeys := Multiset.nodup_keys.mpr entries.nodupKeys
  rw [← order.list_eq] at hkeys
  exact hkeys

end MapOrder

namespace Mempool

/-- The length of the wire forms of all entries. -/
def totalSize (m : Mempool) : ℕ := total (fun _ e ↦ (serializeTransaction e.tx).length) m.txs

/-- The three forms of the pool agree. -/
structure Consistent (m : Mempool) : Prop where
  keyed : ∀ {hash e}, m.txs.lookup hash = some e → e.tx.hash = hash
  size : ∀ {hash e}, m.txs.lookup hash = some e →
    e.size = Int64.ofNat (serializeTransaction e.tx).length
  fee : ∀ {hash e}, m.txs.lookup hash = some e → e.size.toUInt64 * minRelayFeePerByte ≤ e.fee
  nodup : ∀ {hash e}, m.txs.lookup hash = some e → e.tx.spent.Nodup
  spends : ∀ {outpoint hash}, m.spends.lookup outpoint = some hash ↔
    ∃ e, m.txs.lookup hash = some e ∧ outpoint ∈ e.tx.spent
  bytes : m.bytes = Int64.ofNat m.totalSize

theorem consistent_new (maxBytes : Int64) : Consistent (new maxBytes) where
  keyed h := by cases h
  size h := by cases h
  fee h := by cases h
  nodup h := by cases h
  spends := ⟨nofun, nofun⟩
  bytes := rfl

variable {m : Mempool}

/-! ### Removing -/

theorem remove_of_none {hash : Hash} (h : m.txs.lookup hash = none) : m.remove hash = m := by
  rw [remove, h]

theorem lookup_txs_remove (m : Mempool) (hash hash' : Hash) :
    (m.remove hash).txs.lookup hash' = if hash' = hash then none else m.txs.lookup hash' := by
  cases hlookup : m.txs.lookup hash with
  | none =>
    rw [remove_of_none hlookup]
    split_ifs with heq
    · rw [heq, hlookup]
    · rfl
  | some e =>
    rw [remove, hlookup]
    split_ifs with heq
    · rw [heq]
      exact Finmap.lookup_erase _ _
    · exact Finmap.lookup_erase_ne heq

/-- What is left after a removal was there before. -/
theorem lookup_txs_of_remove {hash hash' : Hash} {e : Entry}
    (h : (m.remove hash).txs.lookup hash' = some e) :
    hash' ≠ hash ∧ m.txs.lookup hash' = some e := by
  rw [lookup_txs_remove] at h
  split_ifs at h with heq
  exact ⟨heq, h⟩

theorem lookup_spends_remove {hash : Hash} {e : Entry} (h : m.txs.lookup hash = some e)
    (outpoint : Outpoint) : (m.remove hash).spends.lookup outpoint =
      if outpoint ∈ e.tx.spent then none else m.spends.lookup outpoint := by
  have hcommit : (m.remove hash).spends = commit (e.tx.spent.map .delete) m.spends := by
    rw [remove, h, commit, Transaction.spent, List.foldl_map, List.foldl_map]
    rfl
  rw [hcommit]
  split_ifs with hmem
  · exact lookup_commit_delete hmem m.spends
  · refine lookup_commit_of_notMem ?_ m.spends
    rw [List.map_map]
    exact fun hkey ↦ hmem (by simpa using hkey)

theorem total_remove {w : ∀ _ : Hash, Entry → ℕ} {hash : Hash} {e : Entry}
    (h : m.txs.lookup hash = some e) : total w (m.remove hash).txs + w hash e = total w m.txs := by
  have herase := total_erase (w := w) m.txs hash
  rw [weightAt_of_lookup h] at herase
  rw [← herase, remove, h]

theorem totalSize_remove {hash : Hash} {e : Entry} (h : m.txs.lookup hash = some e) :
    (m.remove hash).totalSize + (serializeTransaction e.tx).length = m.totalSize :=
  total_remove h

theorem totalSize_remove_le (m : Mempool) (hash : Hash) :
    (m.remove hash).totalSize ≤ m.totalSize := by
  cases hlookup : m.txs.lookup hash with
  | none => rw [remove_of_none hlookup]
  | some e =>
    have htotal := totalSize_remove hlookup
    omega

theorem bytes_remove {hash : Hash} {e : Entry} (h : m.txs.lookup hash = some e) :
    (m.remove hash).bytes = m.bytes - e.size := by
  rw [remove, h]

/-- No outpoint is spent by two entries. -/
theorem Consistent.disjoint (h : m.Consistent) {hash hash' : Hash} {e e' : Entry}
    {outpoint : Outpoint} (he : m.txs.lookup hash = some e) (he' : m.txs.lookup hash' = some e')
    (hmem : outpoint ∈ e.tx.spent) (hmem' : outpoint ∈ e'.tx.spent) : hash = hash' := by
  have hspends := h.spends.mpr ⟨e, he, hmem⟩
  rw [h.spends.mpr ⟨e', he', hmem'⟩] at hspends
  exact (Option.some.inj hspends).symm

/-- Taking an entry away keeps the forms of the pool in agreement. -/
theorem Consistent.remove (h : m.Consistent) (hash : Hash) : (m.remove hash).Consistent := by
  cases hlookup : m.txs.lookup hash with
  | none =>
    rw [remove_of_none hlookup]
    exact h
  | some e =>
    refine ⟨fun he ↦ h.keyed (lookup_txs_of_remove he).2,
      fun he ↦ h.size (lookup_txs_of_remove he).2, fun he ↦ h.fee (lookup_txs_of_remove he).2,
      fun he ↦ h.nodup (lookup_txs_of_remove he).2,
      ?_, ?_⟩
    · intro outpoint hash'
      rw [lookup_spends_remove hlookup]
      constructor
      · intro hspends
        split_ifs at hspends with hmem
        obtain ⟨e', he', hmem'⟩ := h.spends.mp hspends
        refine ⟨e', ?_, hmem'⟩
        rw [lookup_txs_remove, if_neg, he']
        rintro rfl
        cases hlookup.symm.trans he'
        exact hmem hmem'
      · rintro ⟨e', he', hmem'⟩
        obtain ⟨hne, he'⟩ := lookup_txs_of_remove he'
        rw [if_neg, h.spends.mpr ⟨e', he', hmem'⟩]
        exact fun hmem ↦ hne (h.disjoint he' hlookup hmem' hmem)
    · rw [bytes_remove hlookup, h.bytes, h.size hlookup, ← totalSize_remove hlookup,
        Int64.ofNat_add, Int64.add_sub_cancel]

/-- A pool of which entries have been taken away. -/
structure Within (m m' : Mempool) : Prop where
  txs : ∀ {hash e}, m'.txs.lookup hash = some e → m.txs.lookup hash = some e
  maxBytes : m'.maxBytes = m.maxBytes

theorem Within.refl (m : Mempool) : Within m m := ⟨id, rfl⟩

theorem Within.trans {m₁ m₂ m₃ : Mempool} (h : Within m₁ m₂) (h' : Within m₂ m₃) : Within m₁ m₃ :=
  ⟨fun he ↦ h.txs (h'.txs he), h'.maxBytes.trans h.maxBytes⟩

theorem within_remove (m : Mempool) (hash : Hash) : Within m (m.remove hash) where
  txs he := (lookup_txs_of_remove he).2
  maxBytes := by
    rw [remove]
    split <;> rfl

/-- `RemoveMinedBlock` keeps what every removal keeps. -/
theorem removeMinedBlock_keeps {P : Mempool → Prop} (hremove : ∀ m hash, P m → P (m.remove hash))
    (b : Block) (h : P m) : P (m.removeMinedBlock b) := by
  rw [Mempool.removeMinedBlock]
  induction b.transactions.toList generalizing m with
  | nil => exact h
  | cons t txs ih =>
    rw [List.foldl_cons]
    split_ifs
    · exact ih h
    · exact ih (hremove m t.hash h)

theorem Consistent.removeMinedBlock (h : m.Consistent) (b : Block) :
    (m.removeMinedBlock b).Consistent :=
  removeMinedBlock_keeps (fun _ hash hm ↦ hm.remove hash) b h

/-- An entry that `RemoveMinedBlock` leaves was there before, and is none of the block. -/
theorem lookup_txs_of_removeMinedBlock {b : Block} {hash : Hash} {e : Entry}
    (h : (m.removeMinedBlock b).txs.lookup hash = some e) :
    m.txs.lookup hash = some e ∧
      ∀ t ∈ b.transactions.toList, t.isCoinbase = false → t.hash ≠ hash := by
  rw [Mempool.removeMinedBlock] at h
  generalize b.transactions.toList = txs at h ⊢
  induction txs generalizing m with
  | nil => exact ⟨h, List.forall_mem_nil _⟩
  | cons t txs ih =>
    rw [List.foldl_cons] at h
    obtain ⟨hlookup, hrest⟩ := ih h
    split_ifs at hlookup with hcoinbase
    · exact ⟨hlookup, List.forall_mem_cons.mpr ⟨fun hno ↦ absurd (hcoinbase.symm.trans hno) nofun,
        hrest⟩⟩
    · obtain ⟨hne, hlookup'⟩ := lookup_txs_of_remove hlookup
      exact ⟨hlookup', List.forall_mem_cons.mpr ⟨fun _ heq ↦ hne heq.symm, hrest⟩⟩

/-! ### Snapshots -/

theorem mem_snapshot {txs : List Transaction} (h : m.IsSnapshot txs) {t : Transaction} :
    t ∈ txs ↔ ∃ hash e, m.txs.lookup hash = some e ∧ e.tx = t := by
  rw [← Multiset.mem_coe, h, Multiset.mem_map]
  constructor
  · rintro ⟨⟨hash, e⟩, hmem, rfl⟩
    exact ⟨hash, e, Finmap.lookup_eq_some_iff.mpr hmem, rfl⟩
  · rintro ⟨hash, e, he, rfl⟩
    exact ⟨⟨hash, e⟩, Finmap.lookup_eq_some_iff.mp he, rfl⟩

/-- The transactions of a snapshot spend nothing twice. -/
theorem Consistent.nodup_snapshot (h : m.Consistent) {txs : List Transaction}
    (hsnapshot : m.IsSnapshot txs) : (txs.flatMap Transaction.spent).Nodup := by
  obtain ⟨entries, hentries⟩ := Quot.exists_rep m.txs.entries
  have hlookup : ∀ entry ∈ entries, m.txs.lookup entry.1 = some entry.2 := by
    intro entry hmem
    refine Finmap.lookup_eq_some_iff.mpr ?_
    rw [← hentries]
    exact hmem
  have hkeys : (entries.map Sigma.fst).Nodup := by
    have hnodup := Multiset.nodup_keys.mpr m.txs.nodupKeys
    rw [← hentries] at hnodup
    exact hnodup
  have hperm : txs.Perm (entries.map fun entry ↦ entry.2.tx) := by
    rw [← Multiset.coe_eq_coe, hsnapshot, ← hentries]
    rfl
  rw [(hperm.flatMap_right _).nodup_iff, List.flatMap_map, List.nodup_flatMap]
  refine ⟨fun entry hmem ↦ h.nodup (hlookup entry hmem), ?_⟩
  refine (List.pairwise_map.mp hkeys).imp_of_mem fun hmem hmem' hne ↦ ?_
  intro outpoint hspent hspent'
  exact hne (h.disjoint (hlookup _ hmem) (hlookup _ hmem') hspent hspent')

/-- A block with all transactions of a pool empties it. -/
theorem Consistent.removeMinedBlock_all (h : m.Consistent) {b : Block}
    (hall : ∀ hash e, m.txs.lookup hash = some e →
      e.tx ∈ b.transactions.toList ∧ e.tx.isCoinbase = false) :
    (m.removeMinedBlock b).txs = ∅ ∧ (m.removeMinedBlock b).spends = ∅ ∧
      (m.removeMinedBlock b).bytes = 0 := by
  have hleft := h.removeMinedBlock b
  have hnone : ∀ hash, (m.removeMinedBlock b).txs.lookup hash = none := by
    intro hash
    by_contra hsome
    obtain ⟨e, he⟩ := Option.ne_none_iff_exists'.mp hsome
    obtain ⟨hbefore, hother⟩ := lookup_txs_of_removeMinedBlock he
    obtain ⟨hmem, hcoinbase⟩ := hall hash e hbefore
    exact hother e.tx hmem hcoinbase (h.keyed hbefore)
  have htxs : (m.removeMinedBlock b).txs = ∅ := Finmap.ext_lookup hnone
  refine ⟨htxs, Finmap.ext_lookup fun outpoint ↦ ?_, ?_⟩
  · by_contra hsome
    obtain ⟨hash, hspends⟩ := Option.ne_none_iff_exists'.mp hsome
    obtain ⟨e, he, -⟩ := hleft.spends.mp hspends
    rw [hnone hash] at he
    cases he
  · rw [hleft.bytes, totalSize, htxs]
    rfl

/-! ### Evicting -/

theorem mem_of_foldl_lower {list : List (Σ _ : Hash, Entry)} {low : Option (Σ _ : Hash, Entry)}
    {entry : Σ _ : Hash, Entry} (h : list.foldl lower low = some entry) :
    low = some entry ∨ entry ∈ list := by
  induction list generalizing low with
  | nil => exact Or.inl h
  | cons first list ih =>
    rcases ih h with hlower | hmem
    · unfold lower at hlower
      split at hlower
      · exact Or.inr (List.mem_cons.mpr (Or.inl (Option.some.inj hlower).symm))
      · split_ifs at hlower
        · exact Or.inr (List.mem_cons.mpr (Or.inl (Option.some.inj hlower).symm))
        · exact Or.inl hlower
    · exact Or.inr (List.mem_cons_of_mem first hmem)

theorem foldl_lower_ne_none {list : List (Σ _ : Hash, Entry)} {low : Σ _ : Hash, Entry} :
    list.foldl lower (some low) ≠ none := by
  induction list generalizing low with
  | nil => exact nofun
  | cons first list ih =>
    rw [List.foldl_cons, lower]
    split_ifs
    · exact ih
    · exact ih

/-- An eviction takes one entry away. -/
theorem evictLowest_eq_some {order : MapOrder fun _ : Hash ↦ Entry} {m' : Mempool}
    (h : m.evictLowest order = some m') :
    ∃ hash e, m.txs.lookup hash = some e ∧ m' = m.remove hash := by
  obtain ⟨low, hlow, rfl⟩ := Option.map_eq_some_iff.mp h
  refine ⟨low.1, low.2, order.mem_list.mp ?_, rfl⟩
  exact (mem_of_foldl_lower hlow).resolve_left nofun

theorem eq_nil_of_foldl_lower {list : List (Σ _ : Hash, Entry)}
    (h : list.foldl lower none = none) : list = [] := by
  cases list with
  | nil => rfl
  | cons first list => exact absurd h foldl_lower_ne_none

/-- There is no eviction only if there is no entry. -/
theorem evictLowest_eq_none {order : MapOrder fun _ : Hash ↦ Entry}
    (h : m.evictLowest order = none) : m.txs.entries = 0 := by
  rw [← order.list_eq, eq_nil_of_foldl_lower (Option.map_eq_none_iff.mp h)]
  rfl

theorem card_remove {hash : Hash} {e : Entry} (h : m.txs.lookup hash = some e) :
    (m.remove hash).txs.entries.card + 1 = m.txs.entries.card := by
  have hcard (txs : Finmap fun _ : Hash ↦ Entry) : total (fun _ _ ↦ 1) txs = txs.entries.card := by
    rw [total, Multiset.map_const', Multiset.sum_replicate, Nat.nsmul_eq_mul, Nat.mul_one]
  rw [← hcard, ← hcard]
  exact total_remove h

/-- Making room keeps what every removal keeps. -/
theorem makeRoom_keeps {P : Mempool → Prop} (hremove : ∀ m hash, P m → P (m.remove hash))
    (orders : ℕ → MapOrder fun _ : Hash ↦ Entry) (size : Int64) (rounds : ℕ) (h : P m) :
    P (makeRoom orders size rounds m) := by
  induction rounds generalizing m with
  | zero => exact h
  | succ rounds ih =>
    rw [makeRoom]
    split_ifs with hfull
    · cases hevict : m.evictLowest (orders rounds) with
      | none => exact h
      | some m' =>
        obtain ⟨hash, e, -, rfl⟩ := evictLowest_eq_some hevict
        exact ih (hremove m hash h)
    · exact h

theorem within_makeRoom (m : Mempool) (orders : ℕ → MapOrder fun _ : Hash ↦ Entry) (size : Int64)
    (rounds : ℕ) : Within m (makeRoom orders size rounds m) :=
  makeRoom_keeps (fun m' hash h ↦ h.trans (within_remove m' hash)) orders size rounds (.refl m)

/-- With as many rounds as there are entries the loop ends by itself: there is room, or nothing is
left to evict. -/
theorem makeRoom_done (orders : ℕ → MapOrder fun _ : Hash ↦ Entry) (size : Int64) {rounds : ℕ}
    (hrounds : m.txs.entries.card ≤ rounds) :
    (makeRoom orders size rounds m).bytes + size ≤ m.maxBytes ∨
      (makeRoom orders size rounds m).txs.entries = 0 := by
  induction rounds generalizing m with
  | zero => exact Or.inr (Multiset.card_eq_zero.mp (Nat.le_zero.mp hrounds))
  | succ rounds ih =>
    rw [makeRoom]
    split_ifs with hfull
    · cases hevict : m.evictLowest (orders rounds) with
      | none => exact Or.inr (evictLowest_eq_none hevict)
      | some m' =>
        obtain ⟨hash, e, he, rfl⟩ := evictLowest_eq_some hevict
        have hcard := card_remove he
        rw [← (within_remove m hash).maxBytes]
        exact ih (by omega)
    · exact Or.inl (Int64.not_lt.mp hfull)

/-! ### Adding -/

theorem lookup_spends_insert (m : Mempool) (t : Transaction) (fee : UInt64) (size : Int64)
    (outpoint : Outpoint) : (m.insert t fee size).spends.lookup outpoint =
      if outpoint ∈ t.spent then some t.hash else m.spends.lookup outpoint := by
  have hspends : (m.insert t fee size).spends =
      t.spent.foldl (fun spends outpoint ↦ spends.insert outpoint t.hash) m.spends := by
    rw [Mempool.insert, Transaction.spent, List.foldl_map]
  rw [hspends]
  generalize t.spent = spent
  induction spent using List.reverseRecOn with
  | nil => rfl
  | append_singleton spent last ih =>
    rw [List.foldl_append, List.foldl_cons, List.foldl_nil]
    by_cases heq : outpoint = last
    · rw [heq, Finmap.lookup_insert, if_pos (by simp)]
    · rw [Finmap.lookup_insert_of_ne _ heq, ih]
      simp [heq]

theorem lookup_txs_insert_cases {t : Transaction} {fee : UInt64} {size : Int64} {hash : Hash}
    {e : Entry} (h : (m.insert t fee size).txs.lookup hash = some e) :
    hash = t.hash ∧ e = ⟨t, fee, size⟩ ∨ hash ≠ t.hash ∧ m.txs.lookup hash = some e := by
  by_cases heq : hash = t.hash
  · rw [heq] at h
    exact Or.inl ⟨heq, (Option.some.inj ((Finmap.lookup_insert _).symm.trans h)).symm⟩
  · exact Or.inr ⟨heq, (Finmap.lookup_insert_of_ne _ heq).symm.trans h⟩

/-- A transaction that spends nothing in the index is added in all forms. -/
theorem Consistent.insert (h : m.Consistent) {t : Transaction} {fee : UInt64}
    (hnew : m.txs.lookup t.hash = none) (hfee : minFee t ≤ fee) (hnodup : t.spent.Nodup)
    (hfree : ∀ outpoint ∈ t.spent, m.spends.lookup outpoint = none) :
    (m.insert t fee (Int64.ofNat (serializeTransaction t).length)).Consistent := by
  refine ⟨?_, ?_, ?_, ?_, ?_, ?_⟩
  · intro hash e he
    rcases lookup_txs_insert_cases he with ⟨rfl, rfl⟩ | ⟨-, he⟩
    · rfl
    · exact h.keyed he
  · intro hash e he
    rcases lookup_txs_insert_cases he with ⟨rfl, rfl⟩ | ⟨-, he⟩
    · rfl
    · exact h.size he
  · intro hash e he
    rcases lookup_txs_insert_cases he with ⟨rfl, rfl⟩ | ⟨-, he⟩
    · rw [Int64.toUInt64_ofNat']
      exact hfee
    · exact h.fee he
  · intro hash e he
    rcases lookup_txs_insert_cases he with ⟨rfl, rfl⟩ | ⟨-, he⟩
    · exact hnodup
    · exact h.nodup he
  · intro outpoint hash
    rw [lookup_spends_insert]
    constructor
    · intro hspends
      split_ifs at hspends with hmem
      · cases hspends
        exact ⟨_, Finmap.lookup_insert _, hmem⟩
      · obtain ⟨e, he, hmem'⟩ := h.spends.mp hspends
        refine ⟨e, ?_, hmem'⟩
        refine (Finmap.lookup_insert_of_ne _ ?_).trans he
        rintro rfl
        rw [hnew] at he
        cases he
    · rintro ⟨e, he, hmem⟩
      rcases lookup_txs_insert_cases he with ⟨rfl, rfl⟩ | ⟨-, he⟩
      · rw [if_pos hmem]
      · have hspends := h.spends.mpr ⟨e, he, hmem⟩
        rw [if_neg, hspends]
        intro hmem'
        rw [hfree outpoint hmem'] at hspends
        cases hspends
  · have herase := total_erase (w := fun _ e ↦ (serializeTransaction e.tx).length) m.txs t.hash
    rw [weightAt_of_none hnew, Nat.add_zero] at herase
    have htotal : (m.insert t fee (Int64.ofNat (serializeTransaction t).length)).totalSize =
        (serializeTransaction t).length + m.totalSize := by
      rw [totalSize, totalSize, Mempool.insert, total_insert, herase]
    rw [htotal, Nat.add_comm, Int64.ofNat_add, ← h.bytes]
    rfl

section Add

variable {S : Signature} {σ : Type} {exec : Machine S σ} {s s' : σ} {utxos : UTXOReader S}
  {verifier : Option SignatureVerifier} {orders : AddOrders} {t : Transaction} {m' : Mempool}

/-- What `Add` has done when it succeeds. -/
theorem add_ok (h : (m.add orders t utxos verifier).run exec s = (.ok m', s')) :
    ∃ r, (validateTransaction t utxos verifier
        ((orders.spends.list m.spends).map Sigma.fst)).run exec s = (.ok r, s') ∧
      m' = (m.makeRoom orders.txs (Int64.ofNat (serializeTransaction t).length)
        m.txs.entries.card).insert t r.1 (Int64.ofNat (serializeTransaction t).length) := by
  obtain ⟨r, mid, hvalidate, hrest⟩ := Prog.run_bind_eq_ok h
  cases hrest
  exact ⟨r, hvalidate, rfl⟩

/-- A transaction that passes is added. -/
theorem run_add {r : UInt64 × List Outpoint}
    (h : (validateTransaction t utxos verifier
      ((orders.spends.list m.spends).map Sigma.fst)).run exec s = (.ok r, s')) :
    (m.add orders t utxos verifier).run exec s =
      (.ok ((m.makeRoom orders.txs (Int64.ofNat (serializeTransaction t).length)
        m.txs.entries.card).insert t r.1 (Int64.ofNat (serializeTransaction t).length)), s') := by
  rw [add, Prog.run_bind_of_ok h]
  rfl

theorem mem_pending {outpoint : Outpoint} :
    outpoint ∈ (orders.spends.list m.spends).map Sigma.fst ↔
      ∃ hash, m.spends.lookup outpoint = some hash := by
  constructor
  · intro h
    obtain ⟨entry, hentry, rfl⟩ := List.mem_map.mp h
    exact ⟨entry.2, orders.spends.mem_list.mp hentry⟩
  · rintro ⟨hash, h⟩
    exact List.mem_map.mpr ⟨⟨outpoint, hash⟩, orders.spends.mem_list.mpr h, rfl⟩

/-- A spendable transaction is added to a new pool. -/
theorem run_add_new {view : View} (hview : ReadsView exec s utxos view)
    (h : Spendable view verifier 0xffffffffffffffff t) (maxBytes : Int64) (orders : AddOrders) :
    ∃ m' e, ((new maxBytes).add orders t utxos verifier).run exec s = (.ok m', s) ∧
      m'.txs = (∅ : Finmap fun _ : Hash ↦ Entry).insert t.hash e ∧ e.tx = t := by
  have hpending : ∀ outpoint ∈ t.spent,
      outpoint ∉ (orders.spends.list (new maxBytes).spends).map Sigma.fst := by
    intro outpoint _ hold
    obtain ⟨hash, hlookup⟩ := mem_pending.mp hold
    cases hlookup
  obtain ⟨fee, hvalidate⟩ := h.passes hview hpending
  exact ⟨_, _, run_add hvalidate, rfl, rfl⟩

/-- The outpoints that an added transaction spends are distinct and not in the index, and there is
at least one. -/
theorem spent_of_add (h : (m.add orders t utxos verifier).run exec s = (.ok m', s')) :
    t.spent ≠ [] ∧ t.spent.Nodup ∧ ∀ outpoint ∈ t.spent, m.spends.lookup outpoint = none := by
  obtain ⟨r, hvalidate, -⟩ := add_ok h
  obtain ⟨-, hinputs, -, hlist, hnodup⟩ := validateTransactionAt_spent hvalidate
  have hall := hnodup (orders.spends.nodup_keys m.spends)
  rw [hlist, List.nodup_append] at hall
  refine ⟨fun hnil ↦ hinputs (List.map_eq_nil_iff.mp hnil), List.nodup_reverse.mp hall.1, ?_⟩
  intro outpoint hmem
  by_contra hsome
  obtain ⟨hash, hlookup⟩ := Option.ne_none_iff_exists'.mp hsome
  exact hall.2.2 outpoint (List.mem_reverse.mpr hmem) outpoint (mem_pending.mpr ⟨hash, hlookup⟩) rfl

/-- `Add` keeps the forms of the pool in agreement, if no other transaction of the pool has the hash
of the new one. The new one itself is not in the pool: its outpoints would be in the index. -/
theorem Consistent.add (hm : m.Consistent)
    (hdistinct : ∀ e, m.txs.lookup t.hash = some e → e.tx = t)
    (h : (m.add orders t utxos verifier).run exec s = (.ok m', s')) : m'.Consistent := by
  obtain ⟨hne, hnodup, hfree⟩ := spent_of_add h
  obtain ⟨r, hvalidate, rfl⟩ := add_ok h
  obtain ⟨-, -, hfee, -⟩ := validateTransactionAt_spent hvalidate
  have hroom := makeRoom_keeps (fun _ hash h ↦ h.remove hash) orders.txs
    (Int64.ofNat (serializeTransaction t).length) m.txs.entries.card hm
  have hwithin := within_makeRoom m orders.txs (Int64.ofNat (serializeTransaction t).length)
    m.txs.entries.card
  refine hroom.insert ?_ hfee hnodup fun outpoint hmem ↦ ?_
  · by_contra hsome
    obtain ⟨e, he⟩ := Option.ne_none_iff_exists'.mp hsome
    have hold := hwithin.txs he
    obtain ⟨outpoint, hmem⟩ := List.exists_mem_of_ne_nil _ hne
    have hspends := hm.spends.mpr ⟨e, hold, (hdistinct e hold).symm ▸ hmem⟩
    rw [hfree outpoint hmem] at hspends
    cases hspends
  · by_contra hsome
    obtain ⟨hash, hlookup⟩ := Option.ne_none_iff_exists'.mp hsome
    obtain ⟨e, he, hmem'⟩ := hroom.spends.mp hlookup
    have hspends := hm.spends.mpr ⟨e, hwithin.txs he, hmem'⟩
    rw [hfree outpoint hmem] at hspends
    cases hspends

end Add

/-! ### Sequences of calls -/

/-- One call on the pool, with any reader of unspent outputs on any machine, any verifier and any
orders of the loops. An `Add` that fails returns before it changes anything. A transaction that is
added has another hash than the other ones in the pool. -/
inductive PoolCall : Mempool → Mempool → Prop where
  | add {S : Signature} {σ : Type} {exec : Machine S σ} {s s' : σ} {utxos : UTXOReader S}
      {verifier : Option SignatureVerifier} {orders : AddOrders} {t : Transaction} {m m' : Mempool}
      (distinct : ∀ e, m.txs.lookup t.hash = some e → e.tx = t)
      (returns : (m.add orders t utxos verifier).run exec s = (.ok m', s')) : PoolCall m m'
  | addFails {S : Signature} {σ : Type} {exec : Machine S σ} {s s' : σ} {utxos : UTXOReader S}
      {verifier : Option SignatureVerifier} {orders : AddOrders} {t : Transaction} {m : Mempool}
      {halt : Halt} (returns : (m.add orders t utxos verifier).run exec s = (.error halt, s')) :
      PoolCall m m
  | remove {m : Mempool} (hash : Hash) : PoolCall m (m.remove hash)
  | removeMinedBlock {m : Mempool} (b : Block) : PoolCall m (m.removeMinedBlock b)

theorem Consistent.call {m m' : Mempool} (h : m.Consistent) (hcall : PoolCall m m') :
    m'.Consistent := by
  cases hcall with
  | add distinct returns => exact h.add distinct returns
  | addFails returns => exact h
  | remove hash => exact h.remove hash
  | removeMinedBlock b => exact h.removeMinedBlock b

/-- The counter is exact where the sum of the sizes fits `int64`. -/
theorem Consistent.toInt_bytes (h : m.Consistent) (hfits : m.totalSize < 2 ^ 63) :
    m.bytes.toInt = m.totalSize := by
  rw [h.bytes, Int64.toInt_ofNat_of_lt hfits]

/-- After any sequence of calls on a new pool its three forms agree. -/
theorem consistent_of_calls {maxBytes : Int64} {m : Mempool}
    (h : Relation.ReflTransGen PoolCall (new maxBytes) m) : m.Consistent := by
  induction h with
  | refl => exact consistent_new maxBytes
  | tail _ hcall ih => exact ih.call hcall

/-- After any sequence of calls on a new pool its three forms agree, no outpoint is spent by two
entries, and the bytes are the sum of the sizes, exactly where that fits `int64`. -/
theorem calls_consistent {maxBytes : Int64} {m : Mempool}
    (h : Relation.ReflTransGen PoolCall (new maxBytes) m) :
    m.Consistent ∧
      (∀ {hash hash' e e' outpoint}, m.txs.lookup hash = some e → m.txs.lookup hash' = some e' →
        outpoint ∈ e.tx.spent → outpoint ∈ e'.tx.spent → hash = hash') ∧
      (m.totalSize < 2 ^ 63 → m.bytes.toInt = m.totalSize) := by
  have hconsistent := consistent_of_calls h
  exact ⟨hconsistent, fun he he' hmem hmem' ↦ hconsistent.disjoint he he' hmem hmem',
    hconsistent.toInt_bytes⟩

/-- Some orders of the loops. -/
noncomputable def someOrders : AddOrders :=
  ⟨⟨fun m ↦ m.entries.toList, fun m ↦ Multiset.coe_toList m.entries⟩,
    fun _ ↦ ⟨fun m ↦ m.entries.toList, fun m ↦ Multiset.coe_toList m.entries⟩⟩

/-- A record of the same amount for every outpoint. -/
def coin (outpoint : Outpoint) : UTXO where
  txHash := outpoint.hash
  outputIdx := outpoint.index
  amount := 1000
  script := .ofList []
  height := 0
  coinbase := false

theorem readsView_coin : ReadsView noCalls () (fun hash idx ↦ pure (.ok (coin ⟨hash, idx⟩)))
    fun outpoint ↦ some (coin outpoint) :=
  fun _ _ ↦ ⟨_, rfl, rfl⟩

namespace Sample

/-- A transaction that moves one coin, leaving a fee. -/
def offer (idx : UInt32) (amount : UInt64) : Transaction where
  version := 1
  inputs := .ofList [{
    prevTxHash := Bytes32.zero
    outputIdx := idx
    signature := .ofList []
    publicKey := .ofList [] }]
  outputs := .ofList [{ amount := amount, lockingScript := .ofList [] }]
  lockTime := 0

theorem length_offer (idx : UInt32) (amount : UInt64) :
    (serializeTransaction (offer idx amount)).length = 96 := rfl

theorem hash_offer_ne : (offer 0 900).hash ≠ (offer 1 1).hash := by
  intro heq
  have hlist := congrArg Bytes32.toList heq
  rw [Transaction.hash, Transaction.hash, toList_doubleSha256, toList_doubleSha256] at hlist
  revert hlist
  decide +kernel

theorem fee_offer (idx : UInt32) (amount : UInt64) :
    View.fee (fun outpoint ↦ some (coin outpoint)) (offer idx amount) = 1000 - amount.toNat := rfl

theorem toNat_rest {amount : UInt64} (hle : amount.toNat ≤ 904) :
    (1000 - amount).toNat = 1000 - amount.toNat := by
  refine UInt64.toNat_sub_of_le _ _ (UInt64.le_iff_toNat_le.mpr ?_)
  change amount.toNat ≤ 1000
  omega

theorem spendable_offer {idx : UInt32} {amount : UInt64} (hidx : idx ≠ 0xffffffff)
    (hpos : amount ≠ 0) (hle : amount.toNat ≤ 904) :
    Spendable (fun outpoint ↦ some (coin outpoint)) none 0xffffffffffffffff (offer idx amount) where
  noCoinbase := decide_eq_false fun h ↦ hidx h.2
  nodup := List.nodup_singleton _
  inputs _ _ := ⟨_, rfl, fun h ↦ Bool.false_ne_true h.1, Bool.false_ne_true⟩
  noDust := List.forall_mem_singleton.mpr hpos
  fits := by
    change 1000 < 2 ^ 64
    decide
  covered := by
    change amount.toNat + 0 ≤ 1000
    omega
  minFee_le := by
    rw [fee_offer]
    change 96 ≤ 1000 - amount.toNat
    omega

/-- Where its coin is not pending, an offer passes. -/
theorem run_validateTransaction_offer {idx : UInt32} {amount : UInt64} (hidx : idx ≠ 0xffffffff)
    (hpos : amount ≠ 0) (hle : amount.toNat ≤ 904) {pending : List Outpoint}
    (hfree : ⟨Bytes32.zero, idx⟩ ∉ pending) :
    ∃ spent, (validateTransaction (offer idx amount)
      (fun hash idx ↦ pure (.ok (coin ⟨hash, idx⟩))) none pending).run noCalls () =
        (.ok (1000 - amount, spent), ()) := by
  refine ⟨_, (validateTransactionAt_eq_ok_iff readsView_coin).mpr
    ⟨rfl, spendable_offer hidx hpos hle, List.forall_mem_singleton.mpr hfree, ?_, rfl⟩⟩
  rw [fee_offer, toNat_rest hle]

theorem makeRoom_new (maxBytes size : Int64) (orders : ℕ → MapOrder fun _ : Hash ↦ Entry) :
    (new maxBytes).makeRoom orders size (new maxBytes).txs.entries.card = new maxBytes := rfl

/-- A pool for 96 bytes with one offer. -/
def offered (amount : UInt64) : Mempool :=
  (new 96).insert (offer 0 amount) (1000 - amount)
    (Int64.ofNat (serializeTransaction (offer 0 amount)).length)

theorem run_add_offered {amount : UInt64} (hpos : amount ≠ 0) (hle : amount.toNat ≤ 904) :
    ((new 96).add someOrders (offer 0 amount) (fun hash idx ↦ pure (.ok (coin ⟨hash, idx⟩)))
      none).run noCalls () = (.ok (offered amount), ()) := by
  have hfree : (⟨Bytes32.zero, 0⟩ : Outpoint) ∉
      (someOrders.spends.list (new 96).spends).map Sigma.fst := by
    intro hold
    obtain ⟨hash, hlookup⟩ := mem_pending.mp hold
    cases hlookup
  obtain ⟨spent, hpasses⟩ := run_validateTransaction_offer (by decide) hpos hle hfree
  have hadd := run_add hpasses
  rw [makeRoom_new] at hadd
  exact hadd

theorem call_offered {amount : UInt64} (hpos : amount ≠ 0) (hle : amount.toNat ≤ 904) :
    PoolCall (new 96) (offered amount) :=
  .add (fun _ hold ↦ by cases hold) (run_add_offered hpos hle)

/-- An offer of another coin passes. -/
theorem passes_offered (amount : UInt64) {amount' : UInt64} (hpos : amount' ≠ 0)
    (hle : amount'.toNat ≤ 904) :
    ∃ spent, (validateTransaction (offer 1 amount') (fun hash idx ↦ pure (.ok (coin ⟨hash, idx⟩)))
      none ((someOrders.spends.list (offered amount).spends).map Sigma.fst)).run noCalls () =
        (.ok (1000 - amount', spent), ()) := by
  refine run_validateTransaction_offer (by decide) hpos hle fun hold ↦ ?_
  obtain ⟨hash, hlookup⟩ := mem_pending.mp hold
  rw [offered, lookup_spends_insert, if_neg] at hlookup
  · cases hlookup
  · intro hmem
    cases List.mem_singleton.mp hmem

theorem hash_of_lookup_offered {amount : UInt64} {hash : Hash} {e : Entry}
    (h : (offered amount).txs.lookup hash = some e) : hash = (offer 0 amount).hash := by
  rcases lookup_txs_insert_cases h with ⟨rfl, -⟩ | ⟨-, he⟩
  · rfl
  · cases he

/-- There is no room for another offer until the first one is evicted. -/
theorem makeRoom_offered (amount : UInt64) (orders : ℕ → MapOrder fun _ : Hash ↦ Entry) :
    (offered amount).makeRoom orders 96 1 = (offered amount).remove (offer 0 amount).hash := by
  have hfull : (offered amount).bytes + 96 > (offered amount).maxBytes := by
    change (96 : Int64) < 0 + Int64.ofNat 96 + 96
    decide
  rw [makeRoom, if_pos hfull]
  cases hevict : (offered amount).evictLowest (orders 0) with
  | none => exact absurd (evictLowest_eq_none hevict) (Multiset.singleton_ne_zero _)
  | some m =>
    obtain ⟨low, e, he, rfl⟩ := evictLowest_eq_some hevict
    rw [hash_of_lookup_offered he]
    rfl

/-- The second offer is added, and the first one is evicted for it. -/
theorem exists_evicted :
    ∃ m, ((offered 900).add someOrders (offer 1 1) (fun hash idx ↦ pure (.ok (coin ⟨hash, idx⟩)))
        none).run noCalls () = (.ok m, ()) ∧
      m.txs.lookup (offer 1 1).hash ≠ none ∧ m.txs.lookup (offer 0 900).hash = none := by
  obtain ⟨spent, hpasses⟩ := passes_offered 900 (by decide : (1 : UInt64) ≠ 0) (by decide)
  refine ⟨_, run_add hpasses, ?_, ?_⟩
  · rw [Mempool.insert, Finmap.lookup_insert]
    exact Option.some_ne_none _
  · have hroom := makeRoom_offered 900 someOrders.txs
    rw [Mempool.insert, Finmap.lookup_insert_of_ne _ hash_offer_ne]
    change ((offered 900).makeRoom someOrders.txs 96 1).txs.lookup _ = none
    rw [hroom, lookup_txs_remove, if_pos rfl]

/-- An offer of the same coin is refused. -/
theorem exists_refused :
    ∃ halt, ((offered 900).add someOrders (offer 0 1) (fun hash idx ↦ pure (.ok (coin ⟨hash, idx⟩)))
      none).run noCalls () = (.error halt, ()) := by
  rcases hrun : ((offered 900).add someOrders (offer 0 1)
    (fun hash idx ↦ pure (.ok (coin ⟨hash, idx⟩))) none).run noCalls () with ⟨halt | m, ⟨⟩⟩
  · exact ⟨halt, rfl⟩
  · have hfree := (spent_of_add hrun).2.2 ⟨Bytes32.zero, 0⟩ (List.mem_singleton_self _)
    have hmem : (⟨Bytes32.zero, 0⟩ : Outpoint) ∈ (offer 0 900).spent := List.mem_singleton_self _
    rw [offered, lookup_spends_insert, if_pos hmem] at hfree
    cases hfree

end Sample

/-- An offer is added, one of the same coin is refused, and one of another coin is added, for which
the first one is evicted. -/
theorem calls_consistent_offers :
    ∃ halt m, ((Sample.offered 900).add someOrders (Sample.offer 0 1)
        (fun hash idx ↦ pure (.ok (coin ⟨hash, idx⟩))) none).run noCalls () = (.error halt, ()) ∧
      ((Sample.offered 900).add someOrders (Sample.offer 1 1)
        (fun hash idx ↦ pure (.ok (coin ⟨hash, idx⟩))) none).run noCalls () = (.ok m, ()) ∧
      Relation.ReflTransGen PoolCall (new 96) m ∧
      m.txs.lookup (Sample.offer 1 1).hash ≠ none ∧
      m.txs.lookup (Sample.offer 0 900).hash = none ∧ m.Consistent := by
  obtain ⟨halt, hrefused⟩ := Sample.exists_refused
  obtain ⟨m, hadd, hin, hout⟩ := Sample.exists_evicted
  have hfirst : PoolCall (new 96) (Sample.offered 900) :=
    Sample.call_offered (by decide) (by decide)
  have hdistinct : ∀ e, (Sample.offered 900).txs.lookup (Sample.offer 1 1).hash = some e →
      e.tx = Sample.offer 1 1 :=
    fun _ he ↦ absurd (Sample.hash_of_lookup_offered he).symm Sample.hash_offer_ne
  have hcalls : Relation.ReflTransGen PoolCall (new 96) m :=
    ((Relation.ReflTransGen.single hfirst).tail (.addFails hrefused)).tail (.add hdistinct hadd)
  exact ⟨halt, m, hrefused, hadd, hcalls, hin, hout, (calls_consistent hcalls).1⟩

end Mempool

end NevelCore
