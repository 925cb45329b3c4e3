import NevelCore.Mempool.FeeRate

/-!
# Evictions

`Add` evicts entries until there is room for a new one, or until none is left, and then inserts the
new one in any case. `byteLimit` says what follows for the limit of the pool: it is kept as long as
no transaction that is added is longer than the limit by itself, and the counter does not overflow.

The entries that are evicted are the ones with the lowest fee rates, but they are not compared with
the new one. `evictions_fair_iff` says when none of them pays a higher rate than the new one: if the
entries that do so, with the new one, are within the limit, since then the others are evicted before
any of them (`makeRoom_spares`).
-/

set_option autoImplicit false
set_option relaxedAutoImplicit false

namespace NevelCore

open Foundations

namespace Mempool

variable {m : Mempool}

/-! ### The byte limit -/

/-- The sizes of the entries are exact, and the counter covers them. -/
structure Counted (m : Mempool) : Prop where
  size : ∀ {hash e}, m.txs.lookup hash = some e →
    e.size.toInt = (serializeTransaction e.tx).length
  covered : (m.totalSize : ℤ) ≤ m.bytes.toInt

theorem counted_new (maxBytes : Int64) : Counted (new maxBytes) where
  size h := by cases h
  covered := le_refl 0

theorem toInt_sub_of_le {a b : Int64} (hb : 0 ≤ b.toInt) (hle : b.toInt ≤ a.toInt) :
    (a - b).toInt = a.toInt - b.toInt := by
  have ha := a.toInt_lt
  rw [Int64.toInt_sub, Int.bmod_def]
  omega

theorem toInt_add_of_lt {a b : Int64} (ha : 0 ≤ a.toInt) (hb : 0 ≤ b.toInt)
    (hlt : a.toInt + b.toInt < 2 ^ 63) : (a + b).toInt = a.toInt + b.toInt := by
  rw [Int64.toInt_add, Int.bmod_def]
  omega

theorem Counted.toInt_bytes_remove (h : m.Counted) {hash : Hash} {e : Entry}
    (he : m.txs.lookup hash = some e) :
    (m.remove hash).bytes.toInt = m.bytes.toInt - (serializeTransaction e.tx).length := by
  have hsize := h.size he
  have htotal := totalSize_remove he
  have hcovered := h.covered
  rw [bytes_remove he, toInt_sub_of_le (by omega) (by omega), hsize]

/-- A removal does not raise the counter. -/
theorem Counted.toInt_bytes_remove_le (h : m.Counted) (hash : Hash) :
    (m.remove hash).bytes.toInt ≤ m.bytes.toInt := by
  cases hlookup : m.txs.lookup hash with
  | none => rw [remove_of_none hlookup]
  | some e =>
    rw [h.toInt_bytes_remove hlookup]
    omega

theorem Counted.remove (h : m.Counted) (hash : Hash) : (m.remove hash).Counted := by
  cases hlookup : m.txs.lookup hash with
  | none =>
    rw [remove_of_none hlookup]
    exact h
  | some e =>
    refine ⟨fun he ↦ h.size (lookup_txs_of_remove he).2, ?_⟩
    have htotal := totalSize_remove hlookup
    have hcovered := h.covered
    rw [h.toInt_bytes_remove hlookup]
    omega

/-- Within the limit and counted. -/
structure Limited (maxBytes : Int64) (m : Mempool) : Prop extends Counted m where
  maxBytes_eq : m.maxBytes = maxBytes
  limit : (m.totalSize : ℤ) ≤ maxBytes.toInt

theorem Limited.remove {maxBytes : Int64} (h : m.Limited maxBytes) (hash : Hash) :
    (m.remove hash).Limited maxBytes := by
  refine ⟨h.toCounted.remove hash, (within_remove m hash).maxBytes.trans h.maxBytes_eq, ?_⟩
  have hlimit := h.limit
  have hle := totalSize_remove_le m hash
  omega

/-- The transaction is within the limit, and its size can be added to the counter. -/
def FitsLimit (m : Mempool) (t : Transaction) : Prop :=
  ((serializeTransaction t).length : ℤ) ≤ m.maxBytes.toInt ∧
    m.bytes.toInt + (serializeTransaction t).length < 2 ^ 63

/-- What `Add` leaves of the pool before it inserts a transaction. -/
def roomFor (m : Mempool) (orders : AddOrders) (t : Transaction) : Mempool :=
  m.makeRoom orders.txs (Int64.ofNat (serializeTransaction t).length) m.txs.entries.card

theorem totalSize_insert (m : Mempool) (t : Transaction) (fee : UInt64) (size : Int64) :
    (m.insert t fee size).totalSize =
      (serializeTransaction t).length + total (fun _ e ↦ (serializeTransaction e.tx).length)
        (m.txs.erase t.hash) := by
  rw [totalSize, insert, total_insert]

theorem totalSize_insert_le (m : Mempool) (t : Transaction) (fee : UInt64) (size : Int64) :
    (m.insert t fee size).totalSize ≤ (serializeTransaction t).length + m.totalSize := by
  have herase := total_erase (w := fun _ e ↦ (serializeTransaction e.tx).length) m.txs t.hash
  rw [totalSize_insert, totalSize, ← herase]
  omega

/-- Inserting a transaction for which there is room keeps the limit. -/
theorem Limited.insert {maxBytes : Int64} (h : m.Limited maxBytes) {t : Transaction} {fee : UInt64}
    (hfits : m.FitsLimit t)
    (hroom : m.bytes.toInt + (serializeTransaction t).length ≤ maxBytes.toInt ∨ m.totalSize = 0) :
    (m.insert t fee (Int64.ofNat (serializeTransaction t).length)).Limited maxBytes := by
  obtain ⟨hlength, hcounter⟩ := hfits
  have hcovered := h.covered
  have htotal := totalSize_insert_le m t fee (Int64.ofNat (serializeTransaction t).length)
  have hsize : (Int64.ofNat (serializeTransaction t).length).toInt =
      (serializeTransaction t).length := Int64.toInt_ofNat_of_lt (by omega)
  refine ⟨⟨fun he ↦ ?_, ?_⟩, h.maxBytes_eq, ?_⟩
  · rcases lookup_txs_insert_cases he with ⟨-, rfl⟩ | ⟨-, he⟩
    · exact hsize
    · exact h.size he
  · have hbytes : (m.insert t fee (Int64.ofNat (serializeTransaction t).length)).bytes.toInt =
        m.bytes.toInt + (serializeTransaction t).length := by
      rw [Mempool.insert, toInt_add_of_lt (by omega) (by omega) (by omega), hsize]
    omega
  · rw [h.maxBytes_eq] at hlength
    omega

section Add

variable {S : Signature} {σ : Type} {exec : Machine S σ} {s s' : σ} {utxos : UTXOReader S}
  {verifier : Option SignatureVerifier} {orders : AddOrders} {t : Transaction} {m' : Mempool}

theorem Limited.add {maxBytes : Int64} (h : m.Limited maxBytes) (hfits : m.FitsLimit t)
    (hadd : (m.add orders t utxos verifier).run exec s = (.ok m', s')) : m'.Limited maxBytes := by
  obtain ⟨r, -, rfl⟩ := add_ok hadd
  -- the loop keeps the limit and does not raise the counter
  have hloop : (m.roomFor orders t).Limited maxBytes ∧
      (m.roomFor orders t).bytes.toInt ≤ m.bytes.toInt := by
    refine makeRoom_keeps (P := fun m₁ ↦ m₁.Limited maxBytes ∧ m₁.bytes.toInt ≤ m.bytes.toInt)
      (fun m₁ hash h₁ ↦ ⟨h₁.1.remove hash, ?_⟩) orders.txs _ _ ⟨h, le_refl _⟩
    exact (h₁.1.toInt_bytes_remove_le hash).trans h₁.2
  obtain ⟨hroom, hbytes⟩ := hloop
  obtain ⟨hlength, hcounter⟩ := hfits
  have hfits : (m.roomFor orders t).FitsLimit t := by
    refine ⟨?_, by omega⟩
    rw [hroom.maxBytes_eq, ← h.maxBytes_eq]
    exact hlength
  refine hroom.insert hfits ?_
  have hsize : (Int64.ofNat (serializeTransaction t).length).toInt =
      (serializeTransaction t).length := by
    refine Int64.toInt_ofNat_of_lt ?_
    have hcovered := h.covered
    omega
  rcases makeRoom_done orders.txs (Int64.ofNat (serializeTransaction t).length)
    (le_refl m.txs.entries.card) with hdone | hempty
  · left
    have hcovered := hroom.covered
    rw [← roomFor, Int64.le_iff_toInt_le, h.maxBytes_eq,
      toInt_add_of_lt (by omega) (by omega) (by omega), hsize] at hdone
    exact hdone
  · right
    rw [← roomFor] at hempty
    rw [totalSize, total, hempty]
    rfl

end Add

/-- One call on the pool, as in `PoolCall` but with any hashes, where every transaction that is
added fits the limit. -/
inductive LimitedCall : Mempool → Mempool → Prop where
  | add {S : Signature} {σ : Type} {exec : Machine S σ} {s s' : σ} {utxos : UTXOReader S}
      {verifier : Option SignatureVerifier} {orders : AddOrders} {t : Transaction} {m m' : Mempool}
      (fits : m.FitsLimit t)
      (returns : (m.add orders t utxos verifier).run exec s = (.ok m', s')) : LimitedCall m m'
  | addFails {S : Signature} {σ : Type} {exec : Machine S σ} {s s' : σ} {utxos : UTXOReader S}
      {verifier : Option SignatureVerifier} {orders : AddOrders} {t : Transaction} {m : Mempool}
      {halt : Halt} (returns : (m.add orders t utxos verifier).run exec s = (.error halt, s')) :
      LimitedCall m m
  | remove {m : Mempool} (hash : Hash) : LimitedCall m (m.remove hash)
  | removeMinedBlock {m : Mempool} (b : Block) : LimitedCall m (m.removeMinedBlock b)

theorem Limited.call {maxBytes : Int64} {m m' : Mempool} (h : m.Limited maxBytes)
    (hcall : LimitedCall m m') : m'.Limited maxBytes := by
  cases hcall with
  | add fits returns => exact h.add fits returns
  | addFails returns => exact h
  | remove hash => exact h.remove hash
  | removeMinedBlock b => exact removeMinedBlock_keeps (fun _ hash hm ↦ hm.remove hash) b h

/-- After every sequence of calls in which each added transaction is within the limit by itself, and
its size can be added to the counter, the transactions of the pool are within the limit. A longer
transaction that is added always exceeds it. -/
theorem byteLimit {maxBytes : Int64} (hpos : 0 < maxBytes) {m : Mempool}
    (h : Relation.ReflTransGen LimitedCall (new maxBytes) m) :
    (m.totalSize : ℤ) ≤ maxBytes.toInt ∧
      ∀ {S : Signature} {σ : Type} {exec : Machine S σ} {s s' : σ} {utxos : UTXOReader S}
        {verifier : Option SignatureVerifier} {orders : AddOrders} {t : Transaction}
        {m' : Mempool}, (m.add orders t utxos verifier).run exec s = (.ok m', s') →
          maxBytes.toInt < (serializeTransaction t).length → maxBytes.toInt < m'.totalSize := by
  have hlimited : m.Limited maxBytes := by
    induction h with
    | refl => exact ⟨counted_new maxBytes, rfl, (Int64.lt_iff_toInt_lt.mp hpos).le⟩
    | tail _ hcall ih => exact ih.call hcall
  refine ⟨hlimited.limit, fun hadd hlong ↦ ?_⟩
  obtain ⟨r, -, rfl⟩ := add_ok hadd
  rw [totalSize_insert]
  omega

/-- Two transactions of 96 bytes, one after the other, in a pool of 96 bytes. The second one takes
the place of the first one. -/
theorem byteLimit_offers : ∃ m, Relation.ReflTransGen LimitedCall (new 96) m ∧
    m.txs.lookup (Sample.offer 1 1).hash ≠ none ∧
    m.txs.lookup (Sample.offer 0 900).hash = none ∧ (m.totalSize : ℤ) ≤ 96 := by
  obtain ⟨m, hadd, hin, hout⟩ := Sample.exists_evicted
  have hfits : (new 96).FitsLimit (Sample.offer 0 900) := ⟨by decide, by decide⟩
  have hfits' : (Sample.offered 900).FitsLimit (Sample.offer 1 1) := ⟨by decide, by decide⟩
  have hfirst : LimitedCall (new 96) (Sample.offered 900) :=
    .add hfits (Sample.run_add_offered (by decide) (by decide))
  have hcalls := (Relation.ReflTransGen.single hfirst).tail (.add hfits' hadd)
  exact ⟨m, hcalls, hin, hout, (byteLimit (by decide) hcalls).1⟩

/-- A pool of ten bytes takes a transaction of 96. -/
theorem byteLimit_exceeded : ∃ m, Relation.ReflTransGen PoolCall (new 10) m ∧
    (new 10).maxBytes = 10 ∧ m.totalSize = 96 := by
  have hspendable := Sample.spendable_offer (by decide : (0 : UInt32) ≠ 0xffffffff)
    (by decide : (1 : UInt64) ≠ 0) (by decide)
  obtain ⟨m, e, hadd, htxs, he⟩ := run_add_new readsView_coin hspendable 10 someOrders
  refine ⟨m, .single (.add (fun _ hold ↦ by cases hold) hadd), rfl, ?_⟩
  rw [totalSize, htxs, total_insert, he]
  decide

/-! ### Fair evictions -/

theorem length_serializeTransaction_pos (t : Transaction) :
    0 < (serializeTransaction t).length := by
  rw [serializeTransaction, List.length_append, writeUInt32, length_leBytes]
  omega

section Consistent

variable (h : m.Consistent)
include h

theorem Consistent.toInt_size (hfits : m.totalSize < 2 ^ 63) {hash : Hash} {e : Entry}
    (he : m.txs.lookup hash = some e) : e.size.toInt = (serializeTransaction e.tx).length := by
  have htotal := totalSize_remove he
  rw [h.size he, Int64.toInt_ofNat_of_lt (by omega)]

theorem Consistent.positiveSizes (hfits : m.totalSize < 2 ^ 63) : m.PositiveSizes := by
  rintro e ⟨hash, he⟩
  have hpos := length_serializeTransaction_pos e.tx
  rw [h.toInt_size hfits he]
  omega

/-- The condition of the loop that makes room. -/
theorem Consistent.full_iff {n : ℕ} (hfits : m.totalSize + n < 2 ^ 63) :
    m.maxBytes < m.bytes + Int64.ofNat n ↔ m.maxBytes.toInt < m.totalSize + n := by
  have hbytes := h.toInt_bytes (by omega)
  have hn : (Int64.ofNat n).toInt = n := Int64.toInt_ofNat_of_lt (by omega)
  rw [Int64.lt_iff_toInt_lt, toInt_add_of_lt (by omega) (by omega) (by omega), hbytes, hn]

end Consistent

/-- No product of a fee and a size of entries overflows. -/
def ProductsFit (m : Mempool) : Prop :=
  ∀ a b, m.Has a → m.Has b → (a.fee.toNat : ℤ) * b.size.toInt < 2 ^ 64

theorem ProductsFit.remove (h : m.ProductsFit) (hash : Hash) : (m.remove hash).ProductsFit := by
  rintro a b ⟨hash₁, ha⟩ ⟨hash₂, hb⟩
  exact h a b ⟨hash₁, (lookup_txs_of_remove ha).2⟩ ⟨hash₂, (lookup_txs_of_remove hb).2⟩

/-- The bytes of the entries that pay a higher rate than a new one. -/
def betterSize (m : Mempool) (new : Entry) : ℕ :=
  total (fun _ e ↦ if e.RateLE new then 0 else (serializeTransaction e.tx).length) m.txs

theorem betterSize_remove {new : Entry} {hash : Hash} {e : Entry}
    (he : m.txs.lookup hash = some e) (hrate : e.RateLE new) :
    (m.remove hash).betterSize new = m.betterSize new := by
  have htotal := total_remove
    (w := fun _ e ↦ if e.RateLE new then 0 else (serializeTransaction e.tx).length) he
  rw [if_pos hrate] at htotal
  exact htotal

theorem betterSize_le (m : Mempool) (new : Entry) : m.betterSize new ≤ m.totalSize := by
  refine total_mono fun {_ e} _ ↦ ?_
  split_ifs
  · exact Nat.zero_le _
  · exact le_refl _

theorem betterSize_pos {new : Entry} {hash : Hash} {e : Entry} (he : m.txs.lookup hash = some e)
    (hrate : ¬ e.RateLE new) : 0 < m.betterSize new := by
  have htotal := total_remove
    (w := fun _ e ↦ if e.RateLE new then 0 else (serializeTransaction e.tx).length) he
  have hpos := length_serializeTransaction_pos e.tx
  rw [if_neg hrate] at htotal
  rw [betterSize]
  omega

/-- If there is no room although there is enough for the better entries, the entry with the lowest
rate is not one of them. -/
theorem rateLE_of_full {new e : Entry} (hnew : 0 < new.size.toInt) (hsizes : m.PositiveSizes)
    {n : ℕ} (hbetter : (m.betterSize new + n : ℤ) ≤ m.maxBytes.toInt)
    (hfull : m.maxBytes.toInt < m.totalSize + n) (he : m.Has e)
    (hmin : ∀ e', m.Has e' → e.RateLE e') : e.RateLE new := by
  by_contra hrate
  have hall : m.totalSize ≤ m.betterSize new := by
    refine total_mono fun {hash e'} he' ↦ ?_
    rw [if_neg]
    intro hrate'
    exact hrate ((hmin e' ⟨hash, he'⟩).trans hrate' (hsizes e he) (hsizes e' ⟨hash, he'⟩) hnew)
  omega

/-- Making room spares the entries that pay a higher rate than the new one, if all of them have
room with it. -/
theorem makeRoom_spares {new : Entry} (hnew : 0 < new.size.toInt) {n : ℕ} (h : m.Consistent)
    (hfits : m.totalSize + n < 2 ^ 63) (hproducts : m.ProductsFit)
    (hbetter : (m.betterSize new + n : ℤ) ≤ m.maxBytes.toInt)
    (orders : ℕ → MapOrder fun _ : Hash ↦ Entry) (rounds : ℕ) {hash : Hash} {e : Entry}
    (he : m.txs.lookup hash = some e) (hrate : ¬ e.RateLE new) :
    (makeRoom orders (Int64.ofNat n) rounds m).txs.lookup hash = some e := by
  induction rounds generalizing m with
  | zero => exact he
  | succ rounds ih =>
    rw [makeRoom]
    split_ifs with hfull
    · cases hevict : m.evictLowest (orders rounds) with
      | none => exact he
      | some m' =>
        have hsizes := h.positiveSizes (by omega)
        obtain ⟨low, lowest, hlow, rfl, hmin⟩ :=
          evictLowest_minimal hsizes (comparesExactly_of_fits hsizes hproducts) hevict
        have hworse := rateLE_of_full hnew hsizes hbetter ((h.full_iff hfits).mp hfull)
          ⟨low, hlow⟩ hmin
        have hle := totalSize_remove_le m low
        refine ih (h.remove low) (by omega) (hproducts.remove low) ?_ ?_
        · rw [betterSize_remove hlow hworse, (within_remove m low).maxBytes]
          exact hbetter
        · rw [lookup_txs_remove, if_neg, he]
          rintro rfl
          cases he.symm.trans hlow
          exact hrate hworse
    · exact he

/-- If making room evicts no better entry, their bytes stay the same. -/
theorem betterSize_makeRoom {new : Entry} {size : Int64}
    {orders : ℕ → MapOrder fun _ : Hash ↦ Entry} {rounds : ℕ}
    (hfair : ∀ hash e, m.txs.lookup hash = some e →
      (makeRoom orders size rounds m).txs.lookup hash = none → e.RateLE new) :
    (makeRoom orders size rounds m).betterSize new = m.betterSize new := by
  induction rounds generalizing m with
  | zero => rfl
  | succ rounds ih =>
    rw [makeRoom] at hfair ⊢
    split_ifs at hfair ⊢ with hfull
    · cases hevict : m.evictLowest (orders rounds) with
      | none => rfl
      | some m' =>
        rw [hevict] at hfair
        obtain ⟨low, e, he, rfl⟩ := evictLowest_eq_some hevict
        have hgone : (makeRoom orders size rounds (m.remove low)).txs.lookup low = none := by
          by_contra hsome
          obtain ⟨e', he'⟩ := Option.ne_none_iff_exists'.mp hsome
          have hold := (within_makeRoom (m.remove low) orders size rounds).txs he'
          exact (lookup_txs_of_remove hold).1 rfl
        rw [← betterSize_remove he (hfair low e he hgone)]
        exact ih fun hash e he ↦ hfair hash e (lookup_txs_of_remove he).2
    · rfl

/-- What is left after making room, in exact numbers: there is room, or nothing is left. -/
theorem Consistent.makeRoom_done (h : m.Consistent) {n : ℕ} (hfits : m.totalSize + n < 2 ^ 63)
    (orders : ℕ → MapOrder fun _ : Hash ↦ Entry) :
    ((makeRoom orders (Int64.ofNat n) m.txs.entries.card m).totalSize + n : ℤ) ≤ m.maxBytes.toInt ∨
      (makeRoom orders (Int64.ofNat n) m.txs.entries.card m).txs.entries = 0 := by
  have hkeeps := makeRoom_keeps (P := fun m₁ ↦ m₁.Consistent ∧ m₁.totalSize ≤ m.totalSize)
    (fun m₁ hash h₁ ↦ ⟨h₁.1.remove hash, (totalSize_remove_le m₁ hash).trans h₁.2⟩) orders
    (Int64.ofNat n) m.txs.entries.card ⟨h, le_refl _⟩
  obtain ⟨hconsistent, hle⟩ := hkeeps
  refine (Mempool.makeRoom_done orders (Int64.ofNat n) (le_refl _)).imp_left fun hdone ↦ ?_
  have hfull := hconsistent.full_iff (n := n) (by omega)
  rw [(within_makeRoom m orders (Int64.ofNat n) m.txs.entries.card).maxBytes] at hfull
  rw [← not_lt, ← hfull]
  exact Int64.not_lt.mpr hdone

/-- The entry that `Add` makes of a transaction. -/
def newEntry (t : Transaction) (fee : UInt64) : Entry :=
  ⟨t, fee, Int64.ofNat (serializeTransaction t).length⟩

/-- Every entry that is evicted for a transaction with some fee has at most its rate. -/
def FairEvictions (m : Mempool) (orders : AddOrders) (t : Transaction) (fee : UInt64) : Prop :=
  ∀ hash e, m.txs.lookup hash = some e → (m.roomFor orders t).txs.lookup hash = none →
    e.RateLE (newEntry t fee)

section Add

variable {S : Signature} {σ : Type} {exec : Machine S σ} {s s' : σ} {utxos : UTXOReader S}
  {verifier : Option SignatureVerifier} {orders : AddOrders} {t : Transaction} {fee : UInt64}

theorem fairEvictions_iff (h : m.Consistent)
    (hfits : m.totalSize + (serializeTransaction t).length < 2 ^ 63) (hproducts : m.ProductsFit) :
    m.FairEvictions orders t fee ↔ m.betterSize (newEntry t fee) = 0 ∨
      (m.betterSize (newEntry t fee) + (serializeTransaction t).length : ℤ) ≤
        m.maxBytes.toInt := by
  constructor
  · intro hfair
    have hbetter := betterSize_makeRoom hfair
    rcases h.makeRoom_done hfits orders.txs with hdone | hempty
    · right
      have hle := betterSize_le (m.roomFor orders t) (newEntry t fee)
      rw [roomFor, hbetter] at hle
      omega
    · left
      rw [← hbetter, betterSize, total, hempty]
      rfl
  · intro hcases hash e he hgone
    by_contra hrate
    rcases hcases with hzero | hbetter
    · exact absurd hzero (betterSize_pos he hrate).ne'
    · have hnew : 0 < (newEntry t fee).size.toInt := by
        have hpos := length_serializeTransaction_pos t
        rw [newEntry, Int64.toInt_ofNat_of_lt (by omega)]
        omega
      rw [roomFor, makeRoom_spares hnew h hfits hproducts hbetter orders.txs _ he hrate] at hgone
      cases hgone

/-- `Add` of a transaction that passes evicts only entries with at most its fee rate, if and only if
there is no entry with a higher one or all of those have room with the new one. -/
theorem evictions_fair_iff {spent : List Outpoint} (h : m.Consistent)
    (hfits : m.totalSize + (serializeTransaction t).length < 2 ^ 63) (hproducts : m.ProductsFit)
    (hpasses : (validateTransaction t utxos verifier
      ((orders.spends.list m.spends).map Sigma.fst)).run exec s = (.ok (fee, spent), s')) :
    (m.add orders t utxos verifier).run exec s = (.ok ((m.roomFor orders t).insert t fee
        (Int64.ofNat (serializeTransaction t).length)), s') ∧
      (m.FairEvictions orders t fee ↔ m.betterSize (newEntry t fee) = 0 ∨
        (m.betterSize (newEntry t fee) + (serializeTransaction t).length : ℤ) ≤
          m.maxBytes.toInt) :=
  ⟨run_add hpasses, fairEvictions_iff h hfits hproducts⟩

end Add

namespace Sample

theorem has_offered {amount : UInt64} {e : Entry} :
    (offered amount).Has e ↔ e = newEntry (offer 0 amount) (1000 - amount) := by
  constructor
  · rintro ⟨hash, he⟩
    rcases lookup_txs_insert_cases he with ⟨-, rfl⟩ | ⟨-, he⟩
    · rfl
    · cases he
  · rintro rfl
    exact ⟨_, Finmap.lookup_insert _⟩

theorem total_offered (w : ∀ _ : Hash, Entry → ℕ) (amount : UInt64) :
    total w (offered amount).txs =
      w (offer 0 amount).hash (newEntry (offer 0 amount) (1000 - amount)) := by
  rw [offered, Mempool.insert, total_insert]
  rfl

theorem productsFit_offered {amount : UInt64} (hle : amount.toNat ≤ 904) :
    (offered amount).ProductsFit := by
  intro a b ha hb
  rw [has_offered] at ha hb
  rw [ha, hb]
  change ((1000 - amount).toNat : ℤ) * 96 < 2 ^ 64
  rw [toNat_rest hle]
  omega

theorem fits_offered (amount amount' : UInt64) :
    (offered amount).totalSize + (serializeTransaction (offer 1 amount')).length < 2 ^ 63 := by
  rw [totalSize, total_offered, newEntry, length_offer, length_offer]
  decide

end Sample

theorem evictions_fair_sample : ∃ spent,
    (validateTransaction (Sample.offer 1 1) (fun hash idx ↦ pure (.ok (coin ⟨hash, idx⟩))) none
      ((someOrders.spends.list (Sample.offered 900).spends).map Sigma.fst)).run noCalls () =
        (.ok (999, spent), ()) ∧
      (Sample.offered 900).FairEvictions someOrders (Sample.offer 1 1) 999 := by
  have hconsistent : (Sample.offered 900).Consistent :=
    (consistent_new 96).call (Sample.call_offered (by decide) (by decide))
  obtain ⟨spent, hpasses⟩ := Sample.passes_offered 900 (by decide : (1 : UInt64) ≠ 0) (by decide)
  have hiff := (evictions_fair_iff hconsistent (Sample.fits_offered 900 1)
    (Sample.productsFit_offered (by decide)) hpasses).2
  refine ⟨spent, hpasses, hiff.mpr (.inl ?_)⟩
  rw [betterSize, Sample.total_offered]
  decide

/-- An offer with a fee of 999 is evicted for one with a fee of 100 and the same size. -/
theorem evictions_unfair : ∃ spent,
    Relation.ReflTransGen PoolCall (new 96) (Sample.offered 1) ∧
      (Sample.offered 1).Consistent ∧ (Sample.offered 1).ProductsFit ∧
      (validateTransaction (Sample.offer 1 900) (fun hash idx ↦ pure (.ok (coin ⟨hash, idx⟩))) none
        ((someOrders.spends.list (Sample.offered 1).spends).map Sigma.fst)).run noCalls () =
          (.ok (100, spent), ()) ∧
      ¬ (Sample.offered 1).FairEvictions someOrders (Sample.offer 1 900) 100 := by
  have hcall : PoolCall (new 96) (Sample.offered 1) :=
    Sample.call_offered (by decide) (by decide)
  have hconsistent := (consistent_new 96).call hcall
  have hproducts : (Sample.offered 1).ProductsFit := Sample.productsFit_offered (by decide)
  obtain ⟨spent, hpasses⟩ := Sample.passes_offered 1 (by decide : (900 : UInt64) ≠ 0) (by decide)
  refine ⟨spent, .single hcall, hconsistent, hproducts, hpasses, ?_⟩
  rw [fairEvictions_iff hconsistent (Sample.fits_offered 1 900) hproducts, betterSize,
    Sample.total_offered, Sample.length_offer]
  decide

end Mempool

end NevelCore
