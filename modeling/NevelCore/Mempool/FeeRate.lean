import NevelCore.Mempool.Consistency
import Mathlib.Tactic.Ring

/-!
# Fee rates

Entries are compared by cross products of fees and sizes, taken in `uint64`. `RateLE` is the exact
comparison. Where the two agree for all entries of a pool (`ComparesExactly`), and they do if no
product overflows (`comparesExactly_of_fits`), `EntriesByFeeRate` sorts by the exact rate and
`evictLowest` takes an entry with the lowest one. `feeRatePriority_iff` says that this is the only
case: of two entries that are compared wrongly, some sorting function puts the worse one first.
-/

set_option autoImplicit false
set_option relaxedAutoImplicit false

namespace NevelCore

open Foundations

namespace Entry

/-- The fee rate of an entry is at most that of another one, by exact products. -/
def RateLE (a b : Entry) : Prop := (a.fee.toNat : ℤ) * b.size.toInt ≤ b.fee.toNat * a.size.toInt

instance (a b : Entry) : Decidable (a.RateLE b) := inferInstanceAs (Decidable (_ ≤ _))

theorem rateLE_total (a b : Entry) : a.RateLE b ∨ b.RateLE a := le_total _ _

theorem RateLE.refl (a : Entry) : a.RateLE a := le_refl _

theorem RateLE.trans {a b c : Entry} (hab : a.RateLE b) (hbc : b.RateLE c) (ha : 0 < a.size.toInt)
    (hb : 0 < b.size.toInt) (hc : 0 < c.size.toInt) : a.RateLE c := by
  have hab' := Int.mul_le_mul_of_nonneg_right hab hc.le
  have hbc' := Int.mul_le_mul_of_nonneg_right hbc ha.le
  refine Int.le_of_mul_le_mul_right ?_ hb
  calc (a.fee.toNat : ℤ) * c.size.toInt * b.size.toInt
      = a.fee.toNat * b.size.toInt * c.size.toInt := by ring
    _ ≤ b.fee.toNat * a.size.toInt * c.size.toInt := hab'
    _ = b.fee.toNat * c.size.toInt * a.size.toInt := by ring
    _ ≤ c.fee.toNat * b.size.toInt * a.size.toInt := hbc'
    _ = c.fee.toNat * a.size.toInt * b.size.toInt := by ring

end Entry

namespace Mempool

open Entry

variable {m : Mempool}

/-- The pool has an entry. -/
def Has (m : Mempool) (e : Entry) : Prop := ∃ hash, m.txs.lookup hash = some e

/-- All entries have a positive size. -/
def PositiveSizes (m : Mempool) : Prop := ∀ e, m.Has e → 0 < e.size.toInt

/-- The comparison in `uint64` is that of the exact rates, for any two entries. -/
def ComparesExactly (m : Mempool) : Prop :=
  ∀ a b, m.Has a → m.Has b → (higherRate a b = true ↔ ¬ a.RateLE b)

theorem mem_map_list_iff {order : MapOrder fun _ : Hash ↦ Entry} {e : Entry} :
    e ∈ (order.list m.txs).map Sigma.snd ↔ m.Has e := by
  constructor
  · intro he
    obtain ⟨⟨hash, e'⟩, hmem, rfl⟩ := List.mem_map.mp he
    exact ⟨hash, order.mem_list.mp hmem⟩
  · rintro ⟨hash, he⟩
    exact List.mem_map.mpr ⟨⟨hash, e⟩, order.mem_list.mpr he, rfl⟩

/-! ### Products in `uint64` -/

theorem toNat_toUInt64_size {size : Int64} (h : 0 < size.toInt) :
    (size.toUInt64.toNat : ℤ) = size.toInt := by
  have hle : 0 ≤ size := Int64.le_iff_toInt_le.mpr h.le
  rw [Int64.toNat_toUInt64_of_le hle]
  exact Int.toNat_of_nonneg h.le

theorem toNat_mul_size {fee : UInt64} {size : Int64} (hsize : 0 < size.toInt)
    (hfits : (fee.toNat : ℤ) * size.toInt < 2 ^ 64) :
    ((fee * size.toUInt64).toNat : ℤ) = fee.toNat * size.toInt := by
  rw [← toNat_toUInt64_size hsize] at hfits ⊢
  rw [UInt64.toNat_mul, Nat.mod_eq_of_lt (by exact_mod_cast hfits), Nat.cast_mul]

/-- The comparison is exact if no product overflows. -/
theorem comparesExactly_of_fits (hsizes : m.PositiveSizes)
    (hfits : ∀ a b, m.Has a → m.Has b → (a.fee.toNat : ℤ) * b.size.toInt < 2 ^ 64) :
    m.ComparesExactly := by
  intro a b ha hb
  have hleft := toNat_mul_size (hsizes b hb) (hfits a b ha hb)
  have hright := toNat_mul_size (hsizes a ha) (hfits b a hb ha)
  rw [higherRate, decide_eq_true_iff, gt_iff_lt, UInt64.lt_iff_toNat_lt, RateLE, not_le]
  omega

/-! ### Sorting -/

theorem strictWeak_higherRate (hsizes : m.PositiveSizes) (hexact : m.ComparesExactly)
    {l : List Entry} (hl : ∀ e ∈ l, m.Has e) : StrictWeak higherRate l := by
  have hless {a b : Entry} (ha : a ∈ l) (hb : b ∈ l) : higherRate a b = true ↔ ¬ a.RateLE b :=
    hexact a b (hl a ha) (hl b hb)
  have hnot {a b : Entry} (ha : a ∈ l) (hb : b ∈ l) : higherRate a b = false ↔ a.RateLE b := by
    rw [← Bool.not_eq_true, hless ha hb, not_not]
  refine ⟨fun a ha ↦ (hnot ha ha).mpr (.refl a), fun a ha b hb c hc hab hbc ↦ ?_,
    fun a ha b hb c hc hab hbc ↦ ?_⟩
  · rw [hless ha hb] at hab
    rw [hless hb hc] at hbc
    rw [hless ha hc]
    intro hac
    have hcb := (rateLE_total b c).resolve_left hbc
    exact hab (hac.trans hcb (hsizes a (hl a ha)) (hsizes c (hl c hc)) (hsizes b (hl b hb)))
  · rw [hnot ha hb] at hab
    rw [hnot hb hc] at hbc
    rw [hnot ha hc]
    exact hab.trans hbc (hsizes a (hl a ha)) (hsizes b (hl b hb)) (hsizes c (hl c hc))

/-- Whatever the order, `EntriesByFeeRate` returns the entries. -/
theorem coe_entriesByFeeRate (m : Mempool) (order : MapOrder fun _ : Hash ↦ Entry)
    (sort : SliceSort Entry) :
    (m.entriesByFeeRate order sort : Multiset Entry) = m.txs.entries.map Sigma.snd := by
  rw [← order.list_eq, Multiset.map_coe, Multiset.coe_eq_coe]
  exact sort.perm _ _

theorem isSnapshot_snapshot (m : Mempool) (order : MapOrder fun _ : Hash ↦ Entry)
    (sort : SliceSort Entry) : m.IsSnapshot (m.snapshot order sort) := by
  rw [IsSnapshot, snapshot, ← Multiset.map_coe, coe_entriesByFeeRate, Multiset.map_map]
  rfl

theorem pairwise_entriesByFeeRate (hsizes : m.PositiveSizes) (hexact : m.ComparesExactly)
    (order : MapOrder fun _ : Hash ↦ Entry) (sort : SliceSort Entry) :
    (m.entriesByFeeRate order sort).Pairwise fun a b ↦ b.RateLE a := by
  have hall : ∀ e ∈ (order.list m.txs).map Sigma.snd, m.Has e := fun e he ↦ mem_map_list_iff.mp he
  have hsorted := sort.sorted _ _ (strictWeak_higherRate hsizes hexact hall)
  refine hsorted.imp_of_mem fun {a b} ha hb hless ↦ ?_
  have ha' := hall a ((sort.perm _ _).mem_iff.mp ha)
  have hb' := hall b ((sort.perm _ _).mem_iff.mp hb)
  by_contra hnot
  rw [(hexact b a hb' ha').mpr hnot] at hless
  cases hless

/-! ### Evicting -/

/-- The loop of `evictLowest` finds an entry with the lowest rate. -/
theorem minimal_of_foldl_lower (hsizes : m.PositiveSizes) (hexact : m.ComparesExactly)
    {list : List (Σ _ : Hash, Entry)} (hlist : ∀ entry ∈ list, m.Has entry.2)
    {low : Σ _ : Hash, Entry} (h : list.foldl lower none = some low) :
    low ∈ list ∧ ∀ entry ∈ list, low.2.RateLE entry.2 := by
  induction list using List.reverseRecOn generalizing low with
  | nil => cases h
  | append_singleton list last ih =>
    obtain ⟨hfront, hlast⟩ := List.forall_mem_append.mp hlist
    have hlast := hlast last List.mem_cons_self
    rw [List.foldl_append, List.foldl_cons, List.foldl_nil] at h
    cases hfold : list.foldl lower none with
    | none =>
      rw [hfold] at h
      cases h
      rw [eq_nil_of_foldl_lower hfold]
      simp [RateLE.refl]
    | some low' =>
      obtain ⟨hmem, hmin⟩ := ih hfront hfold
      have hcompare := hexact low'.2 last.2 (hfront low' hmem) hlast
      rw [higherRate, decide_eq_true_iff] at hcompare
      rw [hfold, lower] at h
      by_cases hlower : last.2.fee * low'.2.size.toUInt64 < low'.2.fee * last.2.size.toUInt64
      · -- the last entry is below the lowest one so far, and so below all
        rw [if_pos hlower] at h
        cases h
        have hle := (rateLE_total low'.2 last.2).resolve_left (hcompare.mp hlower)
        refine ⟨List.mem_append_right _ List.mem_cons_self, List.forall_mem_append.mpr ⟨?_, ?_⟩⟩
        · intro entry hentry
          exact hle.trans (hmin entry hentry) (hsizes _ hlast) (hsizes _ (hfront low' hmem))
            (hsizes _ (hfront entry hentry))
        · exact List.forall_mem_singleton.mpr (.refl _)
      · rw [if_neg hlower] at h
        cases h
        refine ⟨List.mem_append_left _ hmem, List.forall_mem_append.mpr ⟨hmin, ?_⟩⟩
        exact List.forall_mem_singleton.mpr (not_not.mp fun hnot ↦ hlower (hcompare.mpr hnot))

/-- An eviction takes an entry away that has the lowest rate. -/
theorem evictLowest_minimal (hsizes : m.PositiveSizes) (hexact : m.ComparesExactly)
    {order : MapOrder fun _ : Hash ↦ Entry} {m' : Mempool} (h : m.evictLowest order = some m') :
    ∃ hash e, m.txs.lookup hash = some e ∧ m' = m.remove hash ∧ ∀ e', m.Has e' → e.RateLE e' := by
  obtain ⟨low, hlow, rfl⟩ := Option.map_eq_some_iff.mp h
  have hall : ∀ entry ∈ order.list m.txs, m.Has entry.2 := fun entry hentry ↦
    ⟨entry.1, order.mem_list.mp hentry⟩
  obtain ⟨hmem, hmin⟩ := minimal_of_foldl_lower hsizes hexact hall hlow
  refine ⟨low.1, low.2, order.mem_list.mp hmem, rfl, ?_⟩
  rintro e' ⟨hash, he'⟩
  exact hmin ⟨hash, e'⟩ (order.mem_list.mpr he')

/-! ### Priority by fee rate -/

/-- Entries come out by their exact rates, the highest first, and an eviction takes one with the
lowest, in whatever order the loops meet them and whichever function sorts. -/
structure FeeRatePriority (m : Mempool) : Prop where
  entries : ∀ order sort, (m.entriesByFeeRate order sort : Multiset Entry) =
    m.txs.entries.map Sigma.snd
  sorted : ∀ order sort, (m.entriesByFeeRate order sort).Pairwise fun a b ↦ b.RateLE a
  evicts : ∀ order, m.evictLowest order = none ∧ m.txs.entries = 0 ∨
    ∃ hash e, m.txs.lookup hash = some e ∧ m.evictLowest order = some (m.remove hash) ∧
      ∀ e', m.Has e' → e.RateLE e'

theorem feeRatePriority_of_exact (hsizes : m.PositiveSizes) (hexact : m.ComparesExactly) :
    m.FeeRatePriority where
  entries := coe_entriesByFeeRate m
  sorted := pairwise_entriesByFeeRate hsizes hexact
  evicts order := by
    cases hevict : m.evictLowest order with
    | none => exact .inl ⟨rfl, evictLowest_eq_none hevict⟩
    | some m' =>
      obtain ⟨hash, e, he, rfl, hmin⟩ := evictLowest_minimal hsizes hexact hevict
      exact .inr ⟨hash, e, he, rfl, hmin⟩

/-- Equal products are equal in `uint64`, so that of two entries with different answers one has the
higher rate. -/
theorem exists_of_not_exact (hsizes : m.PositiveSizes) (hexact : ¬ m.ComparesExactly) :
    ∃ a b, m.Has a ∧ m.Has b ∧ ¬ a.RateLE b ∧ higherRate a b = false := by
  rw [ComparesExactly] at hexact
  push Not at hexact
  obtain ⟨a, b, ha, hb, ⟨hless, hrate⟩ | ⟨hless, hrate⟩⟩ := hexact
  · refine ⟨b, a, hb, ha, ?_, ?_⟩
    · intro hrate'
      have hproduct : a.fee * b.size.toUInt64 = b.fee * a.size.toUInt64 := by
        have hexact := le_antisymm hrate hrate'
        rw [← toNat_toUInt64_size (hsizes a ha), ← toNat_toUInt64_size (hsizes b hb)] at hexact
        rw [← UInt64.toNat_inj, UInt64.toNat_mul, UInt64.toNat_mul]
        exact congrArg (· % 2 ^ 64) (by exact_mod_cast hexact)
      rw [higherRate, decide_eq_true_iff, hproduct] at hless
      exact UInt64.lt_irrefl _ hless
    · rw [higherRate, decide_eq_true_iff] at hless
      rw [higherRate, decide_eq_false_iff_not]
      exact UInt64.lt_asymm hless
  · exact ⟨a, b, ha, hb, hrate, Bool.not_eq_true _ ▸ hless⟩

theorem exact_of_feeRatePriority (order : MapOrder fun _ : Hash ↦ Entry)
    (hsizes : m.PositiveSizes) (h : m.FeeRatePriority) : m.ComparesExactly := by
  by_contra hexact
  obtain ⟨a, b, ha, hb, hrate, hless⟩ := exists_of_not_exact hsizes hexact
  have hne : a ≠ b := by
    rintro rfl
    exact hrate (.refl a)
  have hsorted := h.sorted order (.favouring b)
  rw [entriesByFeeRate] at hsorted
  have hprecedes := SliceSort.favouring_precedes hsorted (mem_map_list_iff.mpr hb)
    (mem_map_list_iff.mpr ha) hne hless
  exact hrate hprecedes

/-- Priority is by exact fee rates if and only if the comparison of any two entries in `uint64` is
exact. It is if no product of a fee and a size overflows. -/
theorem feeRatePriority_iff (hsizes : m.PositiveSizes) :
    (m.FeeRatePriority ↔ m.ComparesExactly) ∧
      ((∀ a b, m.Has a → m.Has b → (a.fee.toNat : ℤ) * b.size.toInt < 2 ^ 64) →
        m.FeeRatePriority) := by
  refine ⟨⟨exact_of_feeRatePriority (someOrders.txs 0) hsizes, feeRatePriority_of_exact hsizes⟩,
    fun hfits ↦ ?_⟩
  exact feeRatePriority_of_exact hsizes (comparesExactly_of_fits hsizes hfits)

namespace Sample

/-- Another hash. -/
def otherHash : Hash := ⟨List.replicate 32 1, by decide⟩

/-- An entry of two bytes. -/
def twoBytes (fee : UInt64) : Entry := ⟨offer 0 1, fee, 2⟩

/-- A pool of two entries of two bytes. -/
def twoEntries (fee fee' : UInt64) : Mempool where
  txs := ((∅ : Finmap fun _ : Hash ↦ Entry).insert Bytes32.zero (twoBytes fee)).insert otherHash
    (twoBytes fee')
  spends := ∅
  maxBytes := 1000
  bytes := 4

theorem otherHash_ne : Bytes32.zero ≠ otherHash := by decide

theorem has_twoEntries {fee fee' : UInt64} {e : Entry} :
    (twoEntries fee fee').Has e ↔ e = twoBytes fee ∨ e = twoBytes fee' := by
  constructor
  · rintro ⟨hash, he⟩
    by_cases hother : hash = otherHash
    · rw [hother, twoEntries, Finmap.lookup_insert] at he
      exact .inr (Option.some.inj he).symm
    · rw [twoEntries, Finmap.lookup_insert_of_ne _ hother] at he
      by_cases hzero : hash = Bytes32.zero
      · rw [hzero, Finmap.lookup_insert] at he
        exact .inl (Option.some.inj he).symm
      · rw [Finmap.lookup_insert_of_ne _ hzero] at he
        cases he
  · rintro (rfl | rfl)
    · refine ⟨Bytes32.zero, ?_⟩
      rw [twoEntries, Finmap.lookup_insert_of_ne _ otherHash_ne, Finmap.lookup_insert]
    · exact ⟨otherHash, Finmap.lookup_insert _⟩

theorem positiveSizes_twoEntries (fee fee' : UInt64) : (twoEntries fee fee').PositiveSizes := by
  intro e he
  rcases has_twoEntries.mp he with rfl | rfl
  · change 0 < (2 : Int64).toInt
    decide
  · change 0 < (2 : Int64).toInt
    decide

end Sample

theorem feeRatePriority_sample : (Sample.twoEntries 3 5).FeeRatePriority := by
  refine (feeRatePriority_iff (Sample.positiveSizes_twoEntries 3 5)).2 fun a b ha hb ↦ ?_
  rcases Sample.has_twoEntries.mp ha with rfl | rfl
  · rcases Sample.has_twoEntries.mp hb with rfl | rfl
    · decide
    · decide
  · rcases Sample.has_twoEntries.mp hb with rfl | rfl
    · decide
    · decide

/-- Of two entries of two bytes, with fees of `2 ^ 63` and 1, it is the first one that is compared
as lower, its product being zero. -/
theorem feeRatePriority_overflows :
    (Sample.twoEntries 0x8000000000000000 1).PositiveSizes ∧
      higherRate (Sample.twoBytes 1) (Sample.twoBytes 0x8000000000000000) = true ∧
      (Sample.twoBytes 1).RateLE (Sample.twoBytes 0x8000000000000000) ∧
      ¬ (Sample.twoEntries 0x8000000000000000 1).FeeRatePriority := by
  have hsizes := Sample.positiveSizes_twoEntries 0x8000000000000000 1
  have hless : higherRate (Sample.twoBytes 1) (Sample.twoBytes 0x8000000000000000) = true := by
    decide
  have hrate : (Sample.twoBytes 1).RateLE (Sample.twoBytes 0x8000000000000000) := by decide
  refine ⟨hsizes, hless, hrate, fun h ↦ ?_⟩
  have hexact := exact_of_feeRatePriority (someOrders.txs 0) hsizes h
  exact (hexact _ _ (Sample.has_twoEntries.mpr (.inr rfl))
    (Sample.has_twoEntries.mpr (.inl rfl))).mp hless hrate

end Mempool

end NevelCore
