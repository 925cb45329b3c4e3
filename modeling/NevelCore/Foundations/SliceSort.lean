import Mathlib.Data.Finset.Card
import Mathlib.Data.Finset.Dedup

/-!
# Sorting with a comparison

A sorting function takes a comparison `less` and a list. It is only known to return a permutation,
which is sorted if `less` is a strict weak order on the elements of the list: `SliceSort` is such a
function. What one of them does with elements that `less` does not tell apart, or with another
comparison, is open. `SliceSort.favouring` is the one that puts some element as far to the front as
it may, so that a law of all of them can be tested on it (`favouring_precedes`).
-/

set_option autoImplicit false
set_option relaxedAutoImplicit false

namespace NevelCore.Foundations

variable {α : Type}

/-- The comparison is a strict weak order on the elements of a list. -/
structure StrictWeak (less : α → α → Bool) (l : List α) : Prop where
  irrefl : ∀ a ∈ l, less a a = false
  trans : ∀ a ∈ l, ∀ b ∈ l, ∀ c ∈ l, less a b = true → less b c = true → less a c = true
  cotrans : ∀ a ∈ l, ∀ b ∈ l, ∀ c ∈ l, less a b = false → less b c = false → less a c = false

/-- A function that sorts by strict weak orders. -/
structure SliceSort (α : Type) where
  sort : (α → α → Bool) → List α → List α
  perm : ∀ less l, (sort less l).Perm l
  sorted : ∀ less l, StrictWeak less l → (sort less l).Pairwise fun a b ↦ less b a = false

section Rank

variable [DecidableEq α] {less : α → α → Bool} {l : List α}

/-- How many elements of a list are below one. -/
def rank (less : α → α → Bool) (l : List α) (a : α) : ℕ :=
  (l.toFinset.filter fun z ↦ less z a = true).card

/-- By a strict weak order, elements are compared as their ranks are. -/
theorem rank_le_rank_iff (h : StrictWeak less l) {a b : α} (ha : a ∈ l) (hb : b ∈ l) :
    rank less l a ≤ rank less l b ↔ less b a = false := by
  constructor
  · intro hle
    by_contra hless
    rw [Bool.not_eq_false] at hless
    refine absurd hle (not_le.mpr (Finset.card_lt_card ?_))
    rw [Finset.ssubset_iff_of_subset]
    · refine ⟨b, ?_, ?_⟩
      · simp [hb, hless]
      · simp [h.irrefl b hb]
    · intro z hz
      rw [Finset.mem_filter, List.mem_toFinset] at hz ⊢
      exact ⟨hz.1, h.trans z hz.1 b hb a ha hz.2 hless⟩
  · intro hless
    refine Finset.card_le_card fun z hz ↦ ?_
    rw [Finset.mem_filter, List.mem_toFinset] at hz ⊢
    refine ⟨hz.1, ?_⟩
    by_contra hnot
    rw [Bool.not_eq_true] at hnot
    have hfalse := h.cotrans z hz.1 b hb a ha hnot hless
    exact absurd (hz.2.symm.trans hfalse) (by decide)

end Rank

/-! ### Sorting by a key -/

/-- The list sorted by a key. -/
def sortByKey (key : α → ℕ) (l : List α) : List α := l.mergeSort fun a b ↦ decide (key a ≤ key b)

theorem sortByKey_perm (key : α → ℕ) (l : List α) : (sortByKey key l).Perm l :=
  List.mergeSort_perm l _

theorem pairwise_sortByKey (key : α → ℕ) (l : List α) :
    (sortByKey key l).Pairwise fun a b ↦ key a ≤ key b := by
  have htrans (a b c : α) (hab : decide (key a ≤ key b) = true)
      (hbc : decide (key b ≤ key c) = true) : decide (key a ≤ key c) = true :=
    decide_eq_true ((of_decide_eq_true hab).trans (of_decide_eq_true hbc))
  have htotal (a b : α) : (decide (key a ≤ key b) || decide (key b ≤ key a)) = true := by
    simpa using le_total (key a) (key b)
  exact (List.pairwise_mergeSort htrans htotal l).imp of_decide_eq_true

/-- Of two elements of a list sorted by a key, the one with the lower key comes first. -/
theorem rel_of_key_lt {R : α → α → Prop} {key : α → ℕ} {l : List α}
    (hkey : l.Pairwise fun a b ↦ key a ≤ key b) (hR : l.Pairwise R) {a b : α} (ha : a ∈ l)
    (hb : b ∈ l) (hlt : key b < key a) : R b a := by
  induction l with
  | nil => cases ha
  | cons x l ih =>
    obtain ⟨hx, hkey⟩ := List.pairwise_cons.mp hkey
    obtain ⟨hRx, hR⟩ := List.pairwise_cons.mp hR
    rcases List.mem_cons.mp hb with rfl | hb'
    · rcases List.mem_cons.mp ha with rfl | ha'
      · exact absurd hlt (lt_irrefl _)
      · exact hRx a ha'
    · rcases List.mem_cons.mp ha with rfl | ha'
      · exact absurd hlt (not_lt.mpr (hx b hb'))
      · exact ih hkey hR ha' hb'

namespace SliceSort

variable [DecidableEq α]

open Classical in
/-- A key that compares as a strict weak order does and puts one element in front of its equals. For
another comparison it only puts that element in front. -/
noncomputable def favouringKey (first : α) (less : α → α → Bool) (l : List α) (a : α) : ℕ :=
  (if StrictWeak less l then 2 * rank less l a else 0) + if a = first then 0 else 1

/-- The sorting function that puts one element as far to the front as it may. -/
noncomputable def favouring (first : α) : SliceSort α where
  sort less l := sortByKey (favouringKey first less l) l
  perm less l := sortByKey_perm _ l
  sorted less l h := by
    have hperm := sortByKey_perm (favouringKey first less l) l
    refine (pairwise_sortByKey (favouringKey first less l) l).imp_of_mem fun ha hb hle ↦ ?_
    rw [← rank_le_rank_iff h (hperm.mem_iff.mp ha) (hperm.mem_iff.mp hb)]
    rw [favouringKey, favouringKey, if_pos h, if_pos h] at hle
    split_ifs at hle <;> omega

/-- The favoured element comes before every other one that is not below it. -/
theorem favouring_precedes {R : α → α → Prop} {less : α → α → Bool} {l : List α} {first a : α}
    (hR : ((favouring first).sort less l).Pairwise R) (hfirst : first ∈ l) (ha : a ∈ l)
    (hne : a ≠ first) (hless : less a first = false) : R first a := by
  have hperm := sortByKey_perm (favouringKey first less l) l
  refine rel_of_key_lt (pairwise_sortByKey (favouringKey first less l) l) hR
    (hperm.mem_iff.mpr ha) (hperm.mem_iff.mpr hfirst) ?_
  rw [favouringKey, favouringKey, if_pos rfl, if_neg hne]
  split_ifs with h
  · have hrank := (rank_le_rank_iff h hfirst ha).mpr hless
    omega
  · exact Nat.one_pos

end SliceSort

end NevelCore.Foundations
