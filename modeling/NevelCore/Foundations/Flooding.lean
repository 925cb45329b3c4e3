import Mathlib.Algebra.BigOperators.Group.Finset.Piecewise
import Mathlib.Data.Fintype.BigOperators
import Mathlib.Data.Multiset.Filter
import Mathlib.Logic.Relation

/-!
# Flooding

A node that hears some news for the first time passes it on at all of its ports but the one at which
it came in, and pays no attention when it hears the news again. The copies on their way may arrive
in any order.

Such a flood comes to an end, also in a lossy network (`Floods.length_le`). If nothing gets lost and
the links lead both ways, every node that can be reached from where the news came in has been
informed by then (`Covered.informed_of_reaches`), since the one port that a node leaves out belongs
to a node that knows the news already.
-/

set_option autoImplicit false
set_option relaxedAutoImplicit false

namespace NevelCore.Foundations

/-- The ports of each node, and where a port leads: to a node, and to the port of that node at which
a copy comes in. -/
structure Links (ι π : Type*) where
  ports : ι → Finset π
  route : ι → π → Option (ι × π)

/-- The nodes that have been informed, and the copies on their way, each with the port at which it
comes in. -/
structure Flood (ι π : Type*) where
  informed : Set ι
  inFlight : Multiset (ι × π)

namespace Links

variable {ι π : Type*}

def Linked (L : Links ι π) (i j : ι) : Prop := ∃ p ∈ L.ports i, ∃ q, L.route i p = some (j, q)

/-- The links lead both ways. -/
def Symmetric (L : Links ι π) : Prop :=
  ∀ {i j : ι} {p q : π}, L.route i p = some (j, q) → L.route j q = some (i, p)

variable [DecidableEq π]

/-- The copies that a node passes on. -/
def copies (L : Links ι π) (i : ι) (exclude : π) : Multiset (ι × π) :=
  ((L.ports i).erase exclude).val.filterMap (L.route i)

theorem mem_copies {L : Links ι π} {i : ι} {exclude : π} {x : ι × π} :
    x ∈ L.copies i exclude ↔ ∃ p ∈ L.ports i, p ≠ exclude ∧ L.route i p = some x := by
  rw [copies, Multiset.mem_filterMap]
  refine exists_congr fun p ↦ ?_
  rw [Finset.mem_val, Finset.mem_erase]
  tauto

theorem card_copies_le (L : Links ι π) (i : ι) (exclude : π) :
    (L.copies i exclude).card ≤ (L.ports i).card := by
  refine le_trans ?_ (Finset.card_le_card (Finset.erase_subset exclude _))
  change (Multiset.filterMap _ ((L.ports i).erase exclude).val).card ≤ Multiset.card _
  exact Quotient.inductionOn ((L.ports i).erase exclude).val
    fun ports ↦ List.length_filterMap_le _ ports

end Links

section Floods

variable {ι π : Type*} {L : Links ι π} {f₀ f : Flood ι π} {k : ℕ}

/-! ### Coverage -/

/-- Where the news came in it is known or on its way, a copy comes from a node that knows it, and so
does each neighbour of such a node, or there is a copy on its way. -/
structure Covered (L : Links ι π) (origin : ι) (f : Flood ι π) : Prop where
  origin : origin ∈ f.informed ∨ ∃ p, (origin, p) ∈ f.inFlight
  sender : ∀ {i p j q}, (i, p) ∈ f.inFlight → L.route i p = some (j, q) → j ∈ f.informed
  neighbour : ∀ {i p j q}, i ∈ f.informed → p ∈ L.ports i → L.route i p = some (j, q) →
    j ∈ f.informed ∨ (j, q) ∈ f.inFlight

/-- News that come from outside. -/
theorem Covered.ofOutside {origin : ι} {p : π} (h : L.route origin p = none) :
    Covered L origin ⟨∅, {(origin, p)}⟩ where
  origin := .inr ⟨p, Multiset.mem_singleton_self _⟩
  sender hmem hroute := by
    cases Multiset.mem_singleton.mp hmem
    rw [h] at hroute
    cases hroute
  neighbour hi := hi.elim

theorem Covered.ignored {origin i : ι} {p : π} {rest : Multiset (ι × π)} (h : Covered L origin f)
    (flight : f.inFlight = (i, p) ::ₘ rest) (known : i ∈ f.informed) :
    Covered L origin ⟨f.informed, rest⟩ where
  origin := by
    refine h.origin.elim .inl fun ⟨q, hq⟩ ↦ ?_
    rw [flight, Multiset.mem_cons] at hq
    rcases hq with hq | hq
    · exact .inl ((Prod.mk.inj hq).1 ▸ known)
    · exact .inr ⟨q, hq⟩
  sender hmem := h.sender (flight ▸ Multiset.mem_cons_of_mem hmem)
  neighbour hi hp hroute := by
    refine (h.neighbour hi hp hroute).elim .inl fun hq ↦ ?_
    rw [flight, Multiset.mem_cons] at hq
    rcases hq with hq | hq
    · exact .inl ((Prod.mk.inj hq).1 ▸ known)
    · exact .inr hq

/-- With no copy left, every node that can be reached has been informed. -/
theorem Covered.informed_of_reaches {origin j : ι} (h : Covered L origin f)
    (hquiet : f.inFlight = 0) (hreach : Relation.ReflTransGen L.Linked origin j) :
    j ∈ f.informed := by
  have hnone {x : ι × π} : x ∉ f.inFlight := by simp [hquiet]
  induction hreach with
  | refl => exact h.origin.resolve_right fun ⟨p, hp⟩ ↦ hnone hp
  | tail _ hlinked ih =>
    obtain ⟨p, hp, q, hroute⟩ := hlinked
    exact (h.neighbour ih hp hroute).resolve_right hnone

/-! ### Copies to come -/

section Potential

open Classical in
/-- The most copies that a node can still send. -/
noncomputable def Links.remaining (L : Links ι π) (informed : Set ι) (i : ι) : ℕ :=
  if i ∈ informed then 0 else (L.ports i).card

variable [Fintype ι]

/-- The copies that are on their way or can still be sent. -/
noncomputable def Flood.potential (L : Links ι π) (f : Flood ι π) : ℕ :=
  f.inFlight.card + ∑ i, L.remaining f.informed i

theorem sum_remaining_insert {i : ι} {informed : Set ι} (unknown : i ∉ informed) :
    ∑ j, L.remaining (insert i informed) j + (L.ports i).card = ∑ j, L.remaining informed j := by
  classical
  have hbefore : L.remaining informed i = (L.ports i).card := if_neg unknown
  have hafter : L.remaining (insert i informed) i = 0 := if_pos (Set.mem_insert i informed)
  have hothers : ∑ j ∈ Finset.univ.erase i, L.remaining (insert i informed) j =
      ∑ j ∈ Finset.univ.erase i, L.remaining informed j := by
    refine Finset.sum_congr rfl fun j hj ↦ ?_
    simp only [Links.remaining, Set.mem_insert_iff, Finset.ne_of_mem_erase hj, false_or]
  rw [← Finset.add_sum_erase _ _ (Finset.mem_univ i),
    ← Finset.add_sum_erase _ (L.remaining informed) (Finset.mem_univ i)]
  omega

end Potential

/-! ### Runs -/

variable [DecidableEq π]

/-- Runs with so many deliveries. If the network is lossy, a node may pay no attention to news that
it does not know, and copies may get lost when they are sent. -/
inductive Floods (L : Links ι π) (lossy : Prop) (f₀ : Flood ι π) : ℕ → Flood ι π → Prop
  | start : Floods L lossy f₀ 0 f₀
  | ignored {k : ℕ} {f : Flood ι π} (run : Floods L lossy f₀ k f) {i : ι} {p : π}
      {rest : Multiset (ι × π)} (flight : f.inFlight = (i, p) ::ₘ rest)
      (known : ¬ lossy → i ∈ f.informed) : Floods L lossy f₀ (k + 1) ⟨f.informed, rest⟩
  | passedOn {k : ℕ} {f : Flood ι π} (run : Floods L lossy f₀ k f) {i : ι} {p : π}
      {rest new : Multiset (ι × π)} (flight : f.inFlight = (i, p) ::ₘ rest)
      (unknown : i ∉ f.informed) (sends : new ≤ L.copies i p)
      (all : ¬ lossy → new = L.copies i p) :
      Floods L lossy f₀ (k + 1) ⟨insert i f.informed, rest + new⟩

theorem Covered.passedOn {origin i : ι} {p : π} {rest : Multiset (ι × π)} (h : Covered L origin f)
    (hsymm : L.Symmetric) (flight : f.inFlight = (i, p) ::ₘ rest) :
    Covered L origin ⟨insert i f.informed, rest + L.copies i p⟩ where
  origin := by
    refine h.origin.elim (fun ho ↦ .inl (.inr ho)) fun ⟨q, hq⟩ ↦ ?_
    rw [flight, Multiset.mem_cons] at hq
    rcases hq with hq | hq
    · exact .inl (.inl (Prod.mk.inj hq).1)
    · exact .inr ⟨q, Multiset.mem_add.mpr (.inl hq)⟩
  sender hmem hroute := by
    rcases Multiset.mem_add.mp hmem with hmem | hmem
    · exact .inr (h.sender (flight ▸ Multiset.mem_cons_of_mem hmem) hroute)
    · obtain ⟨p', -, -, hcopy⟩ := Links.mem_copies.mp hmem
      rw [hsymm hcopy] at hroute
      exact .inl (Prod.mk.inj (Option.some.inj hroute)).1.symm
  neighbour {j p' j' q'} hj hp hroute := by
    by_cases hji : j = i
    · subst hji
      by_cases hpp : p' = p
      · -- the port that is left out: the copy came from there
        subst hpp
        exact .inl (.inr (h.sender (flight ▸ Multiset.mem_cons_self _ _) hroute))
      · exact .inr (Multiset.mem_add.mpr (.inr (Links.mem_copies.mpr ⟨p', hp, hpp, hroute⟩)))
    · refine (h.neighbour (hj.resolve_left hji) hp hroute).elim (fun h ↦ .inl (.inr h)) fun hq ↦ ?_
      rw [flight, Multiset.mem_cons] at hq
      rcases hq with hq | hq
      · exact .inl (.inl (Prod.mk.inj hq).1)
      · exact .inr (Multiset.mem_add.mpr (.inl hq))

theorem Floods.covered {origin : ι} (h : Floods L False f₀ k f) (hsymm : L.Symmetric)
    (hcovered : Covered L origin f₀) : Covered L origin f := by
  induction h with
  | start => exact hcovered
  | ignored run flight known ih => exact ih.ignored flight (known not_false)
  | passedOn run flight unknown sends all ih =>
    rw [all not_false]
    exact ih.passedOn hsymm flight

/-- Each delivery takes a copy away from those that are on their way or can still be sent. -/
theorem Floods.potential_le [Fintype ι] {lossy : Prop} (h : Floods L lossy f₀ k f) :
    k + f.potential L ≤ f₀.potential L := by
  induction h with
  | start => exact (Nat.zero_add _).le
  | @ignored k f run i p rest flight known ih =>
    rw [Flood.potential, flight, Multiset.card_cons] at ih
    rw [Flood.potential]
    dsimp only
    omega
  | @passedOn k f run i p rest new flight unknown sends all ih =>
    have hcopies := (Multiset.card_le_card sends).trans (L.card_copies_le i p)
    have hsum := sum_remaining_insert (L := L) unknown
    rw [Flood.potential, flight, Multiset.card_cons] at ih
    rw [Flood.potential, Multiset.card_add]
    dsimp only
    omega

/-- News that come from outside are delivered at most once more for each port of a node. -/
theorem Floods.length_le [Fintype ι] {lossy : Prop} {x : ι × π} (h : Floods L lossy ⟨∅, {x}⟩ k f) :
    k ≤ 1 + ∑ i, (L.ports i).card := by
  have hle := h.potential_le
  have hstart : (⟨∅, {x}⟩ : Flood ι π).potential L = 1 + ∑ i, (L.ports i).card :=
    congrArg (1 + ·) (Finset.sum_congr rfl fun i _ ↦ if_neg (Set.notMem_empty i))
  omega

end Floods

end NevelCore.Foundations
