import NevelCore.Storage.Ledger

/-!
# Branches

A branch is a list of blocks, newest first, in which each block has the next one as its parent, down
to height 0. `chainWork` is the work that a branch has, and heights count the blocks below.
-/

set_option autoImplicit false
set_option relaxedAutoImplicit false

namespace NevelCore

/-- The work of a chain. -/
def chainWork : List Block → ℕ
  | [] => 0
  | b :: rest => workForBits b.header.bits + chainWork rest

/-- A block has another as its parent, one below it in height. -/
structure Parent (b p : Block) : Prop where
  link : b.header.prevHash = p.hash
  height : b.header.height.toNat = p.header.height.toNat + 1

/-- Blocks from a tip down to height 0, newest first. -/
inductive Branch : List Block → Prop
  | bottom {b : Block} (height : b.header.height = 0) : Branch [b]
  | above {b p : Block} {rest : List Block} (branch : Branch (p :: rest)) (parent : Parent b p) :
      Branch (b :: p :: rest)

theorem chainWork_le_of_suffix {chain chain' : List Block} (h : chain <:+ chain') :
    chainWork chain ≤ chainWork chain' := by
  obtain ⟨front, rfl⟩ := h
  induction front with
  | nil => exact Nat.le_refl _
  | cons b front ih => exact le_trans ih (Nat.le_add_left _ _)

theorem replay_cons (b : Block) (rest : List Block) :
    Ledger.replay (b :: rest) = (Ledger.replay rest).apply b := rfl

theorem exists_suffix_of_mem {α : Type} {l : List α} {a : α} (h : a ∈ l) :
    ∃ rest, a :: rest <:+ l := by
  obtain ⟨front, rest, rfl⟩ := List.append_of_mem h
  exact ⟨rest, front, rfl⟩

theorem append_suffix_append {α : Type} {l l' : List α} (h : l <:+ l') (more : List α) :
    l ++ more <:+ l' ++ more := by
  obtain ⟨front, rfl⟩ := h
  exact ⟨front, (List.append_assoc ..).symm⟩

/-- An element of a list is its first one or has another in front. -/
theorem eq_or_exists_of_suffix {α : Type} {a : α} {rest l : List α} (h : a :: rest <:+ l) :
    l = a :: rest ∨ ∃ t, t :: a :: rest <:+ l := by
  obtain ⟨front, rfl⟩ := h
  rcases List.eq_nil_or_concat front with rfl | ⟨front, t, rfl⟩
  · exact .inl rfl
  · exact .inr ⟨t, front, by simp⟩

theorem mem_tail_of_suffix {α : Type} {t a x : α} {rest l : List α}
    (h : t :: a :: rest <:+ x :: l) : a ∈ l := by
  rcases List.suffix_cons_iff.mp h with heq | h
  · rw [← (List.cons.inj heq).2]
    exact List.mem_cons_self
  · exact h.subset (List.mem_cons_of_mem _ List.mem_cons_self)

theorem Parent.height_pos {b p : Block} (h : Parent b p) : 0 < b.header.height := by
  rw [UInt64.lt_iff_toNat_lt, h.height]
  exact Nat.succ_pos _

theorem Parent.height_sub_one {b p : Block} (h : Parent b p) :
    b.header.height - 1 = p.header.height := by
  rw [← UInt64.toNat_inj, UInt64.toNat_sub_of_le _ _ (UInt64.le_iff_toNat_le.mpr ?_), h.height]
  · exact Nat.add_sub_cancel _ _
  · rw [h.height]
    exact Nat.le_add_left _ _

namespace Branch

variable {blocks : List Block}

/-- The part of a branch below one of its blocks is a branch. -/
theorem of_suffix (h : Branch blocks) {b : Block} {rest : List Block}
    (hsuffix : b :: rest <:+ blocks) : Branch (b :: rest) := by
  induction h with
  | bottom height =>
    rcases List.suffix_cons_iff.mp hsuffix with heq | hnil
    · rw [heq]
      exact .bottom height
    · exact absurd (List.suffix_nil.mp hnil) (List.cons_ne_nil _ _)
  | above branch parent ih =>
    rcases List.suffix_cons_iff.mp hsuffix with heq | hsuffix
    · rw [heq]
      exact .above branch parent
    · exact ih hsuffix

/-- Heights count the blocks below. -/
theorem height_eq (h : Branch blocks) {b : Block} {rest : List Block}
    (hsuffix : b :: rest <:+ blocks) : b.header.height.toNat = rest.length := by
  have hbranch := h.of_suffix hsuffix
  clear h hsuffix
  generalize hlist : b :: rest = list at hbranch
  induction hbranch generalizing b rest with
  | bottom height =>
    cases hlist
    rw [height]
    rfl
  | above branch parent ih =>
    cases hlist
    rw [parent.height, ih rfl]
    rfl

/-- Blocks of one height on a branch have the same place. -/
theorem suffix_inj (h : Branch blocks) {x y : Block} {restx resty : List Block}
    (hx : x :: restx <:+ blocks) (hy : y :: resty <:+ blocks)
    (heq : x.header.height = y.header.height) : x :: restx = y :: resty := by
  have hlength : restx.length = resty.length := by
    rw [← h.height_eq hx, ← h.height_eq hy, heq]
  have hsuffix := List.suffix_of_suffix_length_le hx hy (by simp [hlength])
  exact hsuffix.eq_of_length (by simp [hlength])

theorem height_inj (h : Branch blocks) {x y : Block} (hx : x ∈ blocks) (hy : y ∈ blocks)
    (heq : x.header.height = y.header.height) : x = y := by
  obtain ⟨restx, hx⟩ := exists_suffix_of_mem hx
  obtain ⟨resty, hy⟩ := exists_suffix_of_mem hy
  exact (List.cons.inj (h.suffix_inj hx hy heq)).1

/-- On a branch there is a block of every height up to that of the tip. -/
theorem exists_of_height_le {b : Block} {rest : List Block} (h : Branch (b :: rest))
    {height : UInt64} (hle : height ≤ b.header.height) :
    ∃ x ∈ b :: rest, x.header.height = height := by
  generalize hlist : b :: rest = list at h
  induction h generalizing b rest with
  | @bottom g hg =>
    cases hlist
    rw [hg, UInt64.le_zero_iff] at hle
    exact ⟨g, List.mem_singleton_self g, hg.trans hle.symm⟩
  | @above b' _ _ branch parent ih =>
    obtain ⟨rfl, rfl⟩ := List.cons.inj hlist
    by_cases heq : height = b.header.height
    · exact ⟨b, List.mem_cons_self, heq.symm⟩
    · rw [UInt64.le_iff_toNat_le, parent.height] at hle
      have hne : height.toNat ≠ b.header.height.toNat := fun h ↦ heq (UInt64.toNat_inj.mp h)
      rw [parent.height] at hne
      obtain ⟨x, hx, hheight⟩ := ih (UInt64.le_iff_toNat_le.mpr (by omega)) rfl
      exact ⟨x, List.mem_cons_of_mem _ hx, hheight⟩

theorem tail {b : Block} (h : Branch (b :: blocks)) (hne : blocks ≠ []) : Branch blocks := by
  cases h with
  | bottom height => exact absurd rfl hne
  | above branch parent => exact branch

theorem exists_cons (h : Branch blocks) : ∃ b rest, blocks = b :: rest := by
  cases h with
  | bottom => exact ⟨_, _, rfl⟩
  | above => exact ⟨_, _, rfl⟩

theorem isChain (h : Branch blocks) : blocks.IsChain fun b p ↦ b.header.prevHash = p.hash := by
  induction h with
  | bottom height => exact List.IsChain.singleton _
  | above branch parent ih => exact List.isChain_cons_cons.mpr ⟨parent.link, ih⟩

end Branch

end NevelCore
