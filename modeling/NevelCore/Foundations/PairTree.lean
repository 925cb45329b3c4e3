import Mathlib.Data.List.Nodup
import Mathlib.Data.Set.Function

/-!
# Trees of paired nodes

A list of leaves is reduced to a root by pairing neighbours level after level, where a last node
without partner is paired with itself. `Root` says what the root of a list is and `Inner` which
pairs are combined on the way. The padding and the missing distinction of leaves and inner nodes
make the root ambiguous in general. `Root.inj` says what is enough to exclude both: the leaves of
each list are distinct, no combined pair is confused with another, and no leaf is a combined pair.
Distinct leaves stay distinct on the next level (`nodup_level`), and there the pairs determine the
list (`pairUp_inj`).
-/

set_option autoImplicit false
set_option relaxedAutoImplicit false

namespace NevelCore.Foundations.PairTree

variable {H : Type}

/-- Pairs neighbours, a last node without partner with itself. -/
def pairUp : List H → List (H × H)
  | first :: second :: rest => (first, second) :: pairUp rest
  | [last] => [(last, last)]
  | [] => []

theorem fst_mem_of_mem_pairUp {p : H × H} {nodes : List H} (h : p ∈ pairUp nodes) :
    p.1 ∈ nodes := by
  induction nodes using pairUp.induct with
  | case1 first second rest ih =>
    rcases List.mem_cons.mp h with rfl | h
    · exact List.mem_cons_self
    · exact List.mem_cons_of_mem _ (List.mem_cons_of_mem _ (ih h))
  | case2 last =>
    obtain rfl := List.mem_singleton.mp h
    exact List.mem_cons_self
  | case3 => cases h

theorem length_pairUp (nodes : List H) : (pairUp nodes).length = (nodes.length + 1) / 2 := by
  induction nodes using pairUp.induct with
  | case1 first second rest ih =>
    rw [pairUp, List.length_cons, ih, List.length_cons, List.length_cons]
    omega
  | case2 last => simp [pairUp]
  | case3 => simp [pairUp]

theorem nodup_pairUp {nodes : List H} (h : nodes.Nodup) : (pairUp nodes).Nodup := by
  induction nodes using pairUp.induct with
  | case1 first second rest ih =>
    obtain ⟨hfirst, h⟩ := List.nodup_cons.mp h
    obtain ⟨hsecond, h⟩ := List.nodup_cons.mp h
    refine List.nodup_cons.mpr ⟨fun hmem ↦ hfirst ?_, ih h⟩
    exact List.mem_cons_of_mem second (fst_mem_of_mem_pairUp hmem)
  | case2 last => exact List.nodup_singleton _
  | case3 => exact List.nodup_nil

/-- Lists of distinct nodes are determined by their pairs: a padded node is paired with itself, and
no two distinct nodes are. -/
theorem pairUp_inj {nodes nodes' : List H} (h : nodes.Nodup) (h' : nodes'.Nodup)
    (hpairs : pairUp nodes = pairUp nodes') : nodes = nodes' := by
  induction nodes using pairUp.induct generalizing nodes' with
  | case1 first second rest ih =>
    match nodes' with
    | [] => cases hpairs
    | [last] =>
      simp only [pairUp, List.cons.injEq, Prod.mk.injEq] at hpairs
      obtain ⟨⟨rfl, rfl⟩, -⟩ := hpairs
      exact absurd List.mem_cons_self (List.nodup_cons.mp h).1
    | first' :: second' :: rest' =>
      simp only [pairUp, List.cons.injEq, Prod.mk.injEq] at hpairs
      obtain ⟨⟨rfl, rfl⟩, hrest⟩ := hpairs
      rw [ih h.of_cons.of_cons h'.of_cons.of_cons hrest]
  | case2 last =>
    match nodes' with
    | [] => cases hpairs
    | [last'] =>
      cases hpairs
      rfl
    | first' :: second' :: rest' =>
      simp only [pairUp, List.cons.injEq, Prod.mk.injEq] at hpairs
      obtain ⟨⟨rfl, rfl⟩, -⟩ := hpairs
      exact absurd List.mem_cons_self (List.nodup_cons.mp h').1
  | case3 =>
    match nodes' with
    | [] => rfl
    | [last] => cases hpairs
    | first :: second :: rest => cases hpairs

variable (combine : H × H → H)

/-- The next level of the tree. -/
def level (nodes : List H) : List H := (pairUp nodes).map combine

/-- The root of a list of leaves. -/
inductive Root : List H → H → Prop where
  | leaf (a : H) : Root [a] a
  | up {nodes : List H} {root : H} (hlength : 1 < nodes.length)
      (h : Root (level combine nodes) root) : Root nodes root

/-- The pairs that are combined above a list of leaves. -/
inductive Inner : List H → H × H → Prop where
  | here {nodes : List H} {p : H × H} (hlength : 1 < nodes.length) (h : p ∈ pairUp nodes) :
    Inner nodes p
  | up {nodes : List H} {p : H × H} (hlength : 1 < nodes.length)
    (h : Inner (level combine nodes) p) : Inner nodes p

/-- A node is a combined pair above a list of leaves. -/
def Combined (leaves : List H) (a : H) : Prop := ∃ p, Inner combine leaves p ∧ combine p = a

variable {combine} {leaves leaves' : List H}

theorem length_level (nodes : List H) :
    (level combine nodes).length = (nodes.length + 1) / 2 := by
  rw [level, List.length_map, length_pairUp]

theorem combined_of_mem_level (hlength : 1 < leaves.length) {a : H}
    (h : a ∈ level combine leaves) : Combined combine leaves a := by
  obtain ⟨p, hp, rfl⟩ := List.mem_map.mp h
  exact ⟨p, .here hlength hp, rfl⟩

/-- The first node of a combined pair is a leaf or a combined pair itself. -/
theorem Inner.fst {p : H × H} (h : Inner combine leaves p) :
    p.1 ∈ leaves ∨ Combined combine leaves p.1 := by
  induction h with
  | here hlength h => exact Or.inl (fst_mem_of_mem_pairUp h)
  | up hlength h ih =>
    right
    rcases ih with hmem | ⟨q, hq, heq⟩
    · exact combined_of_mem_level hlength hmem
    · exact ⟨q, .up hlength hq, heq⟩

/-- The root is the only leaf or a combined pair. -/
theorem Root.mem_or_combined {root : H} (h : Root combine leaves root) :
    root ∈ leaves ∨ Combined combine leaves root := by
  induction h with
  | leaf a => exact Or.inl List.mem_cons_self
  | up hlength h ih =>
    right
    rcases ih with hmem | ⟨p, hp, heq⟩
    · exact combined_of_mem_level hlength hmem
    · exact ⟨p, .up hlength hp, heq⟩

/-- Above more than one leaf the root is a combined pair. -/
theorem Root.combined {root : H} (h : Root combine leaves root) (hlength : 1 < leaves.length) :
    Combined combine leaves root := by
  cases h with
  | leaf a => exact absurd hlength (Nat.lt_irrefl 1)
  | up _ h =>
    rcases h.mem_or_combined with hmem | ⟨p, hp, heq⟩
    · exact combined_of_mem_level hlength hmem
    · exact ⟨p, .up hlength hp, heq⟩

/-- Distinct nodes combine to distinct nodes. -/
theorem nodup_level (hleaves : leaves.Nodup) (hlength : 1 < leaves.length)
    (hinj : Set.InjOn combine {p | Inner combine leaves p}) : (level combine leaves).Nodup := by
  refine List.Nodup.map_on ?_ (nodup_pairUp hleaves)
  intro p hp q hq hpq
  exact hinj (Inner.here hlength hp) (Inner.here hlength hq) hpq

/-- Lists with equal images are equal where the function is injective. -/
theorem map_injOn {α β : Type} {f : α → β} {s : Set α} (hf : s.InjOn f) {xs ys : List α}
    (hxs : ∀ x ∈ xs, x ∈ s) (hys : ∀ y ∈ ys, y ∈ s) (h : xs.map f = ys.map f) : xs = ys := by
  induction xs generalizing ys with
  | nil => exact (List.map_eq_nil_iff.mp h.symm).symm
  | cons x xs ih =>
    cases ys with
    | nil => cases h
    | cons y ys =>
      obtain ⟨hx, hxs⟩ := List.forall_mem_cons.mp hxs
      obtain ⟨hy, hys⟩ := List.forall_mem_cons.mp hys
      rw [List.map_cons, List.map_cons, List.cons.injEq] at h
      rw [hf hx hy h.1, ih hxs hys h.2]

/-- A combined pair that is also combined above the next level of other leaves starts with a
combined pair above these. -/
theorem combined_of_confused (hlength : 1 < leaves.length) (hlength' : 1 < leaves'.length)
    (hinj : Set.InjOn combine {p | Inner combine leaves p ∨ Inner combine leaves' p})
    (h : ∃ a ∈ level combine leaves, Combined combine (level combine leaves') a) :
    ∃ a ∈ leaves, Combined combine leaves' a := by
  obtain ⟨a, hmem, q, hq, heq⟩ := h
  obtain ⟨p, hp, rfl⟩ := List.mem_map.mp hmem
  obtain rfl : q = p := hinj (Or.inr (.up hlength' hq)) (Or.inl (.here hlength hp)) heq
  refine ⟨q.1, fst_mem_of_mem_pairUp hp, ?_⟩
  rcases hq.fst with hfirst | ⟨r, hr, heq⟩
  · exact combined_of_mem_level hlength' hfirst
  · exact ⟨r, .up hlength' hr, heq⟩

/-- Two lists of distinct leaves with one root are equal, or a leaf of one of them is a combined
pair above the other. The trees are walked down from the common root together: where one ends before
the other, its leaf is an inner node there. -/
theorem Root.eq_or_confused {root : H} (h : Root combine leaves root)
    (h' : Root combine leaves' root) (hnodup : leaves.Nodup) (hnodup' : leaves'.Nodup)
    (hinj : Set.InjOn combine {p | Inner combine leaves p ∨ Inner combine leaves' p}) :
    leaves = leaves' ∨ (∃ a ∈ leaves, Combined combine leaves' a) ∨
      ∃ a ∈ leaves', Combined combine leaves a := by
  induction h generalizing leaves' with
  | leaf a =>
    cases h' with
    | leaf => exact Or.inl rfl
    | up hlength' h' =>
      exact Or.inr (Or.inl ⟨a, List.mem_cons_self, Root.combined (.up hlength' h') hlength'⟩)
  | @up nodes root hlength h ih =>
    cases h' with
    | leaf =>
      exact Or.inr (Or.inr ⟨root, List.mem_cons_self, Root.combined (.up hlength h) hlength⟩)
    | up hlength' h' =>
      have hlevel := nodup_level hnodup hlength (hinj.mono fun p hp ↦ Or.inl hp)
      have hlevel' := nodup_level hnodup' hlength' (hinj.mono fun p hp ↦ Or.inr hp)
      have hinjLevel : Set.InjOn combine
          {p | Inner combine (level combine nodes) p ∨
            Inner combine (level combine leaves') p} := by
        refine hinj.mono fun p hp ↦ ?_
        exact hp.imp (.up hlength) (.up hlength')
      rcases ih h' hlevel hlevel' hinjLevel with heq | hconfused | hconfused
      · left
        refine pairUp_inj hnodup hnodup' (map_injOn hinj ?_ ?_ heq)
        · exact fun p hp ↦ Or.inl (.here hlength hp)
        · exact fun p hp ↦ Or.inr (.here hlength' hp)
      · exact Or.inr (Or.inl (combined_of_confused hlength hlength' hinj hconfused))
      · refine Or.inr (Or.inr (combined_of_confused hlength' hlength ?_ hconfused))
        exact hinj.mono fun p hp ↦ Or.symm hp

/-- The root determines distinct leaves of which none is a combined pair. -/
theorem Root.inj {root : H} (h : Root combine leaves root) (h' : Root combine leaves' root)
    (hnodup : leaves.Nodup) (hnodup' : leaves'.Nodup)
    (hinj : Set.InjOn combine {p | Inner combine leaves p ∨ Inner combine leaves' p})
    (hleaf : ∀ a ∈ leaves, ¬ Combined combine leaves' a)
    (hleaf' : ∀ a ∈ leaves', ¬ Combined combine leaves a) : leaves = leaves' := by
  rcases h.eq_or_confused h' hnodup hnodup' hinj with heq | ⟨a, ha, hcombined⟩ | ⟨a, ha, hcombined⟩
  · exact heq
  · exact absurd hcombined (hleaf a ha)
  · exact absurd hcombined (hleaf' a ha)

end NevelCore.Foundations.PairTree
