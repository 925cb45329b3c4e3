import Mathlib.Algebra.Order.BigOperators.Group.Multiset
import Mathlib.Algebra.Order.Group.Nat
import Mathlib.Algebra.Ring.Nat
import Mathlib.Data.Finmap

/-!
# Batches of writes to a key-value map

A batch is a list of writes, each setting or deleting one key, and `commit` performs it in order.
The lookup theorems say what a batch leaves under a key: what was there if no write names the key
(`lookup_commit_of_notMem`), and otherwise a value that does not depend on the map before
(`lookup_commit_congr`). Writes to different keys can be made in any order (`commit_perm`), and
`commit_undo` is the rule for undo logs.

`commitFallible` performs a batch whose writes may fail one by one, each failure ending it. What is
left is then what the writes before the failing one leave (`commitFallible_cases`), and
`commit_eq_self_iff` says when these leave the map as it was.

The second part weighs the entries of a map. `total_commit` is the exact account of a batch: the
weights before and the weights set are the weights after and the weights lost on the way.
`sum_weightAt_le_lost` bounds the loss from below by any keys that the batch touches, and
`lost_eq_of_fresh` computes it when no value is replaced. `fresh_iff` says when that is so.
-/

set_option autoImplicit false
set_option relaxedAutoImplicit false

namespace NevelCore.Foundations

variable {κ : Type} {V : κ → Type}

/-- One write of a batch. -/
inductive BatchOp (V : κ → Type) where
  | set (key : κ) (value : V key)
  | delete (key : κ)

namespace BatchOp

def key : BatchOp V → κ
  | .set key _ => key
  | .delete key => key

@[simp] theorem key_set (key : κ) (value : V key) : (set key value : BatchOp V).key = key := rfl

@[simp] theorem key_delete (key : κ) : (delete key : BatchOp V).key = key := rfl

variable [DecidableEq κ]

def apply : BatchOp V → Finmap V → Finmap V
  | .set key value, m => m.insert key value
  | .delete key, m => m.erase key

theorem lookup_apply_of_ne {op : BatchOp V} {k : κ} (h : k ≠ op.key) (m : Finmap V) :
    (op.apply m).lookup k = m.lookup k := by
  cases op with
  | set key value => exact Finmap.lookup_insert_of_ne m h
  | delete key => exact Finmap.lookup_erase_ne h

theorem lookup_apply_congr (op : BatchOp V) (m m' : Finmap V) :
    (op.apply m).lookup op.key = (op.apply m').lookup op.key := by
  cases op with
  | set key value => exact (Finmap.lookup_insert m).trans (Finmap.lookup_insert m').symm
  | delete key => exact (Finmap.lookup_erase key m).trans (Finmap.lookup_erase key m').symm

theorem apply_comm {op op' : BatchOp V} (h : op.key ≠ op'.key) (m : Finmap V) :
    op.apply (op'.apply m) = op'.apply (op.apply m) := by
  refine Finmap.ext_lookup fun k ↦ ?_
  by_cases hk : k = op.key
  · subst hk
    rw [lookup_apply_of_ne h]
    exact lookup_apply_congr op _ _
  · rw [lookup_apply_of_ne hk]
    by_cases hk' : k = op'.key
    · subst hk'
      exact lookup_apply_congr op' _ _
    · rw [lookup_apply_of_ne hk', lookup_apply_of_ne hk', lookup_apply_of_ne hk]

end BatchOp

variable [DecidableEq κ]

/-- Performs the writes of a batch in order. -/
def commit (ops : List (BatchOp V)) (m : Finmap V) : Finmap V :=
  ops.foldl (fun m op ↦ op.apply m) m

@[simp] theorem commit_nil (m : Finmap V) : commit [] m = m := rfl

@[simp] theorem commit_cons (op : BatchOp V) (ops : List (BatchOp V)) (m : Finmap V) :
    commit (op :: ops) m = commit ops (op.apply m) := rfl

@[simp] theorem commit_append (ops ops' : List (BatchOp V)) (m : Finmap V) :
    commit (ops ++ ops') m = commit ops' (commit ops m) :=
  List.foldl_append

/-! ### What a batch leaves under a key -/

/-- A batch does not change what is under the keys it does not name. -/
theorem lookup_commit_of_notMem {ops : List (BatchOp V)} {k : κ} (h : k ∉ ops.map BatchOp.key)
    (m : Finmap V) : (commit ops m).lookup k = m.lookup k := by
  induction ops generalizing m with
  | nil => rfl
  | cons op ops ih =>
    rw [List.map_cons, List.mem_cons, not_or] at h
    rw [commit_cons, ih h.2, BatchOp.lookup_apply_of_ne h.1]

/-- What a batch leaves under a key it names does not depend on the map before. -/
theorem lookup_commit_congr {ops : List (BatchOp V)} {k : κ} (h : k ∈ ops.map BatchOp.key)
    (m m' : Finmap V) : (commit ops m).lookup k = (commit ops m').lookup k := by
  induction ops generalizing m m' with
  | nil => cases h
  | cons op ops ih =>
    by_cases hrest : k ∈ ops.map BatchOp.key
    · exact ih hrest _ _
    · obtain rfl : k = op.key := by
        rw [List.map_cons, List.mem_cons] at h
        exact h.resolve_right hrest
      rw [commit_cons, commit_cons, lookup_commit_of_notMem hrest, lookup_commit_of_notMem hrest]
      cases op with
      | set key value => exact (Finmap.lookup_insert m).trans (Finmap.lookup_insert m').symm
      | delete key => exact (Finmap.lookup_erase key m).trans (Finmap.lookup_erase key m').symm

/-- A batch that is built part by part is committed part by part. -/
theorem commit_flatMap {α : Type} (batch : α → List (BatchOp V)) (items : List α) (m : Finmap V) :
    commit (items.flatMap batch) m = items.foldl (fun m item ↦ commit (batch item) m) m := by
  induction items generalizing m with
  | nil => rfl
  | cons item items ih => rw [List.flatMap_cons, commit_append, ih, List.foldl_cons]

/-- A batch makes up for whatever was written before it to its own keys. -/
theorem commit_commit_of_subset {ops ops' : List (BatchOp V)}
    (h : ops'.map BatchOp.key ⊆ ops.map BatchOp.key) (m : Finmap V) :
    commit ops (commit ops' m) = commit ops m := by
  refine Finmap.ext_lookup fun k ↦ ?_
  by_cases hk : k ∈ ops.map BatchOp.key
  · exact lookup_commit_congr hk _ _
  · rw [lookup_commit_of_notMem hk, lookup_commit_of_notMem hk,
      lookup_commit_of_notMem fun hk' ↦ hk (h hk')]

/-- A write to another key can be made before a batch as well as after it. -/
theorem commit_insert {ops : List (BatchOp V)} {k : κ} (h : k ∉ ops.map BatchOp.key) (value : V k)
    (m : Finmap V) : commit ops (m.insert k value) = (commit ops m).insert k value := by
  refine Finmap.ext_lookup fun key ↦ ?_
  rcases eq_or_ne key k with rfl | hne
  · rw [lookup_commit_of_notMem h, Finmap.lookup_insert, Finmap.lookup_insert]
  · rw [Finmap.lookup_insert_of_ne _ hne]
    by_cases hmem : key ∈ ops.map BatchOp.key
    · exact lookup_commit_congr hmem _ _
    · rw [lookup_commit_of_notMem hmem, lookup_commit_of_notMem hmem,
        Finmap.lookup_insert_of_ne _ hne]

/-- Writes to different keys can be made in any order. -/
theorem commit_perm {ops ops' : List (BatchOp V)} (h : ops.Perm ops')
    (hnodup : (ops.map BatchOp.key).Nodup) (m : Finmap V) : commit ops m = commit ops' m := by
  refine h.foldl_eq' (fun op hop op' hop' m ↦ ?_) m
  by_cases heq : op = op'
  · rw [heq]
  · exact BatchOp.apply_comm (fun hkey ↦ heq (List.inj_on_of_nodup_map hnodup hop hop' hkey.symm)) m

/-- The last write to a key decides what is under it. -/
theorem lookup_commit_set {before after : List (BatchOp V)} {k : κ}
    (h : k ∉ after.map BatchOp.key) (value : V k) (m : Finmap V) :
    (commit (before ++ .set k value :: after) m).lookup k = some value := by
  rw [commit_append, commit_cons, lookup_commit_of_notMem h]
  exact Finmap.lookup_insert _

/-- Deleting some keys leaves nothing under them. -/
theorem lookup_commit_delete {keys : List κ} {k : κ} (h : k ∈ keys) (m : Finmap V) :
    (commit (keys.map fun key ↦ (.delete key : BatchOp V)) m).lookup k = none := by
  induction keys generalizing m with
  | nil => cases h
  | cons key keys ih =>
    rw [List.map_cons, commit_cons]
    by_cases hrest : k ∈ keys
    · exact ih hrest _
    · obtain rfl : k = key := (List.mem_cons.mp h).resolve_right hrest
      rw [lookup_commit_of_notMem (by simpa using hrest)]
      exact Finmap.lookup_erase k m

/-- Setting some entries that all agree with one map leaves under their keys what that map has. -/
theorem lookup_commit_sets {entries : List (Sigma V)} {old : Finmap V}
    (hentries : ∀ entry ∈ entries, old.lookup entry.1 = some entry.2) {k : κ}
    (h : k ∈ entries.map Sigma.fst) (m : Finmap V) :
    (commit (entries.map fun entry ↦ .set entry.1 entry.2) m).lookup k = old.lookup k := by
  induction entries generalizing m with
  | nil => cases h
  | cons entry entries ih =>
    rw [List.map_cons, commit_cons]
    by_cases hrest : k ∈ entries.map Sigma.fst
    · exact ih (fun e he ↦ hentries e (List.mem_cons_of_mem _ he)) hrest _
    · obtain rfl : k = entry.1 := by
        rw [List.map_cons, List.mem_cons] at h
        exact h.resolve_right hrest
      rw [lookup_commit_of_notMem (by simpa using hrest), hentries entry List.mem_cons_self]
      exact Finmap.lookup_insert m

/-- The rule of undo logs. After a batch, deleting the keys `removed` and setting the logged
entries brings the map back, if the log is true of the map before the batch, every removed key is
logged or was absent, and every other key that the batch names was and is absent. -/
theorem commit_undo {ops : List (BatchOp V)} {removed : List κ} {log : List (Sigma V)}
    {m : Finmap V} (hlog : ∀ entry ∈ log, m.lookup entry.1 = some entry.2)
    (hremoved : ∀ k ∈ removed, k ∈ log.map Sigma.fst ∨ m.lookup k = none)
    (hcover : ∀ k ∈ ops.map BatchOp.key, k ∈ log.map Sigma.fst ∨ k ∈ removed ∨
      m.lookup k = none ∧ (commit ops m).lookup k = none) :
    commit (removed.map .delete ++ log.map fun entry ↦ .set entry.1 entry.2) (commit ops m) =
      m := by
  refine Finmap.ext_lookup fun k ↦ ?_
  rw [commit_append]
  by_cases hk : k ∈ log.map Sigma.fst
  · exact lookup_commit_sets hlog hk _
  rw [lookup_commit_of_notMem (by simpa using hk)]
  by_cases hr : k ∈ removed
  · rw [lookup_commit_delete hr, (hremoved k hr).resolve_left hk]
  rw [lookup_commit_of_notMem (by simpa using hr)]
  by_cases ht : k ∈ ops.map BatchOp.key
  · obtain ⟨hbefore, hafter⟩ := ((hcover k ht).resolve_left hk).resolve_left hr
    rw [hbefore, hafter]
  · exact lookup_commit_of_notMem ht m

/-! ### Batches cut short -/

/-- Performs the writes of a batch in order, from write number `i` on, until one fails. Whether and
how each write fails is given. -/
def commitFallible {ε : Type} (fails : ℕ → Option ε) :
    ℕ → List (BatchOp V) → Finmap V → Except ε Unit × Finmap V
  | _, [], m => (.ok (), m)
  | i, op :: ops, m =>
    match fails i with
    | some e => (.error e, m)
    | none => commitFallible fails (i + 1) ops (op.apply m)

/-- Write number `k` is the first one that fails. -/
def FailsAt {ε : Type} (fails : ℕ → Option ε) (k : ℕ) : Prop :=
  fails k ≠ none ∧ ∀ j < k, fails j = none

theorem FailsAt.unique {ε : Type} {fails : ℕ → Option ε} {j k : ℕ} (hj : FailsAt fails j)
    (hk : FailsAt fails k) : j = k := by
  rcases Nat.lt_trichotomy j k with hlt | heq | hgt
  · exact absurd (hk.2 j hlt) hj.1
  · exact heq
  · exact absurd (hj.2 k hgt) hk.1

/-- A batch is performed as a whole, or up to the first write that fails. -/
theorem commitFallible_cases {ε : Type} (fails : ℕ → Option ε) (i : ℕ) (ops : List (BatchOp V))
    (m : Finmap V) :
    ((∀ k < ops.length, fails (i + k) = none) ∧
      commitFallible fails i ops m = (.ok (), commit ops m)) ∨
    ∃ k < ops.length, ∃ e, fails (i + k) = some e ∧ (∀ j < k, fails (i + j) = none) ∧
      commitFallible fails i ops m = (.error e, commit (ops.take k) m) := by
  induction ops generalizing i m with
  | nil => exact Or.inl ⟨fun k hk ↦ absurd hk (Nat.not_lt_zero k), rfl⟩
  | cons op ops ih =>
    rw [commitFallible]
    cases hfails : fails i with
    | some e =>
      exact Or.inr ⟨0, Nat.succ_pos _, e, hfails, fun j hj ↦ absurd hj (Nat.not_lt_zero j), rfl⟩
    | none =>
      -- A write number behind this one is one more than a write number of the rest.
      have hshift : ∀ {k}, (∀ j < k, fails (i + 1 + j) = none) →
          ∀ j < k + 1, fails (i + j) = none := by
        intro k h j hj
        cases j with
        | zero => exact hfails
        | succ j =>
          rw [← h j (Nat.lt_of_succ_lt_succ hj)]
          congr 1
          omega
      rcases ih (i + 1) (op.apply m) with ⟨hnone, hrun⟩ | ⟨k, hk, e, he, hbefore, hrun⟩
      · exact Or.inl ⟨hshift hnone, hrun⟩
      · refine Or.inr ⟨k + 1, Nat.succ_lt_succ hk, e, ?_, hshift hbefore, hrun⟩
        rw [← he]
        congr 1
        omega

/-- Every key that a batch names has already what the batch leaves there. -/
def Redundant (ops : List (BatchOp V)) (m : Finmap V) : Prop :=
  ∀ k ∈ ops.map BatchOp.key, (commit ops ∅).lookup k = m.lookup k

theorem commit_eq_self_iff {ops : List (BatchOp V)} {m : Finmap V} :
    commit ops m = m ↔ Redundant ops m := by
  constructor
  · intro h k hk
    rw [lookup_commit_congr hk ∅ m, h]
  · intro h
    refine Finmap.ext_lookup fun k ↦ ?_
    by_cases hk : k ∈ ops.map BatchOp.key
    · rw [lookup_commit_congr hk m ∅, h k hk]
    · exact lookup_commit_of_notMem hk m

/-- A batch that does not succeed leaves the map as it was exactly if the writes before the first
one that fails are redundant. -/
theorem commitFallible_atomic_iff {ε : Type} {fails : ℕ → Option ε} {ops : List (BatchOp V)}
    {m : Finmap V} :
    ((commitFallible fails 0 ops m).1 ≠ .ok () → (commitFallible fails 0 ops m).2 = m) ↔
      ∀ k < ops.length, FailsAt fails k → Redundant (ops.take k) m := by
  have hcases := commitFallible_cases fails 0 ops m
  simp only [Nat.zero_add] at hcases
  rcases hcases with ⟨hnone, hrun⟩ | ⟨k, hk, e, he, hbefore, hrun⟩
  · rw [hrun]
    exact ⟨fun _ k hk hfails ↦ absurd (hnone k hk) hfails.1, fun _ h ↦ absurd rfl h⟩
  · have hfails : FailsAt fails k := ⟨he ▸ Option.some_ne_none e, hbefore⟩
    rw [hrun]
    constructor
    · intro h k' _ hfails'
      rw [hfails'.unique hfails, ← commit_eq_self_iff]
      exact h nofun
    · intro h _
      exact commit_eq_self_iff.mpr (h k hk hfails)

/-! ### Batches that replace nothing -/

/-- Every write that sets a key finds it absent at its turn. -/
def Fresh : List (BatchOp V) → Finmap V → Prop
  | [], _ => True
  | .set key value :: ops, m => m.lookup key = none ∧ Fresh ops (m.insert key value)
  | .delete key :: ops, m => Fresh ops (m.erase key)

/-- The keys that a batch deletes, in order. -/
def deleted : List (BatchOp V) → List κ
  | [] => []
  | .set _ _ :: ops => deleted ops
  | .delete key :: ops => key :: deleted ops

/-- The keys that a batch sets, in order. -/
def written : List (BatchOp V) → List κ
  | [] => []
  | .set key _ :: ops => key :: written ops
  | .delete _ :: ops => written ops

omit [DecidableEq κ] in
@[simp] theorem deleted_append (ops ops' : List (BatchOp V)) :
    deleted (ops ++ ops') = deleted ops ++ deleted ops' := by
  induction ops with
  | nil => rfl
  | cons op ops ih => cases op <;> simp [deleted, ih]

omit [DecidableEq κ] in
@[simp] theorem written_append (ops ops' : List (BatchOp V)) :
    written (ops ++ ops') = written ops ++ written ops' := by
  induction ops with
  | nil => rfl
  | cons op ops ih => cases op <;> simp [written, ih]

omit [DecidableEq κ] in
theorem deleted_flatten (batches : List (List (BatchOp V))) :
    deleted batches.flatten = (batches.map deleted).flatten := by
  induction batches with
  | nil => rfl
  | cons ops batches ih => rw [List.flatten_cons, deleted_append, ih]; rfl

omit [DecidableEq κ] in
theorem written_flatten (batches : List (List (BatchOp V))) :
    written batches.flatten = (batches.map written).flatten := by
  induction batches with
  | nil => rfl
  | cons ops batches ih => rw [List.flatten_cons, written_append, ih]; rfl

omit [DecidableEq κ] in
theorem mem_keys_iff {ops : List (BatchOp V)} {k : κ} :
    k ∈ ops.map BatchOp.key ↔ k ∈ deleted ops ∨ k ∈ written ops := by
  induction ops with
  | nil => simp [deleted, written]
  | cons op ops ih =>
    rw [List.map_cons, List.mem_cons, ih]
    cases op with
    | set key value => simp only [BatchOp.key_set, deleted, written, List.mem_cons]; tauto
    | delete key => simp only [BatchOp.key_delete, deleted, written, List.mem_cons]; tauto

omit [DecidableEq κ] in
/-- The keys of a batch are those that it deletes and those that it sets. -/
theorem keys_perm (ops : List (BatchOp V)) :
    (ops.map BatchOp.key).Perm (deleted ops ++ written ops) := by
  induction ops with
  | nil => exact .nil
  | cons op ops ih =>
    cases op with
    | set key value => exact (ih.cons key).trans List.perm_middle.symm
    | delete key => exact ih.cons key

/-- A value that a batch leaves was set by it, or was there before. -/
theorem set_mem_of_lookup_commit {ops : List (BatchOp V)} {k : κ} {value : V k} {m : Finmap V}
    (h : (commit ops m).lookup k = some value) : .set k value ∈ ops ∨ m.lookup k = some value := by
  induction ops generalizing m with
  | nil => exact .inr h
  | cons op ops ih =>
    rcases ih h with hmem | hbefore
    · exact .inl (List.mem_cons_of_mem _ hmem)
    by_cases hk : k = op.key
    swap
    · exact .inr ((BatchOp.lookup_apply_of_ne hk m).symm.trans hbefore)
    cases op with
    | set key value' =>
      obtain rfl : k = key := hk
      obtain rfl := Option.some.inj ((Finmap.lookup_insert m).symm.trans hbefore)
      exact .inl List.mem_cons_self
    | delete key =>
      obtain rfl : k = key := hk
      cases (Finmap.lookup_erase k m).symm.trans hbefore

/-- A key that is absent and not set stays absent. -/
theorem lookup_commit_of_none {ops : List (BatchOp V)} {k : κ} (h : k ∉ written ops)
    {m : Finmap V} (hnone : m.lookup k = none) : (commit ops m).lookup k = none := by
  induction ops generalizing m with
  | nil => exact hnone
  | cons op ops ih =>
    cases op with
    | set key value =>
      rw [written, List.mem_cons, not_or] at h
      exact ih h.2 ((Finmap.lookup_insert_of_ne m h.1).trans hnone)
    | delete key =>
      refine ih h ?_
      by_cases hk : k = key
      · rw [hk]
        exact Finmap.lookup_erase key m
      · exact (Finmap.lookup_erase_ne hk).trans hnone

/-- What a batch does not delete stays there, with the value it had or another. -/
theorem lookup_commit_ne_none {ops : List (BatchOp V)} {k : κ} (h : k ∉ deleted ops)
    {m : Finmap V} (hsome : m.lookup k ≠ none) : (commit ops m).lookup k ≠ none := by
  induction ops generalizing m with
  | nil => exact hsome
  | cons op ops ih =>
    cases op with
    | set key value =>
      refine ih h ?_
      by_cases hk : k = key
      · subst hk
        exact Option.ne_none_iff_exists'.mpr ⟨value, Finmap.lookup_insert m⟩
      · exact fun hnone ↦ hsome ((Finmap.lookup_insert_of_ne m hk).symm.trans hnone)
    | delete key =>
      rw [deleted, List.mem_cons, not_or] at h
      exact ih h.2 fun hnone ↦ hsome ((Finmap.lookup_erase_ne h.1).symm.trans hnone)

/-- A key that is set and not deleted is there. -/
theorem lookup_commit_ne_none_of_set {ops : List (BatchOp V)} {k : κ} {value : V k}
    (hmem : .set k value ∈ ops) (h : k ∉ deleted ops) (m : Finmap V) :
    (commit ops m).lookup k ≠ none := by
  have hkey : k ∈ ops.map BatchOp.key := List.mem_map.mpr ⟨_, hmem, rfl⟩
  rw [lookup_commit_congr hkey m (m.insert k value)]
  refine lookup_commit_ne_none h ?_
  rw [Finmap.lookup_insert]
  exact Option.some_ne_none value

/-- A key that is deleted and not set is absent. -/
theorem lookup_commit_of_deleted {ops : List (BatchOp V)} {k : κ} (hdeleted : k ∈ deleted ops)
    (hwritten : k ∉ written ops) (m : Finmap V) : (commit ops m).lookup k = none := by
  rw [lookup_commit_congr (mem_keys_iff.mpr (.inl hdeleted)) m ∅]
  exact lookup_commit_of_none hwritten rfl

/-- A key that is set once and not deleted has the value set. -/
theorem lookup_commit_of_written {ops : List (BatchOp V)} (hnodup : (written ops).Nodup) {k : κ}
    {value : V k} (hmem : .set k value ∈ ops) (hdeleted : k ∉ deleted ops) (m : Finmap V) :
    (commit ops m).lookup k = some value := by
  obtain ⟨before, after, rfl⟩ := List.append_of_mem hmem
  refine lookup_commit_set (fun hkey ↦ ?_) value m
  rw [deleted_append, List.mem_append, not_or] at hdeleted
  rw [written_append, written, List.nodup_append, List.nodup_cons] at hnodup
  exact (mem_keys_iff.mp hkey).elim hdeleted.2 hnodup.2.1.1

omit [DecidableEq κ] in
theorem exists_split_of_mem_written {ops : List (BatchOp V)} {k : κ} (h : k ∈ written ops) :
    ∃ before value after, ops = before ++ .set k value :: after := by
  induction ops with
  | nil => cases h
  | cons op ops ih =>
    cases op with
    | set key value =>
      rcases List.mem_cons.mp h with rfl | hrest
      · exact ⟨[], value, ops, rfl⟩
      · obtain ⟨before, value', after, rfl⟩ := ih hrest
        exact ⟨.set key value :: before, value', after, rfl⟩
    | delete key =>
      obtain ⟨before, value, after, rfl⟩ := ih h
      exact ⟨.delete key :: before, value, after, rfl⟩

/-- A batch that deletes distinct keys, all present before it, replaces nothing exactly if it sets
distinct keys, each absent before the batch or deleted earlier in it. -/
theorem fresh_iff {ops : List (BatchOp V)} {m : Finmap V} (hnodup : (deleted ops).Nodup)
    (hpresent : ∀ k ∈ deleted ops, m.lookup k ≠ none) :
    Fresh ops m ↔ (written ops).Nodup ∧ ∀ before k value after,
      ops = before ++ .set k value :: after → m.lookup k = none ∨ k ∈ deleted before := by
  induction ops generalizing m with
  | nil => simp [Fresh, written]
  | cons op ops ih =>
    cases op with
    | delete key =>
      rw [deleted, List.nodup_cons] at hnodup
      have hpresent' : ∀ k ∈ deleted ops, (m.erase key).lookup k ≠ none := fun k hk ↦ by
        have hne : k ≠ key := fun he ↦ hnodup.1 (he ▸ hk)
        rw [Finmap.lookup_erase_ne hne]
        exact hpresent k (List.mem_cons_of_mem _ hk)
      rw [Fresh, written, ih hnodup.2 hpresent']
      refine and_congr_right fun _ ↦ ⟨fun h before k value after hsplit ↦ ?_,
        fun h before k value after hsplit ↦ ?_⟩
      · obtain _ | ⟨op, before⟩ := before
        · cases hsplit
        obtain ⟨rfl, rfl⟩ := List.cons.inj hsplit
        by_cases hk : k = key
        · exact .inr (hk ▸ List.mem_cons_self)
        · rw [← Finmap.lookup_erase_ne hk]
          exact (h before k value after rfl).imp_right (List.mem_cons_of_mem _)
      · by_cases hk : k = key
        · exact .inl (hk ▸ Finmap.lookup_erase key m)
        · rw [Finmap.lookup_erase_ne hk]
          refine (h (.delete key :: before) k value after (hsplit ▸ rfl)).imp_right fun hmem ↦ ?_
          exact (List.mem_cons.mp hmem).resolve_left hk
    | set key value =>
      rw [deleted] at hnodup hpresent
      have hlookup : ∀ k, k ≠ key → (m.insert key value).lookup k = m.lookup k := fun k hk ↦
        Finmap.lookup_insert_of_ne m hk
      have hpresent' : ∀ k ∈ deleted ops, (m.insert key value).lookup k ≠ none := fun k hk ↦ by
        by_cases he : k = key
        · rw [he, Finmap.lookup_insert]
          exact Option.some_ne_none value
        · rw [hlookup k he]
          exact hpresent k hk
      rw [Fresh, written, List.nodup_cons, ih hnodup hpresent']
      constructor
      · rintro ⟨habsent, hwritten, h⟩
        -- a second write of the key would need a deletion of it, and it was absent
        have hkey : key ∉ written ops := fun hmem ↦ by
          obtain ⟨before, value', after, rfl⟩ := exists_split_of_mem_written hmem
          rcases h before key value' after rfl with hnone | hdeleted
          · rw [Finmap.lookup_insert] at hnone
            cases hnone
          · refine hpresent key ?_ habsent
            rw [deleted_append]
            exact List.mem_append_left _ hdeleted
        refine ⟨⟨hkey, hwritten⟩, fun before k value' after hsplit ↦ ?_⟩
        obtain _ | ⟨op, before⟩ := before
        · cases hsplit
          exact .inl habsent
        obtain ⟨rfl, rfl⟩ := List.cons.inj hsplit
        rw [← hlookup k fun he ↦ hkey (he ▸ by simp [written])]
        exact h before k value' after rfl
      · rintro ⟨⟨hkey, hwritten⟩, h⟩
        have habsent := (h [] key value ops rfl).resolve_right List.not_mem_nil
        refine ⟨habsent, hwritten, fun before k value' after hsplit ↦ ?_⟩
        rw [hlookup k fun he ↦ hkey (he ▸ by simp [hsplit, written])]
        exact h (.set key value :: before) k value' after (hsplit ▸ rfl)

/-! ### Weights -/

section Weights

variable (w : (k : κ) → V k → ℕ)

/-- The weight of all entries of a map. -/
def total (m : Finmap V) : ℕ := (m.entries.map fun entry ↦ w entry.1 entry.2).sum

/-- The weight of what a map has under a key. -/
def weightAt (m : Finmap V) (k : κ) : ℕ := (m.lookup k).elim 0 (w k)

/-- The weight of what a write sets. -/
def BatchOp.gain : BatchOp V → ℕ
  | .set key value => w key value
  | .delete _ => 0

/-- The weights that a batch sets. -/
def gained (ops : List (BatchOp V)) : ℕ := (ops.map (BatchOp.gain w)).sum

/-- The weights that the writes of a batch remove or replace, each found at its turn. -/
def lost : List (BatchOp V) → Finmap V → ℕ
  | [], _ => 0
  | op :: ops, m => weightAt w m op.key + lost ops (op.apply m)

variable {w}

theorem weightAt_of_lookup {m : Finmap V} {k : κ} {value : V k} (h : m.lookup k = some value) :
    weightAt w m k = w k value := by
  rw [weightAt, h]
  rfl

theorem weightAt_of_none {m : Finmap V} {k : κ} (h : m.lookup k = none) : weightAt w m k = 0 := by
  rw [weightAt, h]
  rfl

theorem total_insert (m : Finmap V) (k : κ) (value : V k) :
    total w (m.insert k value) = w k value + total w (m.erase k) := by
  have hinsert : m.insert k value = (m.erase k).insert k value := by
    refine Finmap.ext_lookup fun k' ↦ ?_
    by_cases hk : k' = k
    · rw [hk, Finmap.lookup_insert, Finmap.lookup_insert]
    · rw [Finmap.lookup_insert_of_ne m hk, Finmap.lookup_insert_of_ne _ hk,
        Finmap.lookup_erase_ne hk]
  rw [hinsert, total, Finmap.entries_insert_of_notMem Finmap.notMem_erase_self, Multiset.map_cons,
    Multiset.sum_cons, total]

theorem total_erase (m : Finmap V) (k : κ) : total w (m.erase k) + weightAt w m k = total w m := by
  cases h : m.lookup k with
  | none =>
    have herase : m.erase k = m := by
      refine Finmap.ext_lookup fun k' ↦ ?_
      by_cases hk : k' = k
      · rw [hk, Finmap.lookup_erase, h]
      · exact Finmap.lookup_erase_ne hk
    rw [herase, weightAt_of_none h, Nat.add_zero]
  | some value =>
    have hinsert : m.insert k value = m := by
      refine Finmap.ext_lookup fun k' ↦ ?_
      by_cases hk : k' = k
      · rw [hk, Finmap.lookup_insert, h]
      · exact Finmap.lookup_insert_of_ne m hk
    rw [weightAt_of_lookup h, Nat.add_comm, ← total_insert, hinsert]

/-- A total is monotone in the weights of what the map has. -/
theorem total_mono {w' : ∀ k, V k → ℕ} {m : Finmap V}
    (h : ∀ {k value}, m.lookup k = some value → w k value ≤ w' k value) :
    total w m ≤ total w' m := by
  refine Multiset.sum_map_le_sum_map _ _ fun entry hentry ↦ ?_
  exact h (Finmap.lookup_eq_some_iff.mpr hentry)

theorem total_apply (op : BatchOp V) (m : Finmap V) :
    total w (op.apply m) + weightAt w m op.key = total w m + op.gain w := by
  have herase := total_erase (w := w) m op.key
  cases op with
  | set key value =>
    change total w (m.insert key value) + weightAt w m key = total w m + w key value
    rw [total_insert]
    rw [BatchOp.key_set] at herase
    omega
  | delete key => exact herase

/-- The exact account of a batch. -/
theorem total_commit (ops : List (BatchOp V)) (m : Finmap V) :
    total w (commit ops m) + lost w ops m = total w m + gained w ops := by
  induction ops generalizing m with
  | nil => rfl
  | cons op ops ih =>
    have hstep := total_apply (w := w) op m
    have hrest := ih (op.apply m)
    simp only [commit_cons, lost, gained, List.map_cons, List.sum_cons] at hrest ⊢
    omega

omit [DecidableEq κ] in
theorem gained_append (ops ops' : List (BatchOp V)) :
    gained w (ops ++ ops') = gained w ops + gained w ops' := by
  rw [gained, List.map_append, List.sum_append, gained, gained]

omit [DecidableEq κ] in
theorem gained_flatten (batches : List (List (BatchOp V))) :
    gained w batches.flatten = (batches.map (gained w)).sum := by
  induction batches with
  | nil => rfl
  | cons ops batches ih =>
    rw [List.flatten_cons, gained_append, ih, List.map_cons, List.sum_cons]

theorem weightAt_apply_of_ne {op : BatchOp V} {k : κ} (h : k ≠ op.key) (m : Finmap V) :
    weightAt w (op.apply m) k = weightAt w m k := by
  rw [weightAt, BatchOp.lookup_apply_of_ne h, weightAt]

theorem sum_weightAt_apply {op : BatchOp V} {keys : List κ} (h : op.key ∉ keys) (m : Finmap V) :
    (keys.map (weightAt w (op.apply m))).sum = (keys.map (weightAt w m)).sum := by
  congr 1
  exact List.map_congr_left fun k hk ↦ weightAt_apply_of_ne (fun he ↦ h (he ▸ hk)) m

/-- What was under the keys that a batch names is lost. -/
theorem sum_weightAt_le_lost {ops : List (BatchOp V)} {keys : List κ} (hnodup : keys.Nodup)
    (h : ∀ k ∈ keys, k ∈ ops.map BatchOp.key) (m : Finmap V) :
    (keys.map (weightAt w m)).sum ≤ lost w ops m := by
  induction ops generalizing keys m with
  | nil =>
    obtain rfl : keys = [] := List.eq_nil_iff_forall_not_mem.mpr fun k hk ↦ by simpa using h k hk
    exact Nat.le_refl _
  | cons op ops ih =>
    -- the first write accounts for its own key, and the others for the rest
    have hrest := ih (hnodup.erase op.key) (fun k hk ↦ by
      have hne := (List.Nodup.mem_erase_iff hnodup).mp hk
      exact (List.mem_cons.mp (h k hne.2)).resolve_left hne.1) (op.apply m)
    rw [sum_weightAt_apply hnodup.not_mem_erase] at hrest
    rw [lost]
    by_cases hk : op.key ∈ keys
    · rw [((List.perm_cons_erase hk).map (weightAt w m)).sum_eq, List.map_cons, List.sum_cons]
      omega
    · rw [List.erase_of_not_mem hk] at hrest
      omega

/-- Distinct keys have at most the weight of all entries. -/
theorem sum_weightAt_le_total {keys : List κ} (hnodup : keys.Nodup) (m : Finmap V) :
    (keys.map (weightAt w m)).sum ≤ total w m := by
  let ops : List (BatchOp V) := keys.map .delete
  have hlost : (keys.map (weightAt w m)).sum ≤ lost w ops m :=
    sum_weightAt_le_lost hnodup (fun k hk ↦ by simpa [ops] using hk) m
  have hgained : gained w ops = 0 := by
    rw [gained, List.map_map]
    refine List.sum_eq_zero fun x hx ↦ ?_
    obtain ⟨k, -, rfl⟩ := List.mem_map.mp hx
    rfl
  have haccount := total_commit (w := w) ops m
  omega

/-- A batch that replaces nothing and deletes distinct keys, all present before it, loses exactly
what was under these keys. -/
theorem lost_eq_of_fresh {ops : List (BatchOp V)} {m : Finmap V} (hfresh : Fresh ops m)
    (hnodup : (deleted ops).Nodup) (hpresent : ∀ k ∈ deleted ops, m.lookup k ≠ none) :
    lost w ops m = ((deleted ops).map (weightAt w m)).sum := by
  induction ops generalizing m with
  | nil => rfl
  | cons op ops ih =>
    have hstep : op.key ∉ deleted ops → Fresh ops (op.apply m) →
        lost w ops (op.apply m) = ((deleted ops).map (weightAt w m)).sum := fun hkey hfresh' ↦ by
      rw [← sum_weightAt_apply hkey]
      refine ih hfresh' (hnodup.sublist ?_) fun k hk ↦ ?_
      · cases op <;> simp [deleted]
      · rw [BatchOp.lookup_apply_of_ne fun he ↦ hkey (he ▸ hk)]
        exact hpresent k (by cases op <;> simp [deleted, hk])
    cases op with
    | set key value =>
      rw [lost, hstep (fun hk ↦ hpresent key hk hfresh.1) hfresh.2, BatchOp.key_set,
        weightAt_of_none hfresh.1, Nat.zero_add, deleted]
    | delete key =>
      rw [deleted, List.nodup_cons] at hnodup
      rw [lost, hstep hnodup.1 hfresh, deleted, List.map_cons, List.sum_cons, BatchOp.key_delete]

end Weights

end NevelCore.Foundations
